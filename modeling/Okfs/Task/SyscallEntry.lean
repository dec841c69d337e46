import Okfs.Task.SyscallSpecs

/-!
# OKFS — entering and leaving a system call

What the `call_before` handlers change, and what is the case between the two stops of a call:
most calls are kept or replaced by a neutral one, but `open`, `link` and `wait` leave something
behind for the handler in `next_call`.
-/

namespace Okfs

namespace Syscall

open ByteMemory Memacc

variable {σ : Type} {h : Host σ} {s s' : Tracee σ}

-- ---------------------------------------------------------------------------
-- Calls with nothing left behind
-- ---------------------------------------------------------------------------

/-- What a `call_before` puts into `next_call`, but for files that are opened and children that
are stopped. -/
def plainNext : List (Option After) :=
  [none, some .returnSaved, some .okfsAfterFcntl, some .afterWaitWnohang, some .afterWaitIszombie,
    some .afterFork]

/-- The call has kept its arguments, and its handler needs nothing from before. -/
structure Plain (s s' : Tracee σ) : Prop extends Kept s s' where
  next : s'.slave.nextCall = s.slave.nextCall ∨ s'.slave.nextCall ∈ plainNext

theorem Plain.refl (hf : Fetched s) : Plain s s := ⟨.refl hf, .inl rfl⟩

theorem setSlaveArgs_next (hs' : setSlaveArgs s = .ok s') : s'.slave.nextCall = s.slave.nextCall := by
  unfold setSlaveArgs at hs'
  split at hs'
  · obtain ⟨mem, -, hlast⟩ := bind_ok.mp hs'
    obtain rfl := Except.ok.inj hlast
    rfl
  · obtain rfl := Except.ok.inj hs'
    rfl

theorem dummyCall_next (hs' : dummyCall s = .ok s') : s'.slave.nextCall = s.slave.nextCall := by
  have hnext := setSlaveArgs_next hs'
  exact hnext

theorem dummyCall_plain (hf : Fetched s) (hs' : dummyCall s = .ok s') : Plain s s' :=
  ⟨dummyCall_kept hf hs', .inl (dummyCall_next hs')⟩

theorem forceCallReturn_next {retval : Int} (hs' : forceCallReturn s retval = .ok s') :
    s'.slave.nextCall = some .returnSaved := by
  have hnext := dummyCall_next hs'
  exact hnext

theorem forceCallReturn_plain {retval : Int} (hf : Fetched s)
    (hs' : forceCallReturn s retval = .ok s') : Plain s s' := by
  refine ⟨forceCallReturn_kept hf hs', .inr ?_⟩
  rw [forceCallReturn_next hs']
  decide

/-- Only `next_call` is set. -/
theorem Plain.next_call (hf : Fetched s) {next : Option After} (hnext : next ∈ plainNext) :
    Plain s { s with slave := { s.slave with nextCall := next } } :=
  ⟨.update hf rfl rfl rfl rfl rfl rfl rfl rfl, .inr hnext⟩

theorem slaveRplMem_spec {dest : Word} {src : Nat → ByteMemory.Byte} {n : Nat}
    (hs' : slaveRplMem h s dest src n = .ok s') :
    ∃ mem rplCode rplDest, s' = { s with mem, slave := { s.slave with rplCode, rplDest } } := by
  unfold slaveRplMem at hs'
  split at hs'
  · exact absurd hs' (by simp)
  · obtain ⟨-, -, hrest⟩ := bind_ok.mp hs'
    obtain ⟨code, -, hrest⟩ := bind_ok.mp hrest
    obtain ⟨s₁, hset, hlast⟩ := bind_ok.mp hrest
    obtain rfl := Except.ok.inj hlast
    obtain ⟨mem, rfl⟩ := slaveMemset_spec hset
    exact ⟨mem, some code, dest.toNat, rfl⟩

theorem beforeFork_plain (hf : Fetched s) (hs' : beforeFork h s = .ok s') : Plain s s' := by
  obtain ⟨mem, rplCode, rplDest, rfl⟩ := slaveRplMem_spec hs'
  exact ⟨.update hf rfl rfl rfl rfl rfl rfl rfl rfl, .inl rfl⟩

theorem beforeClone_plain (hf : Fetched s) (hs' : beforeClone h s = .ok s') : Plain s s' := by
  unfold beforeClone at hs'
  split at hs'
  · exact forceCallReturn_plain hf hs'
  · obtain ⟨s₁, hfork, hlast⟩ := bind_ok.mp hs'
    obtain rfl := Except.ok.inj hlast
    have hkept := (beforeFork_plain hf hfork).toKept
    have hnext : some After.afterFork ∈ plainNext := by decide
    exact ⟨hkept.trans (Plain.next_call hkept.fetched hnext).toKept, .inr hnext⟩

theorem okfsFdCall_plain (hf : Fetched s) (hs' : okfsFdCall s = .ok s') : Plain s s' := by
  unfold okfsFdCall at hs'
  split at hs'
  · exact dummyCall_plain hf hs'
  · obtain rfl := Except.ok.inj hs'
    exact .next_call hf (by decide)

theorem okfsOpOnFd_plain (hf : Fetched s) (hs' : okfsOpOnFd s = .ok s') : Plain s s' := by
  unfold okfsOpOnFd at hs'
  split at hs'
  · obtain rfl := Except.ok.inj hs'
    exact .refl hf
  · obtain rfl := Except.ok.inj hs'
    exact .next_call hf (by decide)

theorem okfsOnlyOs_plain (hf : Fetched s) (hs' : okfsOnlyOs s = .ok s') : Plain s s' := by
  unfold okfsOnlyOs at hs'
  split at hs'
  · exact forceCallReturn_plain hf hs'
  · obtain rfl := Except.ok.inj hs'
    exact .refl hf

theorem okfsBeforeMmap_plain (hf : Fetched s) (hs' : okfsBeforeMmap s = .ok s') : Plain s s' := by
  unfold okfsBeforeMmap at hs'
  simp only at hs'
  split at hs'
  · obtain rfl := Except.ok.inj hs'
    exact .refl hf
  split at hs'
  · obtain rfl := Except.ok.inj hs'
    exact .refl hf
  obtain ⟨filep, -, hrest⟩ := bind_ok.mp hs'
  split at hrest
  · obtain rfl := Except.ok.inj hrest
    exact .refl hf
  · exact forceCallReturn_plain hf hrest

theorem okfsBeforeFcntl_plain (hf : Fetched s) (hs' : okfsBeforeFcntl s = .ok s') : Plain s s' := by
  have hfollowed : Plain s { s with slave := { s.slave with nextCall := some .okfsAfterFcntl } } :=
    .next_call hf (by decide)
  unfold okfsBeforeFcntl at hs'
  simp only at hs'
  split at hs'
  · obtain rfl := Except.ok.inj hs'
    exact .refl hf
  split at hs'
  · obtain rfl := Except.ok.inj hs'
    exact hfollowed
  split at hs'
  · exact forceCallReturn_plain hf hs'
  split at hs'
  · exact forceCallReturn_plain hf hs'
  · obtain rfl := Except.ok.inj hs'
    exact hfollowed

-- ---------------------------------------------------------------------------
-- link and rename
-- ---------------------------------------------------------------------------

theorem forced_clean {callfs : FsResolve} {retval : Int} (hf : Fetched s)
    (hs' : forceCallReturn { s with slave := { s.slave with callfs } } retval = .ok s')
    (final : FsResolve) (hfinal : final = s.slave.callfs) :
    Plain s { s' with slave := { s'.slave with callfs := final } } := by
  have hplain := forceCallReturn_plain (hf.callfs callfs) hs'
  exact ⟨hplain.toKept.release final hfinal, hplain.next⟩

/-- A record in which nothing but the first path is set. -/
theorem clean2_of_clean1 {resp : FsResolve} (hclean : clean1 resp = {}) : clean2 resp = resp := by
  cases resp
  simp only [clean1, FsResolve.mk.injEq] at hclean
  obtain ⟨-, h₁, -, h₂, -, h₃, -, h₄⟩ := hclean
  simp only [clean2, *]

theorem with_callfs (hempty : s.slave.callfs = {}) :
    { s with slave := { s.slave with callfs := {} } } = s := by
  rw [← hempty]

/-- Both paths have been resolved, and are left for the handler of the call. -/
def BothLeft (s s' : Tracee σ) : Prop :=
  ∃ callfs, Kept { s with slave := { s.slave with callfs } } s' ∧
    s'.slave.nextCall = s.slave.nextCall

theorem okfsBeforeLnkRnm_cases (hf : Fetched s) (hempty : s.slave.callfs = {})
    (hs' : okfsBeforeLnkRnm h s = .ok s') : Plain s s' ∨ BothLeft s s' := by
  obtain ⟨⟨r₁, s₁⟩, hproc₁, hrest⟩ := bind_ok.mp hs'
  obtain ⟨callfs₁, rfl, hclean₁⟩ := procPath1_spec (by rw [hempty]; rfl) hproc₁
  simp only at hrest
  split at hrest
  · -- the first path cannot be resolved
    obtain ⟨s₂, hforce, hlast⟩ := bind_ok.mp hrest
    obtain rfl := Except.ok.inj hlast
    refine .inl (forced_clean hf hforce (clean1 s₂.slave.callfs) ?_)
    rw [(forceCallReturn_kept (hf.callfs callfs₁) hforce).callfs]
    exact hclean₁
  · obtain ⟨⟨r₂, s₂⟩, hproc₂, hrest⟩ := bind_ok.mp hrest
    have hclean₂ : clean2 callfs₁ = callfs₁ := clean2_of_clean1 (hclean₁.trans hempty)
    obtain ⟨callfs₂, rfl, hcallfs₂⟩ := procPath2_spec hclean₂ hproc₂
    simp only at hrest
    split at hrest
    · obtain ⟨s₂, hforce, hlast⟩ := bind_ok.mp hrest
      obtain rfl := Except.ok.inj hlast
      exact .inl (forced_clean hf hforce {} hempty.symm)
    · split at hrest
      · have hnext := dummyCall_next hrest
        exact .inr ⟨callfs₂, dummyCall_kept (hf.callfs callfs₂) hrest, hnext⟩
      · have hplain := forceCallReturn_plain (hf.callfs {}) hrest
        rw [with_callfs hempty] at hplain
        exact .inl hplain

-- ---------------------------------------------------------------------------
-- open and creat
-- ---------------------------------------------------------------------------

/-- The path of the call has been resolved, and is left for the handler of the open file. -/
structure Opening (s s' : Tracee σ) : Prop where
  fetched : Fetched s'
  restartCall : s'.slave.restartCall = s.slave.restartCall
  duringCall : s'.slave.duringCall = s.slave.duringCall
  clean : clean1 s'.slave.callfs = s.slave.callfs
  leaked : s'.leaked = s.leaked
  cwd : s'.slave.cwd = s.slave.cwd
  fdTab : s'.slave.fdTab = s.slave.fdTab

/-- The kernel opens the temporary file, by the call `nr`. -/
structure OkfsOpening (nr : Word) (s s' : Tracee σ) : Prop extends Opening s s' where
  regs : s'.regs.butEax = { s.regs.butEax with ecx := O_RDONLY ||| O_CREAT, edx := tmpfMode }
  saved : s'.slave.saveRegs.butEax = s.regs.butEax
  origEax : s'.regs.origEax = nr
  next : s'.slave.nextCall = some .okfsAfterOkfsOpen

/-- The kernel opens the file at its canonical path. -/
structure LinuxOpening (s s' : Tracee σ) : Prop extends Opening s s' where
  regs : s'.regs.butEax = s.regs.butEax
  next : s'.slave.nextCall = some .okfsAfterLinuxOpen

theorem slaveRplKnownStr_spec {dest : Word} {newstring origString : CStr}
    (hs' : slaveRplKnownStr h s dest newstring origString = .ok s') :
    ∃ mem rplCode rplDest, s' = { s with mem, slave := { s.slave with rplCode, rplDest } } := by
  unfold slaveRplKnownStr at hs'
  split at hs'
  · exact absurd hs' (by simp)
  · obtain ⟨-, -, hrest⟩ := bind_ok.mp hs'
    obtain ⟨code, -, hrest⟩ := bind_ok.mp hrest
    obtain ⟨s₁, hset, hlast⟩ := bind_ok.mp hrest
    obtain rfl := Except.ok.inj hlast
    obtain ⟨mem, rfl⟩ := slaveMemset_spec hset
    exact ⟨mem, some code, dest.toNat, rfl⟩

theorem okfsDoOpen_spec (h : Host σ) (s : Tracee σ) (fsp : OkfsSuperblock) (flags : Word)
    (mode : Int) : ∃ world, (okfsDoOpen h s fsp flags mode).2 = { s with world } := by
  unfold okfsDoOpen
  simp only
  split
  · split
    · exact ⟨_, rfl⟩
    · exact ⟨_, rfl⟩
  · exact ⟨s.world, rfl⟩

theorem failOpening_plain {callfs : FsResolve} {ret : Int} (world : σ) (hf : Fetched s)
    (hclean : clean1 callfs = s.slave.callfs)
    (hs' : failOpening ret { s with world, slave := { s.slave with callfs } } = .ok s') :
    Plain s s' := by
  have hworld := Kept.world hf world
  obtain ⟨s₁, hforce, hlast⟩ := bind_ok.mp hs'
  obtain rfl := Except.ok.inj hlast
  have hplain := forced_clean hworld.fetched hforce (clean1 s₁.slave.callfs) (by
    rw [(forceCallReturn_kept (hworld.fetched.callfs callfs) hforce).callfs]
    exact hclean)
  exact ⟨hworld.trans hplain.toKept, hplain.next⟩

theorem openTmpf_opening {callfs : FsResolve} {ret : Int} {callNr : Word → Word} {world : σ}
    (hf : Fetched s) (hstack : s.slave.hasStackArgs = false)
    (hclean : clean1 callfs = s.slave.callfs)
    (hs' : openTmpf h ret callNr { s with world, slave := { s.slave with callfs } } = .ok s') :
    OkfsOpening (callNr s.slave.regs.origEax) s s' := by
  obtain ⟨s₁, hrpl, hset⟩ := bind_ok.mp hs'
  obtain ⟨mem, rplCode, rplDest, rfl⟩ := slaveRplKnownStr_spec hrpl
  simp only [setSlaveArgs, hstack, Bool.false_eq_true, if_false] at hset
  obtain rfl := Except.ok.inj hset
  have hargs := hf.arg hstack
  simp only [Args.regs, UserRegs.args, List.cons.injEq, and_true] at hargs
  obtain ⟨h₁, h₂, h₃, h₄, h₅⟩ := hargs
  refine ⟨⟨⟨rfl, fun _ => rfl⟩, rfl, rfl, hclean, rfl, rfl, rfl⟩, ?_, hf.same, rfl, rfl⟩
  rw [← hf.same]
  simp only [Tracee.setregs, UserRegs.withArgs, UserRegs.butEax, h₁, h₄, h₅]

theorem openCanonical_opening {callfs : FsResolve} (hf : Fetched s)
    (hclean : clean1 callfs = s.slave.callfs)
    (hs' : openCanonical h { s with slave := { s.slave with callfs } } = .ok s') :
    LinuxOpening s s' := by
  obtain ⟨s₁, hrpl, hlast⟩ := bind_ok.mp hs'
  obtain ⟨mem, rplCode, rplDest, rfl⟩ := slaveRplKnownStr_spec hrpl
  obtain rfl := Except.ok.inj hlast
  exact ⟨⟨⟨hf.same, hf.arg⟩, rfl, rfl, hclean, rfl, rfl, rfl⟩, rfl, rfl⟩

theorem beforeOpening_cases {flags : Word} {mode : Int} {callNr : Word → Word} (hf : Fetched s)
    (hstack : s.slave.hasStackArgs = false) (hempty : s.slave.callfs = {})
    (hs' : beforeOpening h flags mode callNr s = .ok s') :
    Plain s s' ∨ OkfsOpening (callNr s.slave.regs.origEax) s s' ∨ LinuxOpening s s' := by
  obtain ⟨⟨r, s₁⟩, hproc, hrest⟩ := bind_ok.mp hs'
  obtain ⟨callfs, rfl, hclean⟩ := procPath1_spec (by rw [hempty]; rfl) hproc
  simp only at hrest
  split at hrest
  · exact .inl (failOpening_plain s.world hf hclean hrest)
  split at hrest
  · rename_i fsp _
    obtain ⟨world, hworld⟩ :=
      okfsDoOpen_spec h { s with slave := { s.slave with callfs } } fsp flags mode
    rw [hworld] at hrest
    split at hrest
    · exact .inl (failOpening_plain world hf hclean hrest)
    · exact .inr (.inl (openTmpf_opening hf hstack hclean hrest))
  · exact .inr (.inr (openCanonical_opening hf hclean hrest))

-- ---------------------------------------------------------------------------
-- wait
-- ---------------------------------------------------------------------------

/-- The options that `before_wait` knows. -/
def waitOptions : Word :=
  Wait.WNOHANG ||| Wait.WUNTRACED ||| Wait.WNOTHREAD ||| Wait.WCLONE ||| Wait.WALL

/-- Among the children that are waited for, the first that is ready is a stopped one. -/
def findsStopped (h : Host σ) (s : Tracee σ) : Prop :=
  s.slave.arg3 &&& ~~~waitOptions = 0 ∧
    waitLoop s.slave.arg1.toInt s.slave.gid s.slave.arg3 (h.children s.world) false = .stopped

/-- The kernel is asked not to wait. -/
structure AsksNohang (s s' : Tracee σ) : Prop where
  regs : s'.regs.butEax = { s.regs.butEax with edx := s.regs.edx ||| Wait.WNOHANG }
  fetched : Fetched s'
  callfs : s'.slave.callfs = s.slave.callfs
  restartCall : s'.slave.restartCall = s.slave.restartCall
  duringCall : s'.slave.duringCall = s.slave.duringCall
  leaked : s'.leaked = s.leaked
  cwd : s'.slave.cwd = s.slave.cwd
  fdTab : s'.slave.fdTab = s.slave.fdTab
  next : s'.slave.nextCall = some .afterWaitIsstopped

/-- The kernel is given `pause`, and the call is made again then. -/
structure Suspends (s s' : Tracee σ) : Prop where
  regs : s'.regs.butEax = s.regs.butEax
  fetched : Fetched s'
  callfs : s'.slave.callfs = s.slave.callfs
  restartCall : s'.slave.restartCall = s.slave.regs.origEax.toInt
  duringCall : s'.slave.duringCall = s.slave.duringCall
  leaked : s'.leaked = s.leaked
  cwd : s'.slave.cwd = s.slave.cwd
  fdTab : s'.slave.fdTab = s.slave.fdTab
  next : s'.slave.nextCall = s.slave.nextCall

theorem beforeWait_stopped (hf : Fetched s) (hstack : s.slave.hasStackArgs = false)
    (hfinds : findsStopped h s) (hs' : beforeWait h s = .ok s') : AsksNohang s s' := by
  obtain ⟨hoptions, hloop⟩ := hfinds
  have hargs := hf.arg hstack
  have hedx := congrArg UserRegs.edx hf.same
  simp only [Args.regs, UserRegs.args, List.cons.injEq, and_true] at hargs
  obtain ⟨h₁, h₂, h₃, h₄, h₅⟩ := hargs
  unfold beforeWait at hs'
  rw [waitOptions] at hoptions
  simp only [hoptions, ne_eq, not_true_eq_false, if_false, hloop] at hs'
  simp only [setSlaveArgs, hstack, Bool.false_eq_true, if_false] at hs'
  obtain rfl := Except.ok.inj hs'
  refine ⟨?_, ⟨rfl, fun _ => rfl⟩, rfl, rfl, rfl, rfl, rfl, rfl, rfl⟩
  rw [← hf.same, show s.regs.edx = s.slave.regs.edx from hedx.symm]
  simp only [Tracee.setregs, UserRegs.withArgs, UserRegs.butEax, h₁, h₂, h₃, h₄, h₅]

theorem beforeWait_cases (hf : Fetched s) (hfinds : ¬ findsStopped h s)
    (hs' : beforeWait h s = .ok s') : Plain s s' ∨ Suspends s s' := by
  unfold beforeWait at hs'
  simp only at hs'
  split at hs'
  · obtain rfl := Except.ok.inj hs'
    exact .inl (.refl hf)
  · rename_i hoptions
    split at hs'
    · rename_i hloop
      exact absurd ⟨not_not.mp hoptions, hloop⟩ hfinds
    · obtain rfl := Except.ok.inj hs'
      exact .inl (.next_call hf (by decide))
    · obtain rfl := Except.ok.inj hs'
      exact .inl (.refl hf)
    · split at hs'
      · obtain rfl := Except.ok.inj hs'
        exact .inl (.next_call hf (by decide))
      · obtain rfl := Except.ok.inj hs'
        refine .inr ⟨hf.same, ⟨rfl, hf.arg⟩, rfl, rfl, rfl, rfl, rfl, rfl, rfl⟩

-- ---------------------------------------------------------------------------
-- The stop at the entry
-- ---------------------------------------------------------------------------

theorem getSlaveArgs_spec {stackArgs : Bool} (hs' : getSlaveArgs s stackArgs = .ok s') :
    ∃ arg, s' = { s with slave := { s.slave with arg, hasStackArgs := stackArgs } } ∧
      (stackArgs = false → arg.regs = s.slave.regs.args) := by
  unfold getSlaveArgs at hs'
  split at hs'
  · rename_i hstack
    obtain rfl := Except.ok.inj hs'
    exact ⟨_, by rw [hstack], fun _ => rfl⟩
  · rename_i hstack
    have htrue : stackArgs = true := by simpa using hstack
    obtain ⟨code, -, hlast⟩ := bind_ok.mp hs'
    obtain rfl := Except.ok.inj hlast
    exact ⟨_, by rw [htrue], fun hno => absurd hno hstack⟩

/-- The registers are fetched, and everything else is as it was. -/
theorem fetch_spec {fakeroot : Bool} (hs' : fetch fakeroot s = .ok s') :
    Fetched s' ∧ ∃ arg, s' = { s with
      slave := { s.slave with
        regs := s.regs
        arg
        hasStackArgs := (callTable fakeroot (argsRow s.regs.origEax.toInt)).hasStackArgs } } := by
  obtain ⟨arg, rfl, harg⟩ := getSlaveArgs_spec hs'
  exact ⟨⟨rfl, harg⟩, arg, rfl⟩

/-- What is asked of the rows of the table, in one pass over it. -/
theorem rows_checked : ∀ fakeroot, ∀ nr < NR_syscalls,
    ((callTable fakeroot nr).callBefore ∈
        [some .okfsBeforeOpen, some .okfsBeforeCreat, some .beforeWait] →
      (callTable fakeroot nr).hasStackArgs = false) ∧
    ((callTable fakeroot nr).callBefore = some .okfsBeforeLnkRnm →
      (callTable fakeroot nr).callAfter = some .okfsLink ∨
        (callTable fakeroot nr).callAfter = some .okfsRename) ∧
    ((callTable fakeroot nr).callBefore = some .okfsBeforeOpen → nr = 5) ∧
    ((callTable fakeroot nr).callBefore = some .beforeWait → nr = 7 ∨ nr = 114) ∧
    ((callTable fakeroot nr).callAfter = some .okfsChdir ↔ nr = 12) ∧
    ((callTable fakeroot nr).callAfter = some .okfsFchdir ↔ nr = 133) ∧
    (callTable fakeroot nr).callAfter ≠ some .okfsAfterOkfsOpen := by
  decide +kernel

section Rows

variable {fakeroot : Bool} {nr : Nat} (hlt : nr < NR_syscalls)

include hlt

theorem row_stack (hmem : (callTable fakeroot nr).callBefore ∈
    [some .okfsBeforeOpen, some .okfsBeforeCreat, some .beforeWait]) :
    (callTable fakeroot nr).hasStackArgs = false :=
  (rows_checked fakeroot nr hlt).1 hmem

theorem row_lnkRnm (hbefore : (callTable fakeroot nr).callBefore = some .okfsBeforeLnkRnm) :
    (callTable fakeroot nr).callAfter = some .okfsLink ∨
      (callTable fakeroot nr).callAfter = some .okfsRename :=
  (rows_checked fakeroot nr hlt).2.1 hbefore

theorem row_open (hbefore : (callTable fakeroot nr).callBefore = some .okfsBeforeOpen) : nr = 5 :=
  (rows_checked fakeroot nr hlt).2.2.1 hbefore

theorem row_wait (hbefore : (callTable fakeroot nr).callBefore = some .beforeWait) :
    nr = 7 ∨ nr = 114 :=
  (rows_checked fakeroot nr hlt).2.2.2.1 hbefore

/-- `chdir` and `fchdir`, and no other calls, have these handlers. -/
theorem row_dir : ((callTable fakeroot nr).callAfter = some .okfsChdir ↔ nr = 12) ∧
    ((callTable fakeroot nr).callAfter = some .okfsFchdir ↔ nr = 133) :=
  ⟨(rows_checked fakeroot nr hlt).2.2.2.2.1, (rows_checked fakeroot nr hlt).2.2.2.2.2.1⟩

theorem row_opened : (callTable fakeroot nr).callAfter ≠ some .okfsAfterOkfsOpen :=
  (rows_checked fakeroot nr hlt).2.2.2.2.2.2

end Rows

/-- `during_call` and `next_call` are set. -/
def calling (fakeroot : Bool) (s : Tracee σ) : Tracee σ :=
  let nr : Int := s.slave.regs.origEax.toInt
  let nextCall := if nr > NR_syscalls then s.slave.nextCall else (callTable fakeroot nr.toNat).callAfter
  { s with slave := { s.slave with duringCall := nr, nextCall } }

/-- How the task goes on into the kernel. -/
inductive Entered (h : Host σ) (s s' : Tracee σ) : Prop
  | plain (hplain : Plain s s')
  | both (hboth : BothLeft s s')
      (hnext : s.slave.nextCall = some .okfsLink ∨ s.slave.nextCall = some .okfsRename)
  | okfsOpen (nr : Word) (hnr : nr = 5 ∨ nr = NR_OPEN) (hopening : OkfsOpening nr s s')
  | linuxOpen (hopening : LinuxOpening s s')
  | suspended (hsuspends : Suspends s s')
  | stopped (hnr : s.slave.regs.origEax = 7 ∨ s.slave.regs.origEax = 114)
      (hfinds : findsStopped h s) (hasks : AsksNohang s s')

theorem calling_fetched (hf : Fetched s) (fakeroot : Bool) : Fetched (calling fakeroot s) :=
  ⟨hf.same, hf.arg⟩

theorem Before.run_cases {before : Before} (hf : Fetched s)
    (hempty : s.slave.callfs = {})
    (hstack : before ∈ [.okfsBeforeOpen, .okfsBeforeCreat, .beforeWait] →
      s.slave.hasStackArgs = false)
    (hnext : before = .okfsBeforeLnkRnm →
      s.slave.nextCall = some .okfsLink ∨ s.slave.nextCall = some .okfsRename)
    (hopen : before = .okfsBeforeOpen → s.slave.regs.origEax = 5)
    (hwait : before = .beforeWait → s.slave.regs.origEax = 7 ∨ s.slave.regs.origEax = 114)
    (hs' : before.run h s = .ok s') :
    Entered h s s' := by
  cases before with
  | beforeFork => exact .plain (beforeFork_plain hf hs')
  | okfsFdCall => exact .plain (okfsFdCall_plain hf hs')
  | okfsOpOnFd => exact .plain (okfsOpOnFd_plain hf hs')
  | dummyCall => exact .plain (dummyCall_plain hf hs')
  | beforeExecve =>
    obtain rfl := Except.ok.inj hs'
    exact .plain (.refl hf)
  | unimplementedCall | notSupported => exact .plain (forceCallReturn_plain hf hs')
  | okfsOnlyOs => exact .plain (okfsOnlyOs_plain hf hs')
  | okfsBeforeFcntl => exact .plain (okfsBeforeFcntl_plain hf hs')
  | okfsBeforeMmap => exact .plain (okfsBeforeMmap_plain hf hs')
  | beforeClone => exact .plain (beforeClone_plain hf hs')
  | okfsBeforeLnkRnm =>
    rcases okfsBeforeLnkRnm_cases hf hempty hs' with hplain | hboth
    · exact .plain hplain
    · exact .both hboth (hnext rfl)
  | okfsBeforeOpen =>
    rcases beforeOpening_cases hf (hstack (by decide)) hempty hs' with hplain | hokfs | hlinux
    · exact .plain hplain
    · exact .okfsOpen _ (.inl (hopen rfl)) hokfs
    · exact .linuxOpen hlinux
  | okfsBeforeCreat =>
    rcases beforeOpening_cases hf (hstack (by decide)) hempty hs' with hplain | hokfs | hlinux
    · exact .plain hplain
    · exact .okfsOpen _ (.inr rfl) hokfs
    · exact .linuxOpen hlinux
  | beforeWait =>
    by_cases hfinds : findsStopped h s
    · exact .stopped (hwait rfl) hfinds (beforeWait_stopped hf (hstack (by decide)) hfinds hs')
    · rcases beforeWait_cases hf hfinds hs' with hplain | hsuspends
      · exact .plain hplain
      · exact .suspended hsuspends

theorem enter_cases {fakeroot : Bool} (hf : Fetched s) (hempty : s.slave.callfs = {})
    (hstack : s.slave.hasStackArgs =
      (callTable fakeroot (argsRow s.slave.regs.origEax.toInt)).hasStackArgs)
    (hs' : enter h fakeroot s = .ok s') : Entered h (calling fakeroot s) s' := by
  have hcalling := calling_fetched hf fakeroot
  unfold enter at hs'
  simp only at hs'
  split at hs'
  · rename_i hnr
    have heq : { s with slave := { s.slave with duringCall := s.slave.regs.origEax.toInt } } =
        calling fakeroot s := by
      simp only [calling, if_pos hnr]
    rw [heq] at hs'
    exact .plain (forceCallReturn_plain hcalling hs')
  · rename_i hnr
    split at hs'
    · exact absurd hs' (by simp)
    · rename_i hbounds
      have heq : { s with slave := { s.slave with
            duringCall := s.slave.regs.origEax.toInt
            nextCall := (callTable fakeroot s.slave.regs.origEax.toInt.toNat).callAfter } } =
          calling fakeroot s := by
        simp only [calling, if_neg hnr]
      rw [heq] at hs'
      split at hs'
      · rename_i before hbefore
        have hlt : s.slave.regs.origEax.toInt.toNat < NR_syscalls := by omega
        have hrow : argsRow s.slave.regs.origEax.toInt = s.slave.regs.origEax.toInt.toNat := by
          unfold argsRow
          split <;> omega
        refine Before.run_cases hcalling hempty (fun hmem => ?_) (fun hlnk => ?_) (fun hopen => ?_)
          (fun hwait => ?_) hs'
        · refine (hstack.trans (by rw [hrow])).trans (row_stack hlt ?_)
          rw [hbefore]
          simpa using hmem
        · rw [calling, if_neg hnr]
          exact row_lnkRnm hlt (hbefore.trans (by rw [hlnk]))
        · have hfive := row_open hlt (hbefore.trans (by rw [hopen]))
          have horig : s.slave.regs.origEax.toInt = 5 := by omega
          exact BitVec.eq_of_toInt_eq (horig.trans (by decide))
        · rcases row_wait hlt (hbefore.trans (by rw [hwait])) with hseven | hwait4
          · have horig : s.slave.regs.origEax.toInt = 7 := by omega
            exact .inl (BitVec.eq_of_toInt_eq (horig.trans (by decide)))
          · have horig : s.slave.regs.origEax.toInt = 114 := by omega
            exact .inr (BitVec.eq_of_toInt_eq (horig.trans (by decide)))
      · obtain rfl := Except.ok.inj hs'
        exact .plain (.refl hcalling)

theorem Entered.duringCall (hentered : Entered h s s') :
    s'.slave.duringCall = s.slave.duringCall := by
  cases hentered with
  | plain hplain => exact hplain.duringCall
  | both hboth =>
    obtain ⟨callfs, hkept, -⟩ := hboth
    exact hkept.duringCall
  | okfsOpen nr hnr hopening => exact hopening.duringCall
  | linuxOpen hopening => exact hopening.duringCall
  | suspended hsuspends => exact hsuspends.duringCall
  | stopped hnr hfinds hasks => exact hasks.duringCall

theorem Entered.cwd (hentered : Entered h s s') : s'.slave.cwd = s.slave.cwd := by
  cases hentered with
  | plain hplain => exact hplain.cwd
  | both hboth =>
    obtain ⟨callfs, hkept, -⟩ := hboth
    exact hkept.cwd
  | okfsOpen nr hnr hopening => exact hopening.cwd
  | linuxOpen hopening => exact hopening.cwd
  | suspended hsuspends => exact hsuspends.cwd
  | stopped hnr hfinds hasks => exact hasks.cwd

/-- What handlers put into `next_call`. -/
def handlerNext : List (Option After) :=
  plainNext ++ [some .okfsAfterOkfsOpen, some .okfsAfterLinuxOpen, some .afterWaitIsstopped]

theorem Entered.next (hentered : Entered h s s') :
    s'.slave.nextCall = s.slave.nextCall ∨ s'.slave.nextCall ∈ handlerNext := by
  cases hentered with
  | plain hplain => exact hplain.next.imp_right fun hmem => List.mem_append_left _ hmem
  | both hboth =>
    obtain ⟨callfs, -, hnext⟩ := hboth
    exact .inl hnext
  | okfsOpen nr hnr hopening =>
    right
    rw [hopening.next]
    decide
  | linuxOpen hopening =>
    right
    rw [hopening.next]
    decide
  | suspended hsuspends => exact .inl hsuspends.next
  | stopped hnr hfinds hasks =>
    right
    rw [hasks.next]
    decide

theorem enter_bounds {fakeroot : Bool} (henter : enter h fakeroot s = .ok s')
    (hnr : ¬ s.slave.regs.origEax.toInt > NR_syscalls) :
    s.slave.regs.origEax.toInt.toNat < NR_syscalls := by
  unfold enter at henter
  simp only [if_neg hnr] at henter
  split at henter
  · exact absurd henter (by simp)
  · omega

theorem enter_wait {fakeroot : Bool} (hf : Fetched s) (hstack : s.slave.hasStackArgs = false)
    (hnr : s.slave.regs.origEax = 7 ∨ s.slave.regs.origEax = 114) (hfinds : findsStopped h s)
    (hs' : enter h fakeroot s = .ok s') : AsksNohang (calling fakeroot s) s' := by
  have hwait : beforeWait h (calling fakeroot s) = .ok s' := by
    unfold enter at hs'
    rcases hnr with hseven | hwait4
    · simp only [hseven] at hs'
      rw [calling, hseven]
      exact hs'
    · simp only [hwait4] at hs'
      rw [calling, hwait4]
      exact hs'
  exact beforeWait_stopped (calling_fetched hf fakeroot) hstack hfinds hwait

/-- A task in call 0 counts as one that is in no call. -/
theorem enter_zero {fakeroot : Bool} (hzero : s.slave.regs.origEax.toInt = 0)
    (hs' : enter h fakeroot s = .ok s') : s' = calling fakeroot s := by
  unfold enter at hs'
  simp only [hzero] at hs'
  rw [if_neg (by decide), if_neg (by decide)] at hs'
  have hrow : (callTable fakeroot (0 : Int).toNat).callBefore = none := rfl
  simp only [hrow] at hs'
  obtain rfl := Except.ok.inj hs'
  simp only [calling, hzero]
  rfl

-- ---------------------------------------------------------------------------
-- The stop at the end
-- ---------------------------------------------------------------------------

/-- `during_call` is cleared, and its number is put back. -/
def leaving (s : Tracee σ) : Tracee σ :=
  { s with
    slave := { s.slave with
      duringCall := 0
      regs := { s.slave.regs with origEax := BitVec.ofInt 32 s.slave.duringCall } } }

theorem leaving_fetched (hf : Fetched s) : Fetched (leaving s) := ⟨hf.same, hf.arg⟩

theorem leave_spec {child : Option (Tracee σ)} (hs' : leave h s = .ok (s', child)) :
    ∃ s₁, complete h (leaving s) = .ok (s₁, child) ∧
      s' = { s₁ with slave := { s₁.slave with nextCall := none } } := by
  obtain ⟨⟨s₁, c⟩, hcomplete, hlast⟩ := bind_ok.mp hs'
  obtain ⟨rfl, rfl⟩ := Prod.mk.inj (Except.ok.inj hlast)
  exact ⟨s₁, hcomplete, rfl⟩

/-- The handler of a call that makes no new task. -/
theorem leave_alone {after : After} {child : Option (Tracee σ)} (hrestart : s.slave.restartCall = 0)
    (hnext : s.slave.nextCall = some after) (hfork : after ≠ .afterFork)
    (hs' : leave h s = .ok (s', child)) :
    child = none ∧ ∃ s₁, after.runAlone h (leaving s) = .ok s₁ ∧
      s' = { s₁ with slave := { s₁.slave with nextCall := none } } := by
  obtain ⟨s₁, hcomplete, rfl⟩ := leave_spec hs'
  have hrestart' : (leaving s).slave.restartCall = 0 := hrestart
  have hnext' : (leaving s).slave.nextCall = some after := hnext
  simp only [complete, hrestart', ne_eq, not_true_eq_false, if_false, hnext', After.run,
    if_neg hfork] at hcomplete
  obtain ⟨s₂, halone, hlast⟩ := map_ok hcomplete
  obtain ⟨rfl, rfl⟩ := Prod.mk.inj hlast
  exact ⟨rfl, s₂, halone, rfl⟩

/-- Such a handler returns, and so does the call. -/
theorem leave_alone_ok {after : After} {s₁ : Tracee σ} (hrestart : s.slave.restartCall = 0)
    (hnext : s.slave.nextCall = some after) (hfork : after ≠ .afterFork)
    (halone : after.runAlone h (leaving s) = .ok s₁) :
    leave h s = .ok ({ s₁ with slave := { s₁.slave with nextCall := none } }, none) := by
  have hrestart' : (leaving s).slave.restartCall = 0 := hrestart
  have hnext' : (leaving s).slave.nextCall = some after := hnext
  have hcomplete : complete h (leaving s) = .ok (s₁, none) := by
    simp only [complete, hrestart', ne_eq, not_true_eq_false, if_false, hnext', After.run,
      if_neg hfork, halone]
    rfl
  exact bind_ok.mpr ⟨_, hcomplete, rfl⟩

theorem handleSyscall_cases {fakeroot : Bool} {child : Option (Tracee σ)}
    (hs' : handleSyscall h fakeroot s = .ok (s', child)) :
    ∃ s₁, fetch fakeroot s = .ok s₁ ∧
      (s₁.slave.duringCall = 0 ∧ enter h fakeroot s₁ = .ok s' ∧ child = none ∨
        s₁.slave.duringCall ≠ 0 ∧ leave h s₁ = .ok (s', child)) := by
  obtain ⟨s₁, hfetch, hrest⟩ := bind_ok.mp hs'
  refine ⟨s₁, hfetch, ?_⟩
  split at hrest
  · rename_i hidle
    obtain ⟨s₂, henter, hlast⟩ := bind_ok.mp hrest
    obtain ⟨rfl, rfl⟩ := Prod.mk.inj (Except.ok.inj hlast)
    exact .inl ⟨hidle, henter, rfl⟩
  · rename_i hcall
    exact .inr ⟨hcall, hrest⟩

/-- What is in the record for the handler that is called next. -/
def Left (s : Tracee σ) : Prop :=
  s.slave.callfs = {} ∨
    (s.slave.nextCall = some .okfsLink ∨ s.slave.nextCall = some .okfsRename) ∨
    ((s.slave.nextCall = some .okfsAfterOkfsOpen ∨ s.slave.nextCall = some .okfsAfterLinuxOpen) ∧
      clean1 s.slave.callfs = {})

/-- The handlers that get the strings from the handler that was called at the entry. They do not
call `proc_path1`, `proc_path2` or `add_slave`. -/
def getsStrings : List (Option After) :=
  [some .okfsLink, some .okfsRename, some .okfsAfterOkfsOpen, some .okfsAfterLinuxOpen]

theorem Left.empty (hleft : Left s) (hnext : s.slave.nextCall ∉ getsStrings) :
    s.slave.callfs = {} := by
  rcases hleft with hempty | hlnk | ⟨hopen, -⟩
  · exact hempty
  · exact absurd (by rcases hlnk with hlnk | hlnk <;> rw [hlnk] <;> decide) hnext
  · exact absurd (by rcases hopen with hopen | hopen <;> rw [hopen] <;> decide) hnext

theorem Left.clean (hleft : Left s)
    (hnext : s.slave.nextCall ≠ some .okfsLink ∧ s.slave.nextCall ≠ some .okfsRename) :
    clean1 s.slave.callfs = {} := by
  rcases hleft with hempty | hlnk | ⟨-, hclean⟩
  · rw [hempty]
    rfl
  · exact absurd hlnk (not_or.mpr hnext)
  · exact hclean

/-- What a handler has done, by how it goes on with what has been left to it. -/
inductive Ran (h : Host σ) (after : After) (s s' : Tracee σ) (child : Option (Tracee σ)) : Prop
  | alone (hafter : after ∉ After.goesOn) (halone : after.runAlone h s = .ok s')
      (hempty : s.slave.callfs = {}) (hchild : child = none)
  | twoPaths (hkept : Kept { s with slave := { s.slave with callfs := {} } } s')
      (hchild : child = none)
  | okfsOpen (hafter : after = .okfsAfterOkfsOpen) (hopen : okfsAfterOkfsOpen s = .ok s')
      (hclean : clean1 s.slave.callfs = {}) (hchild : child = none)
  | linuxOpen (hopened : Opened s s') (hregs : s'.regs = s.regs)
      (hclean : clean1 s.slave.callfs = {}) (hchild : child = none)
  | fork (hkept : Kept s s') (hempty : s.slave.callfs = {})
      (hforked : ∀ c, child = some c → Forked s c)

theorem run_cases {after : After} {child : Option (Tracee σ)} (hf : Fetched s)
    (hnext : s.slave.nextCall = some after) (hleft : Left s)
    (hs' : after.run h s = .ok (s', child)) : Ran h after s s' child := by
  by_cases hfork : after = .afterFork
  · obtain rfl := hfork
    have hempty := hleft.empty (by rw [hnext]; decide)
    obtain ⟨hkept, hchild⟩ := afterFork_spec hf hempty hs'
    exact .fork hkept hempty hchild
  · unfold After.run at hs'
    rw [if_neg hfork] at hs'
    obtain ⟨s₁, halone, hlast⟩ := map_ok hs'
    obtain ⟨rfl, rfl⟩ := Prod.mk.inj hlast
    by_cases hmem : after ∈ After.goesOn
    · simp only [After.goesOn, List.mem_cons, List.not_mem_nil, or_false, hfork] at hmem
      rcases hmem with rfl | rfl | rfl | rfl
      · exact .twoPaths (twoPathCall_kept hf halone) rfl
      · exact .twoPaths (twoPathCall_kept hf halone) rfl
      · exact .okfsOpen rfl halone (hleft.clean (by rw [hnext]; decide)) rfl
      · obtain ⟨hopened, hregs⟩ := okfsAfterLinuxOpen_opened halone
        exact .linuxOpen hopened hregs (hleft.clean (by rw [hnext]; decide)) rfl
    · refine .alone hmem halone (hleft.empty ?_) rfl
      rw [hnext]
      intro hget
      refine hmem ?_
      simp only [getsStrings, List.mem_cons, Option.some.injEq, List.not_mem_nil, or_false] at hget
      rcases hget with rfl | rfl | rfl | rfl <;> decide

/-- The call is over. -/
structure Finished (s s' : Tracee σ) : Prop where
  callfs : s'.slave.callfs = {}
  leaked : s'.leaked = s.leaked
  restartCall : s'.slave.restartCall = s.slave.restartCall
  duringCall : s'.slave.duringCall = s.slave.duringCall

theorem Tidy.finished (htidy : Tidy s s') (hempty : s.slave.callfs = {}) : Finished s s' :=
  ⟨htidy.callfs.trans hempty, htidy.leaked, htidy.restartCall, htidy.duringCall⟩

theorem Opened.finished (hopened : Opened s s') (hclean : clean1 s.slave.callfs = {}) :
    Finished s s' :=
  ⟨hopened.callfs.trans hclean, hopened.leaked, hopened.restartCall, hopened.duringCall⟩

theorem Ran.finished {after : After} {child : Option (Tracee σ)} (hf : Fetched s)
    (hran : Ran h after s s' child) : Finished s s' ∧ ∀ c, child = some c → Forked s c := by
  cases hran with
  | alone hafter halone hempty hchild =>
    exact ⟨(runAlone_tidy hf hempty hafter halone).finished hempty, by simp [hchild]⟩
  | twoPaths hkept hchild =>
    exact ⟨⟨hkept.callfs, hkept.leaked, hkept.restartCall, hkept.duringCall⟩, by simp [hchild]⟩
  | okfsOpen hafter hopen hclean hchild =>
    exact ⟨(okfsAfterOkfsOpen_opened hopen).finished hclean, by simp [hchild]⟩
  | linuxOpen hopened hregs hclean hchild => exact ⟨hopened.finished hclean, by simp [hchild]⟩
  | fork hkept hempty hforked => exact ⟨hkept.finished hempty, hforked⟩

/-- The call is made again, or its handler is called. -/
theorem complete_cases {child : Option (Tracee σ)} (hf : Fetched s) (hleft : Left s)
    (hs' : complete h s = .ok (s', child)) :
    (s.slave.restartCall ≠ 0 ∧ child = none ∧ s'.slave.restartCall = 0 ∧
        ∃ s₁, Kept s s₁ ∧ s' = { s₁ with slave := { s₁.slave with restartCall := 0 } }) ∨
      (s.slave.restartCall = 0 ∧ s.slave.nextCall = none ∧ child = none ∧ s' = s) ∨
      (s.slave.restartCall = 0 ∧ ∃ after, s.slave.nextCall = some after ∧ Ran h after s s' child) := by
  unfold complete at hs'
  split at hs'
  · rename_i hrestart
    obtain ⟨s₁, hset, hlast⟩ := bind_ok.mp hs'
    obtain ⟨rfl, rfl⟩ := Prod.mk.inj (Except.ok.inj hlast)
    have hset' : Kept s { s with
        slave := { s.slave with
          regs := { s.slave.regs with
            origEax := BitVec.ofInt 32 s.slave.restartCall
            eax := BitVec.ofInt 32 (-ERESTARTSYS) } } } :=
      .update hf rfl rfl rfl rfl rfl rfl rfl rfl
    exact .inl ⟨hrestart, rfl, rfl, s₁, hset'.trans (setSlaveArgs_kept hset'.fetched hset), rfl⟩
  · rename_i hzero
    have hzero : s.slave.restartCall = 0 := not_not.mp hzero
    split at hs'
    · rename_i after hnext
      exact .inr (.inr ⟨hzero, after, hnext, run_cases hf hnext hleft hs'⟩)
    · rename_i hnext
      obtain ⟨rfl, rfl⟩ := Prod.mk.inj (Except.ok.inj hs')
      exact .inr (.inl ⟨hzero, hnext, rfl, rfl⟩)

theorem complete_finished {child : Option (Tracee σ)} (hf : Fetched s) (hleft : Left s)
    (hrestart : s.slave.restartCall ≠ 0 → s.slave.callfs = {})
    (hs' : complete h s = .ok (s', child)) :
    s'.slave.callfs = {} ∧ s'.leaked = s.leaked ∧ s'.slave.restartCall = 0 ∧
      s'.slave.duringCall = s.slave.duringCall ∧ ∀ c, child = some c → Forked s c := by
  rcases complete_cases hf hleft hs' with ⟨hne, rfl, hzero, s₁, hkept, rfl⟩ |
    ⟨hzero, hnext, rfl, rfl⟩ | ⟨hzero, after, -, hran⟩
  · exact ⟨hkept.callfs.trans (hrestart hne), hkept.leaked, rfl, hkept.duringCall, by simp⟩
  · exact ⟨hleft.empty (by rw [hnext]; decide), rfl, hzero, rfl, by simp⟩
  · obtain ⟨hfinished, hchild⟩ := hran.finished hf
    exact ⟨hfinished.callfs, hfinished.leaked, hfinished.restartCall.trans hzero,
      hfinished.duringCall, hchild⟩

end Syscall

end Okfs
