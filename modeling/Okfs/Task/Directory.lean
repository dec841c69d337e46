import Okfs.Lib.Runs
import Okfs.Task.Registers

/-!
# OKFS — the working directories

The kernel's working directory of a task never changes: `chdir` and `fchdir` are not executed,
and `cwd` in the record is the directory that relative paths start from. Here it is compared
with what the calls of each task say, over runs of all tasks.
-/

namespace Okfs

namespace Syscall

open ByteMemory

variable {σ : Type} {h : Host σ} {fakeroot : Bool} {s s' t : Tracee σ} {child : Option (Tracee σ)}

-- ---------------------------------------------------------------------------
-- What the handlers of the two calls do
-- ---------------------------------------------------------------------------

theorem errno_return (e : Errno) : BitVec.ofInt 32 (-e.code) ≠ 0 := by
  cases e <;> decide

/-- Where no arguments are on the stack, setting a result cannot fail. -/
theorem setSlaveReturn_eax (hstack : s.slave.hasStackArgs = false) {value : Int}
    (hs' : setSlaveReturn s value = .ok s') :
    s'.regs.eax = BitVec.ofInt 32 value ∧ s'.slave.cwd = s.slave.cwd := by
  simp only [setSlaveReturn, setSlaveArgs, hstack, Bool.false_eq_true, if_false] at hs'
  obtain rfl := Except.ok.inj hs'
  exact ⟨rfl, rfl⟩

theorem setSlaveReturn_ok (hstack : s.slave.hasStackArgs = false) (value : Int) :
    ∃ s', setSlaveReturn s value = .ok s' := by
  simp only [setSlaveReturn, setSlaveArgs, hstack, Bool.false_eq_true, if_false]
  exact ⟨_, rfl⟩

/-- The call fails and leaves the directory, or it succeeds and enters the one it names. -/
theorem okfsChdir_cases (hstack : s.slave.hasStackArgs = false) (hempty : s.slave.callfs = {})
    (hs' : okfsChdir h s = .ok s') :
    (s'.regs.eax ≠ 0 ∧ s'.slave.cwd = s.slave.cwd) ∨
      (s'.regs.eax = 0 ∧ ∃ path, slaveGetstr h s s.slave.arg1 = .ok path ∧
        canonicalize h s path true = .ok (.ok s'.slave.cwd)) := by
  obtain ⟨⟨r, s₁⟩, hproc, hrest⟩ := bind_ok.mp hs'
  obtain ⟨s₂, hto, hlast⟩ := bind_ok.mp hrest
  obtain rfl := Except.ok.inj hlast
  have hresult := procPath1_cases hempty hproc
  obtain ⟨callfs, rfl, -⟩ := procPath1_spec (by rw [hempty]; rfl) hproc
  have hfail : ∀ e : Errno, setSlaveReturn { s with slave := { s.slave with callfs } } (-e.code) =
      .ok s₂ → (cleanPath1 s₂).regs.eax ≠ 0 ∧ (cleanPath1 s₂).slave.cwd = s.slave.cwd := by
    intro e hset
    obtain ⟨heax, hcwd⟩ := setSlaveReturn_eax (by exact hstack) hset
    refine ⟨?_, hcwd⟩
    rw [cleanPath1, heax]
    exact errno_return e
  unfold chdirTo at hto
  rcases hresult with ⟨e, rfl, hnone⟩ | ⟨rfl, -, path, canon, hgetstr, hcanon, -, hsome, -⟩
  · have hnone : callfs.canonPath1 = none := hnone
    simp only [hnone] at hto
    exact .inl (hfail e hto)
  · have hsome : callfs.canonPath1 = some canon := hsome
    simp only [hsome] at hto
    split at hto
    · rename_i e _
      exact .inl (hfail e hto)
    · split at hto
      · exact .inl (hfail .ENOTDIR hto)
      · obtain ⟨heax, hcwd⟩ := setSlaveReturn_eax (by exact hstack) hto
        refine .inr ⟨?_, path, hgetstr, ?_⟩
        · rw [cleanPath1, heax]
          rfl
        · rw [show (cleanPath1 s₂).slave.cwd = canon from hcwd]
          exact hcanon

/-- What `fchdir` does with the path that it finds in its variable. -/
theorem okfsFchdir_cases (hstack : s.slave.hasStackArgs = false) (hs' : okfsFchdir h s = .ok s') :
    (s'.regs.eax ≠ 0 ∧ s'.slave.cwd = s.slave.cwd) ∨
      (s'.regs.eax = 0 ∧ ∃ filep path, s.slave.tracked s.slave.arg1.toInt = some filep ∧
        h.garbageString s.world = some path ∧ (h.namei s.world).arglstat path = .ok .dir ∧
        s'.slave.cwd = path) := by
  have hfail : ∀ e : Errno, setSlaveReturn s (-e.code) = .ok s' →
      s'.regs.eax ≠ 0 ∧ s'.slave.cwd = s.slave.cwd := by
    intro e hset
    obtain ⟨heax, hcwd⟩ := setSlaveReturn_eax hstack hset
    rw [heax]
    exact ⟨errno_return e, hcwd⟩
  unfold okfsFchdir at hs'
  split at hs'
  · exact .inl (hfail .EBADF hs')
  · rename_i filep htracked
    split at hs'
    · exact absurd hs' (by simp)
    · rename_i path hgarbage
      split at hs'
      · rename_i e _
        exact .inl (hfail e hs')
      · rename_i stMode hstat
        split at hs'
        · exact .inl (hfail .ENOTDIR hs')
        · rename_i hdir
          obtain ⟨heax, hcwd⟩ := setSlaveReturn_eax (by exact hstack) hs'
          refine .inr ⟨?_, filep, path, htracked, hgarbage, ?_, hcwd⟩
          · rw [heax]
            rfl
          · rw [hstat, not_not.mp hdir]

/-- And it always ends so where the variable leads to a directory. -/
theorem okfsFchdir_ok (hstack : s.slave.hasStackArgs = false) {filep : OkfsFile} {path : CStr}
    (htracked : s.slave.tracked s.slave.arg1.toInt = some filep)
    (hgarbage : h.garbageString s.world = some path)
    (hdir : (h.namei s.world).arglstat path = .ok .dir) :
    ∃ s', okfsFchdir h s = .ok s' ∧ s'.regs.eax = 0 ∧ s'.slave.cwd = path := by
  obtain ⟨s', hset⟩ := setSlaveReturn_ok (s := { s with slave := { s.slave with cwd := path } })
    (by exact hstack) 0
  obtain ⟨heax, hcwd⟩ := setSlaveReturn_eax (by exact hstack) hset
  refine ⟨s', ?_, heax, hcwd⟩
  simp only [okfsFchdir, htracked, hgarbage, hdir, ne_eq, not_true_eq_false, if_false]
  exact hset

-- ---------------------------------------------------------------------------
-- Runs of all tasks
-- ---------------------------------------------------------------------------

def CHDIR : Int := 12
def FCHDIR : Int := 133

/-- A task, with the directory it is in by its own calls. -/
structure Proc (σ : Type) where
  tracee : Tracee σ
  dir : Option CStr

/-- The stop of a task: where it is in the list, and what it is like. -/
structure Stop (σ : Type) where
  task : Nat
  tracee : Tracee σ

/-- The canonical path of what `chdir` names, for a task in `dir`. -/
def namedDir (h : Host σ) (t : Tracee σ) (dir : CStr) : Option CStr :=
  match slaveGetstr h t t.regs.ebx with
  | .error _ => none
  | .ok path =>
    match canonical (h.namei t.world) (some dir) (some path) true with
    | .returned (.ok canon) => some canon
    | _ => none

/-- The path that is recorded for the descriptor that `fchdir` names. -/
def recordedDir (t : Tracee σ) : Option CStr :=
  (t.slave.tracked t.regs.ebx.toInt).map OkfsFile.path

/-- The directory after a call has returned with `s'`, by what the call is for. -/
def nextDir (h : Host σ) (t s' : Tracee σ) (dir : Option CStr) : Option CStr :=
  if t.slave.duringCall = CHDIR ∧ s'.regs.eax = 0 then dir.bind (namedDir h t)
  else if t.slave.duringCall = FCHDIR ∧ s'.regs.eax = 0 then recordedDir t
  else dir

/-- A task stops, and its child begins in the same directory. -/
def dirStep (h : Host σ) (fakeroot : Bool) (ps : List (Proc σ)) (i : Stop σ) :
    Option (List (Proc σ)) :=
  match ps[i.task]?, handleSyscall h fakeroot i.tracee with
  | some p, .ok (s', child) =>
    let dir := nextDir h i.tracee s' p.dir
    some (ps.set i.task ⟨s', dir⟩ ++ child.toList.map fun c => ⟨c, dir⟩)
  | _, _ => none

/-- Between two stops of a task nothing else writes its directory and its table, and the kernel
changes no register but `eax` in a call, unless it is `execve`, `sigreturn` or `rt_sigreturn`. -/
structure Between (s t : Tracee σ) : Prop extends Meanwhile s t where
  cwd : t.slave.cwd = s.slave.cwd
  fdTab : t.slave.fdTab = s.slave.fdTab
  regs : s.slave.duringCall ≠ 0 → s.slave.duringCall ∉ [11, 119, 173] →
    t.regs = { s.regs with eax := t.regs.eax }

def Undisturbed (ps : List (Proc σ)) (i : Stop σ) : Prop :=
  ∀ p, ps[i.task]? = some p → Between p.tracee i.tracee

/-- After the stop all tasks are where their calls have put them. -/
def DirsRight (h : Host σ) (fakeroot : Bool) (ps : List (Proc σ)) (i : Stop σ) : Prop :=
  ∀ ps', dirStep h fakeroot ps i = some ps' → ∀ p ∈ ps', p.dir = some p.tracee.slave.cwd

/-- Where `fchdir` succeeds, for a descriptor that is on record, the variable that has not been
set happens to lead to the recorded path. -/
def FchdirKnows (h : Host σ) (ps : List (Proc σ)) (i : Stop σ) : Prop :=
  (ps[i.task]?).isSome → i.tracee.slave.duringCall = FCHDIR →
    ∀ filep path, i.tracee.slave.tracked i.tracee.regs.ebx.toInt = some filep →
      h.garbageString i.tracee.world = some path →
      (h.namei i.tracee.world).arglstat path = .ok .dir → path = filep.path

-- ---------------------------------------------------------------------------
-- The invariant
-- ---------------------------------------------------------------------------

/-- The handlers of the two calls, and only theirs, are due in the two calls. -/
structure DirCalls (s : Tracee σ) : Prop where
  scratch : Scratch s
  chdir : s.slave.nextCall = some .okfsChdir ↔ s.slave.duringCall = CHDIR
  fchdir : s.slave.nextCall = some .okfsFchdir ↔ s.slave.duringCall = FCHDIR
  neutral : s.slave.duringCall = CHDIR ∨ s.slave.duringCall = FCHDIR →
    s.regs.origEax = DUMMY_CALL_NR ∧ s.slave.restartCall = 0

theorem Ready.dirCalls (hready : Ready s) : DirCalls s := by
  refine ⟨hready.scratch, ?_, ?_, ?_⟩
  · rw [hready.nextCall, hready.duringCall]
    decide
  · rw [hready.nextCall, hready.duringCall]
    decide
  · rw [hready.duringCall]
    rintro (hno | hno)
    · exact absurd hno (by decide)
    · exact absurd hno (by decide)

theorem DirCalls.between (hcalls : DirCalls s) (hbetween : Between s t) : DirCalls t := by
  refine ⟨hcalls.scratch.meanwhile hbetween.toMeanwhile, ?_, ?_, ?_⟩
  · rw [hbetween.nextCall, hbetween.duringCall]
    exact hcalls.chdir
  · rw [hbetween.nextCall, hbetween.duringCall]
    exact hcalls.fchdir
  · rw [hbetween.duringCall, hbetween.restartCall]
    intro hdir
    obtain ⟨horig, hrestart⟩ := hcalls.neutral hdir
    refine ⟨?_, hrestart⟩
    have hregs := hbetween.regs (by rcases hdir with hdir | hdir <;> rw [hdir] <;> decide)
      (by rcases hdir with hdir | hdir <;> rw [hdir] <;> decide)
    rw [hregs]
    exact horig

theorem dummyCall_origEax (hf : Fetched s) (hs' : dummyCall s = .ok s') :
    s'.regs.origEax = DUMMY_CALL_NR := by
  obtain ⟨mem, rfl⟩ := setSlaveArgs_spec (by exact ⟨hf.same, hf.arg⟩) hs'
  rfl

/-- Neither of the two calls is executed by the kernel. -/
theorem enter_dir (hnr : s.slave.regs.origEax.toInt = CHDIR ∨ s.slave.regs.origEax.toInt = FCHDIR) :
    enter h fakeroot s = dummyCall (calling fakeroot s) := by
  unfold enter
  rcases hnr with hnr | hnr
  · simp only [hnr, calling]
    rfl
  · simp only [hnr, calling]
    rfl

theorem enter_next_iff (hf : Fetched s)
    (hstack : s.slave.hasStackArgs =
      (callTable fakeroot (argsRow s.slave.regs.origEax.toInt)).hasStackArgs)
    (hcalls : DirCalls s) (hidle : s.slave.duringCall = 0) (henter : enter h fakeroot s = .ok s') :
    (s'.slave.nextCall = some .okfsChdir ↔ s.slave.regs.origEax.toInt = CHDIR) ∧
      (s'.slave.nextCall = some .okfsFchdir ↔ s.slave.regs.origEax.toInt = FCHDIR) := by
  have hcalling : ((calling fakeroot s).slave.nextCall = some .okfsChdir ↔
        s.slave.regs.origEax.toInt = CHDIR) ∧
      ((calling fakeroot s).slave.nextCall = some .okfsFchdir ↔
        s.slave.regs.origEax.toInt = FCHDIR) := by
    unfold calling
    simp only
    split
    · rename_i hnr
      rw [hcalls.chdir, hcalls.fchdir, hidle]
      unfold CHDIR FCHDIR
      unfold NR_syscalls at hnr
      omega
    · rename_i hnr
      have hlt := enter_bounds henter hnr
      rw [(row_dir hlt).1, (row_dir hlt).2]
      unfold CHDIR FCHDIR
      omega
  by_cases hdir : s.slave.regs.origEax.toInt = CHDIR ∨ s.slave.regs.origEax.toInt = FCHDIR
  · rw [enter_dir hdir] at henter
    rw [dummyCall_next henter]
    exact hcalling
  · rw [not_or] at hdir
    rw [iff_false_right hdir.1, iff_false_right hdir.2]
    rcases (enter_cases hf (hcalls.scratch.idle hidle).1 hstack henter).next with hsame | hmem
    · rw [hsame, hcalling.1, hcalling.2]
      exact hdir
    · constructor
      · intro hno
        rw [hno] at hmem
        exact absurd hmem (by decide)
      · intro hno
        rw [hno] at hmem
        exact absurd hmem (by decide)

theorem enter_dirCalls (hf : Fetched s)
    (hstack : s.slave.hasStackArgs =
      (callTable fakeroot (argsRow s.slave.regs.origEax.toInt)).hasStackArgs)
    (hcalls : DirCalls s) (hidle : s.slave.duringCall = 0) (henter : enter h fakeroot s = .ok s') :
    DirCalls s' ∧ s'.slave.cwd = s.slave.cwd := by
  have hentered := enter_cases hf (hcalls.scratch.idle hidle).1 hstack henter
  have hduring : s'.slave.duringCall = s.slave.regs.origEax.toInt := hentered.duringCall
  refine ⟨⟨enter_scratch hf hstack hcalls.scratch hidle henter, ?_, ?_, ?_⟩, hentered.cwd⟩
  · rw [hduring]
    exact (enter_next_iff hf hstack hcalls hidle henter).1
  · rw [hduring]
    exact (enter_next_iff hf hstack hcalls hidle henter).2
  · rw [hduring]
    intro hnr
    rw [enter_dir hnr] at henter
    have hcalling := calling_fetched hf fakeroot
    refine ⟨dummyCall_origEax hcalling henter, ?_⟩
    exact (dummyCall_kept hcalling henter).restartCall.trans (hcalls.scratch.idle hidle).2

theorem Ran.cwd {after : After} (hf : Fetched s)
    (hother : after ≠ .okfsChdir ∧ after ≠ .okfsFchdir) (hran : Ran h after s s' child) :
    s'.slave.cwd = s.slave.cwd ∧ ∀ c, child = some c → c.slave.cwd = s.slave.cwd := by
  cases hran with
  | alone hafter halone hempty hchild =>
    refine ⟨(runAlone_kept hf hempty ?_ halone).cwd, by simp [hchild]⟩
    simp only [List.mem_append, List.mem_cons, List.not_mem_nil, or_false, not_or]
    exact ⟨hafter, hother⟩
  | twoPaths hkept hchild => exact ⟨hkept.cwd, by simp [hchild]⟩
  | okfsOpen hafter hopen hclean hchild =>
    exact ⟨(okfsAfterOkfsOpen_opened hopen).cwd, by simp [hchild]⟩
  | linuxOpen hopened hregs hclean hchild => exact ⟨hopened.cwd, by simp [hchild]⟩
  | fork hkept hempty hforked => exact ⟨hkept.cwd, fun c hc => (hforked c hc).cwd⟩

/-- The other handlers keep the directory, and a child gets it from its parent. -/
theorem leave_cwd (hf : Fetched s) (hscratch : Scratch s)
    (hother : s.slave.nextCall ≠ some .okfsChdir ∧ s.slave.nextCall ≠ some .okfsFchdir)
    (hs' : leave h s = .ok (s', child)) :
    s'.slave.cwd = s.slave.cwd ∧ ∀ c, child = some c → c.slave.cwd = s.slave.cwd := by
  obtain ⟨s₁, hcomplete, rfl⟩ := leave_spec hs'
  have hfetched := leaving_fetched hf
  have hleft : Left (leaving s) := hscratch.left
  rcases complete_cases hfetched hleft hcomplete with ⟨-, rfl, -, s₂, hkept, rfl⟩ |
    ⟨-, -, rfl, rfl⟩ | ⟨-, after, hnext, hran⟩
  · exact ⟨hkept.cwd, by simp⟩
  · exact ⟨rfl, by simp⟩
  · have hafter : after ≠ .okfsChdir ∧ after ≠ .okfsFchdir := by
      constructor
      · rintro rfl
        exact hother.1 hnext
      · rintro rfl
        exact hother.2 hnext
    have hcwd := hran.cwd hfetched hafter
    exact hcwd

-- ---------------------------------------------------------------------------
-- One stop
-- ---------------------------------------------------------------------------

/-- The condition on one stop. -/
def Knows (h : Host σ) (t : Tracee σ) : Prop :=
  t.slave.duringCall = FCHDIR →
    ∀ filep path, t.slave.tracked t.regs.ebx.toInt = some filep →
      h.garbageString t.world = some path →
      (h.namei t.world).arglstat path = .ok .dir → path = filep.path

/-- Where a stop leads, for the task and for a child that it has made. -/
def Right (h : Host σ) (t s' : Tracee σ) (child : Option (Tracee σ)) (dir : Option CStr) : Prop :=
  nextDir h t s' dir = some s'.slave.cwd ∧
    ∀ c, child = some c → nextDir h t s' dir = some c.slave.cwd

theorem nextDir_other {dir : Option CStr}
    (hother : t.slave.duringCall ≠ CHDIR ∧ t.slave.duringCall ≠ FCHDIR) :
    nextDir h t s' dir = dir := by
  simp only [nextDir, hother.1, hother.2, false_and, if_false]

theorem nextDir_failed {dir : Option CStr} (hfailed : s'.regs.eax ≠ 0) :
    nextDir h t s' dir = dir := by
  simp only [nextDir, hfailed, and_false, if_false]

theorem nextDir_fchdir {dir : Option CStr} (hcall : t.slave.duringCall = FCHDIR)
    (heax : s'.regs.eax = 0) : nextDir h t s' dir = recordedDir t := by
  have hcall' : t.slave.duringCall ≠ CHDIR := by
    rw [hcall]
    decide
  simp only [nextDir, hcall', if_false, heax, and_true, if_pos hcall]

theorem dummy_stack {arg : Args} (horig : t.regs.origEax = DUMMY_CALL_NR) :
    (fetched fakeroot arg t).slave.hasStackArgs = false := by
  rw [fetched, horig]
  cases fakeroot <;> rfl

theorem leaving_getstr (s : Tracee σ) (src : Word) :
    slaveGetstr h (leaving s) src = slaveGetstr h s src := by
  have hmem : (leaving s).mem = s.mem := rfl
  have hworld : (leaving s).world = s.world := rfl
  exact slaveGetstr_congr hmem hworld src

theorem fetched_getstr (t : Tracee σ) (arg : Args) (src : Word) :
    slaveGetstr h (fetched fakeroot arg t) src = slaveGetstr h t src := by
  have hmem : (fetched fakeroot arg t).mem = t.mem := rfl
  have hworld : (fetched fakeroot arg t).world = t.world := rfl
  exact slaveGetstr_congr hmem hworld src

theorem leave_chdir (hstack : s.slave.hasStackArgs = false) (hempty : s.slave.callfs = {})
    (hrestart : s.slave.restartCall = 0) (hnext : s.slave.nextCall = some .okfsChdir)
    (hleave : leave h s = .ok (s', child)) :
    child = none ∧ ((s'.regs.eax ≠ 0 ∧ s'.slave.cwd = s.slave.cwd) ∨
      (s'.regs.eax = 0 ∧ ∃ path, slaveGetstr h s s.slave.arg1 = .ok path ∧
        canonicalize h s path true = .ok (.ok s'.slave.cwd))) := by
  obtain ⟨rfl, s₁, halone, rfl⟩ := leave_alone hrestart hnext (by decide) hleave
  have hcases := okfsChdir_cases (by exact hstack) (by exact hempty) halone
  rw [leaving_getstr] at hcases
  exact ⟨rfl, hcases⟩

theorem leave_fchdir (hstack : s.slave.hasStackArgs = false) (hrestart : s.slave.restartCall = 0)
    (hnext : s.slave.nextCall = some .okfsFchdir) (hleave : leave h s = .ok (s', child)) :
    child = none ∧ ((s'.regs.eax ≠ 0 ∧ s'.slave.cwd = s.slave.cwd) ∨
      (s'.regs.eax = 0 ∧ ∃ filep path, s.slave.tracked s.slave.arg1.toInt = some filep ∧
        h.garbageString s.world = some path ∧ (h.namei s.world).arglstat path = .ok .dir ∧
        s'.slave.cwd = path)) := by
  obtain ⟨rfl, s₁, halone, rfl⟩ := leave_alone hrestart hnext (by decide) hleave
  have hcases := okfsFchdir_cases (by exact hstack) halone
  exact ⟨rfl, hcases⟩

theorem leave_fchdir_ok (hstack : s.slave.hasStackArgs = false) (hrestart : s.slave.restartCall = 0)
    (hnext : s.slave.nextCall = some .okfsFchdir) {filep : OkfsFile} {path : CStr}
    (htracked : s.slave.tracked s.slave.arg1.toInt = some filep)
    (hgarbage : h.garbageString s.world = some path)
    (hdir : (h.namei s.world).arglstat path = .ok .dir) :
    ∃ s', leave h s = .ok (s', none) ∧ s'.regs.eax = 0 ∧ s'.slave.cwd = path := by
  obtain ⟨s₁, halone, heax, hcwd⟩ := okfsFchdir_ok (s := leaving s) (by exact hstack)
    (by exact htracked) hgarbage hdir
  have halone' : After.okfsFchdir.runAlone h (leaving s) = .ok s₁ := halone
  exact ⟨_, leave_alone_ok hrestart hnext (by decide) halone', heax, hcwd⟩

theorem fetched_arg1 {arg : Args} (hf : Fetched (fetched fakeroot arg t))
    (hstack : (fetched fakeroot arg t).slave.hasStackArgs = false) : arg.arg1 = t.regs.ebx := by
  have hargs := hf.arg hstack
  simp only [Args.regs, UserRegs.args, List.cons.injEq] at hargs
  exact hargs.1

/-- Where a stop leaves the working directory of the task. -/
inductive Moves (h : Host σ) (t s' : Tracee σ) : Prop
  | stays (hcwd : s'.slave.cwd = t.slave.cwd)
      (heax : t.slave.duringCall = CHDIR ∨ t.slave.duringCall = FCHDIR → s'.regs.eax ≠ 0)
  | chdir (hcall : t.slave.duringCall = CHDIR) (heax : s'.regs.eax = 0) (path : CStr)
      (hgetstr : slaveGetstr h t t.regs.ebx = .ok path)
      (hcanon : canonicalize h t path true = .ok (.ok s'.slave.cwd))
  | fchdir (hcall : t.slave.duringCall = FCHDIR) (heax : s'.regs.eax = 0) (filep : OkfsFile)
      (htracked : t.slave.tracked t.regs.ebx.toInt = some filep)
      (hgarbage : h.garbageString t.world = some s'.slave.cwd)
      (hdir : (h.namei t.world).arglstat s'.slave.cwd = .ok .dir)

theorem chdir_moves (hcalls : DirCalls t) (hcall : t.slave.duringCall = CHDIR)
    (hs' : handleSyscall h fakeroot t = .ok (s', child)) : child = none ∧ Moves h t s' := by
  obtain ⟨arg, hf, hcases⟩ := handleSyscall_fetched hs'
  rcases hcases with ⟨hidle, -⟩ | ⟨-, hleave⟩
  · rw [hcall] at hidle
    exact absurd hidle (by decide)
  obtain ⟨horig, hrestart⟩ := hcalls.neutral (.inl hcall)
  have hstack : (fetched fakeroot arg t).slave.hasStackArgs = false := dummy_stack horig
  have hnext : t.slave.nextCall = some .okfsChdir := hcalls.chdir.mpr hcall
  have hempty : t.slave.callfs = {} := hcalls.scratch.left.empty (by rw [hnext]; decide)
  have hebx := fetched_arg1 hf hstack
  obtain ⟨rfl, hresult⟩ := leave_chdir hstack hempty hrestart hnext hleave
  refine ⟨rfl, ?_⟩
  rcases hresult with ⟨heax, hcwd⟩ | ⟨heax, path, hgetstr, hcanon⟩
  · exact .stays hcwd fun _ => heax
  · rw [fetched_getstr] at hgetstr
    refine .chdir hcall heax path ?_ hcanon
    rw [← hebx]
    exact hgetstr

theorem fchdir_moves (hcalls : DirCalls t) (hcall : t.slave.duringCall = FCHDIR)
    (hs' : handleSyscall h fakeroot t = .ok (s', child)) : child = none ∧ Moves h t s' := by
  obtain ⟨arg, hf, hcases⟩ := handleSyscall_fetched hs'
  rcases hcases with ⟨hidle, -⟩ | ⟨-, hleave⟩
  · rw [hcall] at hidle
    exact absurd hidle (by decide)
  obtain ⟨horig, hrestart⟩ := hcalls.neutral (.inr hcall)
  have hstack : (fetched fakeroot arg t).slave.hasStackArgs = false := dummy_stack horig
  have hnext : t.slave.nextCall = some .okfsFchdir := hcalls.fchdir.mpr hcall
  have hebx := fetched_arg1 hf hstack
  obtain ⟨rfl, hresult⟩ := leave_fchdir hstack hrestart hnext hleave
  refine ⟨rfl, ?_⟩
  rcases hresult with ⟨heax, hcwd⟩ | ⟨heax, filep, path, htracked, hgarbage, hdir, rfl⟩
  · exact .stays hcwd fun _ => heax
  · refine .fchdir hcall heax filep ?_ hgarbage hdir
    rw [← hebx]
    exact htracked

/-- No other call changes a directory, and a child begins in the one of its parent. -/
theorem handleSyscall_moves (hcalls : DirCalls t)
    (hs' : handleSyscall h fakeroot t = .ok (s', child)) :
    Moves h t s' ∧ ∀ c, child = some c → c.slave.cwd = s'.slave.cwd := by
  by_cases hchdir : t.slave.duringCall = CHDIR
  · obtain ⟨rfl, hmoves⟩ := chdir_moves hcalls hchdir hs'
    exact ⟨hmoves, by simp⟩
  by_cases hfchdir : t.slave.duringCall = FCHDIR
  · obtain ⟨rfl, hmoves⟩ := fchdir_moves hcalls hfchdir hs'
    exact ⟨hmoves, by simp⟩
  have hother : t.slave.duringCall = CHDIR ∨ t.slave.duringCall = FCHDIR → s'.regs.eax ≠ 0 :=
    fun hdir => absurd hdir (not_or.mpr ⟨hchdir, hfchdir⟩)
  obtain ⟨s₁, hfetch, hcases⟩ := handleSyscall_cases hs'
  obtain ⟨hf, arg, rfl⟩ := fetch_spec hfetch
  rcases hcases with ⟨hidle, henter, rfl⟩ | ⟨-, hleave⟩
  · exact ⟨.stays (enter_cases hf (hcalls.scratch.idle hidle).1 rfl henter).cwd hother, by simp⟩
  · have hnext : t.slave.nextCall ≠ some .okfsChdir ∧ t.slave.nextCall ≠ some .okfsFchdir :=
      ⟨fun hno => hchdir (hcalls.chdir.mp hno), fun hno => hfchdir (hcalls.fchdir.mp hno)⟩
    obtain ⟨hcwd, hchild⟩ := leave_cwd hf (fetched_scratch hcalls.scratch arg) hnext hleave
    exact ⟨.stays hcwd hother, fun c hc => (hchild c hc).trans hcwd.symm⟩

/-- By what the calls say, `chdir` enters the directory that it names. -/
theorem nextDir_chdir {path : CStr} (hcall : t.slave.duringCall = CHDIR) (heax : s'.regs.eax = 0)
    (hgetstr : slaveGetstr h t t.regs.ebx = .ok path)
    (hcanon : canonicalize h t path true = .ok (.ok s'.slave.cwd)) :
    nextDir h t s' (some t.slave.cwd) = some s'.slave.cwd := by
  simp only [nextDir, hcall, heax, and_self, if_true, Option.bind_some, namedDir, hgetstr]
  unfold canonicalize at hcanon
  split at hcanon
  · rename_i r hreturned
    rw [hreturned, Except.ok.inj hcanon]
  · exact absurd hcanon (by simp)
  · exact absurd hcanon (by simp)

theorem Moves.right (hmoves : Moves h t s') (hknows : Knows h t) :
    nextDir h t s' (some t.slave.cwd) = some s'.slave.cwd := by
  cases hmoves with
  | stays hcwd heax =>
    rw [hcwd]
    by_cases hdir : t.slave.duringCall = CHDIR ∨ t.slave.duringCall = FCHDIR
    · exact nextDir_failed (heax hdir)
    · exact nextDir_other (not_or.mp hdir)
  | chdir hcall heax path hgetstr hcanon => exact nextDir_chdir hcall heax hgetstr hcanon
  | fchdir hcall heax filep htracked hgarbage hdir =>
    rw [nextDir_fchdir hcall heax, recordedDir, htracked, Option.map_some,
      hknows hcall filep _ htracked hgarbage hdir]

theorem fetch_dummy (fakeroot : Bool) (horig : t.regs.origEax = DUMMY_CALL_NR) :
    ∃ arg, fetch fakeroot t = .ok (fetched fakeroot arg t) ∧ arg.arg1 = t.regs.ebx := by
  have hrow : (callTable fakeroot (argsRow t.regs.origEax.toInt)).hasStackArgs = false := by
    rw [horig]
    cases fakeroot <;> rfl
  refine ⟨⟨t.regs.ebx, t.regs.ecx, t.regs.edx, t.regs.esi, t.regs.edi, t.slave.arg.arg6⟩, ?_, rfl⟩
  simp only [fetch, getSlaveArgs, hrow, if_true, fetched]
  rfl

/-- Where the variable leads to a directory, that is where the task goes. -/
theorem fchdir_goes (fakeroot : Bool) (hcalls : DirCalls t) (hcall : t.slave.duringCall = FCHDIR)
    {filep : OkfsFile} {path : CStr} (htracked : t.slave.tracked t.regs.ebx.toInt = some filep)
    (hgarbage : h.garbageString t.world = some path)
    (hdir : (h.namei t.world).arglstat path = .ok .dir) :
    ∃ s', handleSyscall h fakeroot t = .ok (s', none) ∧ s'.regs.eax = 0 ∧ s'.slave.cwd = path := by
  obtain ⟨horig, hrestart⟩ := hcalls.neutral (.inr hcall)
  obtain ⟨arg, hfetch, hebx⟩ := fetch_dummy fakeroot horig
  have hstack : (fetched fakeroot arg t).slave.hasStackArgs = false := dummy_stack horig
  have hnext : t.slave.nextCall = some .okfsFchdir := hcalls.fchdir.mpr hcall
  have htracked' : (fetched fakeroot arg t).slave.tracked (fetched fakeroot arg t).slave.arg1.toInt =
      some filep := by
    rw [← htracked, ← hebx]
    rfl
  obtain ⟨s', hleave, heax, hcwd⟩ := leave_fchdir_ok hstack hrestart hnext htracked' hgarbage hdir
  refine ⟨s', bind_ok.mpr ⟨_, hfetch, ?_⟩, heax, hcwd⟩
  have hbusy : (fetched fakeroot arg t).slave.duringCall ≠ 0 := by
    rw [fetched, hcall]
    decide
  rw [if_neg hbusy]
  exact hleave

/-- A stop leads where the calls say if and only if `fchdir` knows its path. -/
theorem right_iff_knows (fakeroot : Bool) (hcalls : DirCalls t) :
    (∀ s' child, handleSyscall h fakeroot t = .ok (s', child) →
      Right h t s' child (some t.slave.cwd)) ↔ Knows h t := by
  constructor
  · intro hright hcall filep path htracked hgarbage hdir
    obtain ⟨s', hs', heax, hcwd⟩ := fchdir_goes fakeroot hcalls hcall htracked hgarbage hdir
    have hnext := (hright s' none hs').1
    rw [nextDir_fchdir hcall heax, recordedDir, htracked, Option.map_some, hcwd] at hnext
    exact (Option.some.inj hnext).symm
  · intro hknows s' child hs'
    obtain ⟨hmoves, hchild⟩ := handleSyscall_moves hcalls hs'
    have hright := hmoves.right hknows
    exact ⟨hright, fun c hc => (hchild c hc).symm ▸ hright⟩

/-- What is due in the two calls is so after every stop, and for a child. -/
theorem handleSyscall_dirCalls (hcalls : DirCalls t)
    (hs' : handleSyscall h fakeroot t = .ok (s', child)) :
    DirCalls s' ∧ ∀ c, child = some c → DirCalls c := by
  obtain ⟨hready, hchild⟩ := handleSyscall_ready hcalls.scratch hs'
  refine ⟨?_, fun c hc => (hchild c hc).dirCalls⟩
  obtain ⟨arg, hf, hcases⟩ := handleSyscall_fetched hs'
  rcases hcases with ⟨hidle, henter⟩ | ⟨hcall, hleave⟩
  · have hcalls' : DirCalls (fetched fakeroot arg t) :=
      ⟨fetched_scratch hcalls.scratch arg, hcalls.chdir, hcalls.fchdir, hcalls.neutral⟩
    exact (enter_dirCalls hf rfl hcalls' hidle henter).1
  · exact (hready (leave_idle hf (fetched_scratch hcalls.scratch arg) hleave)).dirCalls

-- ---------------------------------------------------------------------------
-- Every run
-- ---------------------------------------------------------------------------

/-- All tasks are where their calls have put them. -/
structure Placed (p : Proc σ) : Prop where
  calls : DirCalls p.tracee
  dir : p.dir = some p.tracee.slave.cwd

def AllPlaced (ps : List (Proc σ)) : Prop := ∀ p ∈ ps, Placed p

theorem dirStep_some {ps ps' : List (Proc σ)} {i : Stop σ}
    (hstep : dirStep h fakeroot ps i = some ps') :
    ∃ p s' child, ps[i.task]? = some p ∧ handleSyscall h fakeroot i.tracee = .ok (s', child) ∧
      ps' = ps.set i.task ⟨s', nextDir h i.tracee s' p.dir⟩ ++
        child.toList.map fun c => ⟨c, nextDir h i.tracee s' p.dir⟩ := by
  unfold dirStep at hstep
  split at hstep
  · rename_i p s' child hp hs'
    exact ⟨p, s', child, hp, hs', (Option.some.inj hstep).symm⟩
  · exact absurd hstep (by simp)

theorem allPlaced_step {ps ps' : List (Proc σ)} {i : Stop σ} (hplaced : AllPlaced ps)
    (hfree : Undisturbed ps i) (hright : DirsRight h fakeroot ps i)
    (hstep : dirStep h fakeroot ps i = some ps') : AllPlaced ps' := by
  intro q hq
  refine ⟨?_, hright ps' hstep q hq⟩
  obtain ⟨p, s', child, hp, hs', rfl⟩ := dirStep_some hstep
  have hcalls := (hplaced p (List.mem_of_getElem? hp)).calls.between (hfree p hp)
  obtain ⟨hparent, hchild⟩ := handleSyscall_dirCalls hcalls hs'
  rcases List.mem_append.mp hq with hold | hnew
  · rcases List.mem_or_eq_of_mem_set hold with hother | rfl
    · exact (hplaced q hother).calls
    · exact hparent
  · obtain ⟨c, hc, rfl⟩ := List.mem_map.mp hnew
    exact hchild c (Option.mem_toList.mp hc)

theorem dirsRight_iff {ps : List (Proc σ)} {i : Stop σ} (hplaced : AllPlaced ps)
    (hfree : Undisturbed ps i) : DirsRight h fakeroot ps i ↔ FchdirKnows h ps i := by
  cases hp : ps[i.task]? with
  | none =>
    constructor
    · intro _ hsome
      rw [hp] at hsome
      exact absurd hsome (by simp)
    · intro _ ps' hstep
      obtain ⟨p, s', child, hp', -⟩ := dirStep_some hstep
      rw [hp] at hp'
      exact absurd hp' (by simp)
  | some p =>
    have hplace := hplaced p (List.mem_of_getElem? hp)
    have hbetween := hfree p hp
    have hcwd : p.dir = some i.tracee.slave.cwd := by
      rw [hbetween.cwd]
      exact hplace.dir
    have hiff := right_iff_knows (h := h) fakeroot (hplace.calls.between hbetween)
    have hknows : FchdirKnows h ps i ↔ Knows h i.tracee := by
      unfold FchdirKnows Knows
      rw [hp]
      simp
    rw [hknows, ← hiff]
    constructor
    · intro hright s' child hs'
      have hstep : dirStep h fakeroot ps i = some (ps.set i.task ⟨s', nextDir h i.tracee s' p.dir⟩ ++
          child.toList.map fun c => ⟨c, nextDir h i.tracee s' p.dir⟩) := by
        simp only [dirStep, hp, hs']
      rw [← hcwd]
      constructor
      · have hmem : (⟨s', nextDir h i.tracee s' p.dir⟩ : Proc σ) ∈
            ps.set i.task ⟨s', nextDir h i.tracee s' p.dir⟩ :=
          List.mem_set (List.getElem?_eq_some_iff.mp hp).1 _
        exact hright _ hstep _ (List.mem_append_left _ hmem)
      · rintro c rfl
        have hmem : (⟨c, nextDir h i.tracee s' p.dir⟩ : Proc σ) ∈
            (some c).toList.map fun c => ⟨c, nextDir h i.tracee s' p.dir⟩ :=
          List.mem_map.mpr ⟨c, Option.mem_toList.mpr rfl, rfl⟩
        exact hright _ hstep _ (List.mem_append_right _ hmem)
    · intro hright ps' hstep q hq
      obtain ⟨p', s', child, hp', hs', rfl⟩ := dirStep_some hstep
      obtain rfl := Option.some.inj (hp.symm.trans hp')
      obtain ⟨hparent, hchild⟩ := hright s' child hs'
      rw [← hcwd] at hparent hchild
      rcases List.mem_append.mp hq with hold | hnew
      · rcases List.mem_or_eq_of_mem_set hold with hother | rfl
        · exact (hplaced q hother).dir
        · exact hparent
      · obtain ⟨c, hc, rfl⟩ := List.mem_map.mp hnew
        exact hchild c (Option.mem_toList.mp hc)

/-- In every run of tasks that descend from the first one, all of them are always where their
calls have put them if and only if every `fchdir` that succeeds knows its path. -/
theorem dirs_right_iff (hfresh : Fresh s) {is : List (Stop σ)}
    (hfree : Runs.Along (dirStep h fakeroot) Undisturbed [⟨s, some s.slave.cwd⟩] is) :
    Runs.Along (dirStep h fakeroot) (DirsRight h fakeroot) [⟨s, some s.slave.cwd⟩] is ↔
      Runs.Along (dirStep h fakeroot) (FchdirKnows h) [⟨s, some s.slave.cwd⟩] is := by
  refine Runs.Along.congr (I := AllPlaced) (fun ps i ps' hplaced hfree hright hstep => ?_)
    (fun ps i hplaced hfree => dirsRight_iff hplaced hfree) ?_ hfree
  · exact allPlaced_step hplaced hfree hright hstep
  · intro p hp
    obtain rfl := List.mem_singleton.mp hp
    have hready : Ready s := ⟨hfresh.scratch, hfresh.duringCall, hfresh.nextCall⟩
    exact ⟨hready.dirCalls, rfl⟩

-- ---------------------------------------------------------------------------
-- A stray pointer
-- ---------------------------------------------------------------------------

/-- What a stop makes of a task. -/
def handled (h : Host Unit) (t : Tracee Unit) : Tracee Unit :=
  match handleSyscall h false t with
  | .ok (s, _) => s
  | .error _ => t

/-- The variable that is not set leads to this path. -/
def strayHost (path : CStr) : Host Unit := { bareHost with garbageString := fun _ => some path }

-- `open("/d", O_RDONLY)`, which returns 3, `fchdir(3)`, and a fork.

def openEntry : Tracee Unit :=
  { bareTracee (callRegs 5 4096 0 0) with
    mem := ⟨fun a => stringBytes (ascii "/d") (a - 4096), fun _ => true, fun _ => true⟩ }

def openExit (path : CStr) : Tracee Unit :=
  { handled (strayHost path) openEntry with regs := { callRegs 5 4096 0 0 with eax := 3 } }

def fchdirEntry (path : CStr) : Tracee Unit :=
  { handled (strayHost path) (openExit path) with regs := callRegs 133 3 0 0 }

def fchdirExit (path : CStr) : Tracee Unit := handled (strayHost path) (fchdirEntry path)

def forkEntry (path : CStr) : Tracee Unit :=
  { handled (strayHost path) (fchdirExit path) with regs := callRegs 2 0 0 0 }

def forkExit (path : CStr) : Tracee Unit :=
  { handled (strayHost path) (forkEntry path) with regs := { callRegs 2 0 0 0 with eax := 101 } }

variable {path : CStr}

theorem openEntry_step (hpath : path = ascii "/d" ∨ path = ascii "/g") :
    dirStep (strayHost path) false [⟨openEntry, some [slash]⟩] ⟨0, openEntry⟩ =
      some [⟨handled (strayHost path) openEntry, some [slash]⟩] := by
  rcases hpath with rfl | rfl <;> rfl

theorem openExit_step (hpath : path = ascii "/d" ∨ path = ascii "/g") :
    dirStep (strayHost path) false [⟨handled (strayHost path) openEntry, some [slash]⟩]
        ⟨0, openExit path⟩ =
      some [⟨handled (strayHost path) (openExit path), some [slash]⟩] := by
  rcases hpath with rfl | rfl <;> rfl

theorem fchdirEntry_step (hpath : path = ascii "/d" ∨ path = ascii "/g") :
    dirStep (strayHost path) false [⟨handled (strayHost path) (openExit path), some [slash]⟩]
        ⟨0, fchdirEntry path⟩ =
      some [⟨handled (strayHost path) (fchdirEntry path), some [slash]⟩] := by
  rcases hpath with rfl | rfl <;> rfl

theorem fchdirExit_step (hpath : path = ascii "/d" ∨ path = ascii "/g") :
    dirStep (strayHost path) false [⟨handled (strayHost path) (fchdirEntry path), some [slash]⟩]
        ⟨0, fchdirExit path⟩ =
      some [⟨handled (strayHost path) (fchdirExit path), some (ascii "/d")⟩] := by
  rcases hpath with rfl | rfl <;> rfl

theorem forkEntry_step (hpath : path = ascii "/d" ∨ path = ascii "/g") :
    dirStep (strayHost path) false [⟨handled (strayHost path) (fchdirExit path), some (ascii "/d")⟩]
        ⟨0, forkEntry path⟩ =
      some [⟨handled (strayHost path) (forkEntry path), some (ascii "/d")⟩] := by
  rcases hpath with rfl | rfl <;> rfl

theorem undisturbed_one {t : Tracee Unit} {dir : Option CStr} {s : Tracee Unit}
    (hbetween : Between s t) : Undisturbed [⟨s, dir⟩] ⟨0, t⟩ := by
  intro p hp
  obtain rfl := Option.some.inj hp
  exact hbetween

theorem fchdir_undisturbed (hpath : path = ascii "/d" ∨ path = ascii "/g") :
    Runs.Along (dirStep (strayHost path) false) Undisturbed [⟨openEntry, some [slash]⟩]
      [⟨0, openEntry⟩, ⟨0, openExit path⟩, ⟨0, fchdirEntry path⟩, ⟨0, fchdirExit path⟩,
        ⟨0, forkEntry path⟩, ⟨0, forkExit path⟩] := by
  have hopen : Between openEntry openEntry :=
    ⟨⟨rfl, rfl, rfl, rfl, rfl⟩, rfl, rfl, fun hcall => absurd rfl hcall⟩
  have hopened : Between (handled (strayHost path) openEntry) (openExit path) := by
    rcases hpath with rfl | rfl <;>
      exact ⟨⟨rfl, rfl, rfl, rfl, rfl⟩, rfl, rfl, fun _ _ => rfl⟩
  have hfchdir : Between (handled (strayHost path) (openExit path)) (fchdirEntry path) := by
    rcases hpath with rfl | rfl <;>
      exact ⟨⟨rfl, rfl, rfl, rfl, rfl⟩, rfl, rfl, fun hcall => absurd rfl hcall⟩
  have hentered : Between (handled (strayHost path) (fchdirEntry path)) (fchdirExit path) := by
    rcases hpath with rfl | rfl <;>
      exact ⟨⟨rfl, rfl, rfl, rfl, rfl⟩, rfl, rfl, fun _ _ => rfl⟩
  have hfork : Between (handled (strayHost path) (fchdirExit path)) (forkEntry path) := by
    rcases hpath with rfl | rfl <;>
      exact ⟨⟨rfl, rfl, rfl, rfl, rfl⟩, rfl, rfl, fun hcall => absurd rfl hcall⟩
  have hforked : Between (handled (strayHost path) (forkEntry path)) (forkExit path) := by
    rcases hpath with rfl | rfl <;>
      exact ⟨⟨rfl, rfl, rfl, rfl, rfl⟩, rfl, rfl, fun _ _ => rfl⟩
  exact .cons (undisturbed_one hopen) (openEntry_step hpath)
    (.cons (undisturbed_one hopened) (openExit_step hpath)
      (.cons (undisturbed_one hfchdir) (fchdirEntry_step hpath)
        (.cons (undisturbed_one hentered) (fchdirExit_step hpath)
          (.cons (undisturbed_one hfork) (forkEntry_step hpath)
            ⟨undisturbed_one hforked, fun _ _ => trivial⟩))))

/-- The variable happens to lead to the directory that was opened; a child begins in it. -/
theorem dirs_right_fchdir :
    Runs.Along (dirStep (strayHost (ascii "/d")) false) (DirsRight (strayHost (ascii "/d")) false)
      [⟨openEntry, some [slash]⟩]
      [⟨0, openEntry⟩, ⟨0, openExit (ascii "/d")⟩, ⟨0, fchdirEntry (ascii "/d")⟩,
        ⟨0, fchdirExit (ascii "/d")⟩, ⟨0, forkEntry (ascii "/d")⟩, ⟨0, forkExit (ascii "/d")⟩] := by
  refine (dirs_right_iff ⟨rfl, rfl, rfl, rfl, rfl⟩ (fchdir_undisturbed (.inl rfl))).mpr ?_
  refine .cons (fun _ hcall => ?_) (openEntry_step (.inl rfl)) (.cons (fun _ hcall => ?_) (openExit_step (.inl rfl))
    (.cons (fun _ hcall => ?_) (fchdirEntry_step (.inl rfl))
      (.cons (fun _ _ filep path hfile hpath _ => ?_) (fchdirExit_step (.inl rfl))
        (.cons (fun _ hcall => ?_) (forkEntry_step (.inl rfl)) ⟨fun _ hcall => ?_, fun _ _ => trivial⟩))))
  · exact absurd hcall (by decide)
  · exact absurd hcall (by decide)
  · exact absurd hcall (by decide)
  · obtain rfl := Option.some.inj hpath
    obtain rfl := Option.some.inj hfile
    rfl
  · exact absurd hcall (by decide)
  · exact absurd hcall (by decide)

/-- It leads elsewhere: `fchdir` succeeds, and the task is in the other directory. -/
theorem not_dirs_right :
    ¬ ∀ (h : Host Unit) (s : Tracee Unit) (is : List (Stop Unit)), Fresh s →
      Runs.Along (dirStep h false) Undisturbed [⟨s, some s.slave.cwd⟩] is →
      Runs.Along (dirStep h false) (DirsRight h false) [⟨s, some s.slave.cwd⟩] is := by
  intro hright
  have hrun := hright (strayHost (ascii "/g")) openEntry _ ⟨rfl, rfl, rfl, rfl, rfl⟩
    (fchdir_undisturbed (.inr rfl))
  have hlast := (((hrun.2 _ (openEntry_step (.inr rfl))).2 _ (openExit_step (.inr rfl))).2 _
    (fchdirEntry_step (.inr rfl))).1
  have hdir := hlast _ (fchdirExit_step (.inr rfl)) _ (List.mem_singleton.mpr rfl)
  exact absurd hdir (by decide +kernel)

end Syscall

end Okfs
