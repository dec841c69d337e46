import Okfs.Task.Directory
import Okfs.Task.TraceeMemory
import Okfs.Vfs.NameiLaws

/-!
# OKFS — the paths that reach Linux

The kernel starts a relative path in its own working directory of the task, which is not the
one in the record once `chdir` has been called. Of the calls with paths most are not executed
by the kernel; `open` and `creat` get the canonical path; and some rows of the table let the
path through as it is.

Here files are compared by their names: what a path names in a directory, and what `canonical`
makes of it. A root directory other than that of OKFS and the addresses of sockets are not
looked at.
-/

namespace Okfs

namespace Syscall

open ByteMemory Memacc

variable {σ : Type} {h : Host σ} {fakeroot : Bool} {s s' t : Tracee σ} {child : Option (Tracee σ)}

-- ---------------------------------------------------------------------------
-- The calls with paths
-- ---------------------------------------------------------------------------

/-- A register in which a call has the address of a path. -/
inductive PathArg
  | ebx | ecx
  deriving DecidableEq, Repr

def PathArg.reg : PathArg → UserRegs → Word
  | .ebx, r => r.ebx
  | .ecx, r => r.ecx

/-- The arguments of a call of Linux that are paths, by its number. -/
def pathArgs : Nat → List PathArg
  | 9 => [.ebx, .ecx] -- link
  | 21 => [.ebx, .ecx] -- mount
  | 38 => [.ebx, .ecx] -- rename
  | 217 => [.ebx, .ecx] -- pivot_root
  | 83 => [.ecx] -- symlink; its first argument is a text
  | 131 => [.ecx] -- quotactl
  -- open, creat, unlink, execve, chdir, mknod, chmod, lchown, oldstat, umount, utime, access
  | 5 | 8 | 10 | 11 | 12 | 14 | 15 | 16 | 18 | 22 | 30 | 33
  -- mkdir, rmdir, acct, umount2, chroot, oldlstat, readlink, uselib, swapon, truncate, statfs
  | 39 | 40 | 51 | 52 | 61 | 84 | 85 | 86 | 87 | 92 | 99
  -- stat, lstat, swapoff, chown, truncate64, stat64, lstat64, lchown32, chown32
  | 106 | 107 | 115 | 182 | 193 | 195 | 196 | 198 | 212
  -- setxattr and lsetxattr, and what else there is of them; statfs64, utimes
  | 226 | 227 | 229 | 230 | 232 | 233 | 235 | 236 | 268 | 271 => [.ebx]
  | _ => []

/-- The rows that let a path through as it is: `execve`, `mount`, `umount`, `umount2`, `chroot`,
`uselib`, `swapon`, `swapoff`, `quotactl`, `pivot_root`, `statfs64` and `utimes`. -/
def letThrough : List Nat := [11, 21, 22, 52, 61, 86, 87, 115, 131, 217, 268, 271]

/-- The other handlers of calls with paths have the kernel execute something else, or change
the path. -/
def replacing : List Before := [.dummyCall, .unimplementedCall, .notSupported, .okfsBeforeLnkRnm]

theorem row_opening : ∀ fakeroot, ∀ nr < NR_syscalls,
    (callTable fakeroot nr).callBefore ∈ [some .okfsBeforeOpen, some .okfsBeforeCreat] →
      pathArgs nr = [.ebx] ∧ (callTable fakeroot nr).hasStackArgs = false := by
  decide +kernel

theorem row_letThrough : ∀ fakeroot, ∀ nr ∈ letThrough,
    (callTable fakeroot nr).callBefore ∈ [none, some .beforeExecve] ∧
      (callTable fakeroot nr).hasStackArgs = false := by
  decide +kernel

theorem row_path : ∀ fakeroot, ∀ nr < NR_syscalls, pathArgs nr ≠ [] →
    nr ∈ letThrough ∨ (callTable fakeroot nr).callBefore ∈
      some .okfsBeforeOpen :: some .okfsBeforeCreat :: replacing.map some := by
  decide +kernel

-- ---------------------------------------------------------------------------
-- The number of the call that the kernel executes
-- ---------------------------------------------------------------------------

theorem setSlaveArgs_number (hs' : setSlaveArgs s = .ok s') :
    s'.regs.origEax = s.slave.regs.origEax := by
  unfold setSlaveArgs at hs'
  split at hs'
  · obtain ⟨mem, -, hlast⟩ := bind_ok.mp hs'
    obtain rfl := Except.ok.inj hlast
    rfl
  · obtain rfl := Except.ok.inj hs'
    rfl

theorem dummyCall_number (hs' : dummyCall s = .ok s') : s'.regs.origEax = DUMMY_CALL_NR := by
  have hnumber := setSlaveArgs_number hs'
  exact hnumber

theorem forceCallReturn_number {retval : Int} (hs' : forceCallReturn s retval = .ok s') :
    s'.regs.origEax = DUMMY_CALL_NR := by
  have hnumber := dummyCall_number hs'
  exact hnumber

theorem okfsBeforeLnkRnm_number (hs' : okfsBeforeLnkRnm h s = .ok s') :
    s'.regs.origEax = DUMMY_CALL_NR := by
  obtain ⟨⟨r₁, s₁⟩, -, hrest⟩ := bind_ok.mp hs'
  simp only at hrest
  split at hrest
  · obtain ⟨s₂, hforce, hlast⟩ := bind_ok.mp hrest
    obtain rfl := Except.ok.inj hlast
    have hnumber := forceCallReturn_number hforce
    exact hnumber
  · obtain ⟨⟨r₂, s₂⟩, -, hrest⟩ := bind_ok.mp hrest
    simp only at hrest
    split at hrest
    · obtain ⟨s₃, hforce, hlast⟩ := bind_ok.mp hrest
      obtain rfl := Except.ok.inj hlast
      have hnumber := forceCallReturn_number hforce
      exact hnumber
    · split at hrest
      · exact dummyCall_number hrest
      · exact forceCallReturn_number hrest

/-- What calls are replaced by. -/
def substitutes : List Word := [DUMMY_CALL_NR, PAUSE_NR, NR_OPEN]

/-- The kernel executes the call, or a substitute. -/
def Numbered (s s' : Tracee σ) : Prop :=
  s'.regs.origEax = s.regs.origEax ∨ s'.regs.origEax ∈ substitutes

theorem numbered_dummy (hnumber : s'.regs.origEax = DUMMY_CALL_NR) : Numbered s s' := by
  right
  rw [hnumber]
  decide

theorem beforeWait_number (hsame : s.slave.regs.origEax = s.regs.origEax)
    (hs' : beforeWait h s = .ok s') : Numbered s s' := by
  unfold beforeWait at hs'
  simp only at hs'
  split at hs'
  · obtain rfl := Except.ok.inj hs'
    exact .inl rfl
  · split at hs'
    · have hnumber := setSlaveArgs_number hs'
      exact .inl (hnumber.trans hsame)
    · obtain rfl := Except.ok.inj hs'
      exact .inl rfl
    · obtain rfl := Except.ok.inj hs'
      exact .inl rfl
    · split at hs'
      · obtain rfl := Except.ok.inj hs'
        exact .inl rfl
      · obtain rfl := Except.ok.inj hs'
        exact .inr (by simp [suspend, Tracee.setregs, substitutes])

theorem beforeFork_number (hs' : beforeFork h s = .ok s') : Numbered s s' := by
  obtain ⟨mem, rplCode, rplDest, rfl⟩ := slaveRplMem_spec hs'
  exact .inl rfl

theorem okfsBeforeMmap_number (hs' : okfsBeforeMmap s = .ok s') : Numbered s s' := by
  unfold okfsBeforeMmap at hs'
  simp only at hs'
  split at hs'
  · obtain rfl := Except.ok.inj hs'
    exact .inl rfl
  split at hs'
  · obtain rfl := Except.ok.inj hs'
    exact .inl rfl
  obtain ⟨filep, -, hrest⟩ := bind_ok.mp hs'
  split at hrest
  · obtain rfl := Except.ok.inj hrest
    exact .inl rfl
  · exact numbered_dummy (forceCallReturn_number hrest)

theorem okfsBeforeFcntl_number (hs' : okfsBeforeFcntl s = .ok s') : Numbered s s' := by
  unfold okfsBeforeFcntl at hs'
  simp only at hs'
  split at hs'
  · obtain rfl := Except.ok.inj hs'
    exact .inl rfl
  split at hs'
  · obtain rfl := Except.ok.inj hs'
    exact .inl rfl
  split at hs'
  · exact numbered_dummy (forceCallReturn_number hs')
  split at hs'
  · exact numbered_dummy (forceCallReturn_number hs')
  · obtain rfl := Except.ok.inj hs'
    exact .inl rfl

theorem okfsFdCall_number (hs' : okfsFdCall s = .ok s') : Numbered s s' := by
  unfold okfsFdCall at hs'
  split at hs'
  · exact numbered_dummy (dummyCall_number hs')
  · obtain rfl := Except.ok.inj hs'
    exact .inl rfl

theorem okfsOpOnFd_number (hs' : okfsOpOnFd s = .ok s') : Numbered s s' := by
  unfold okfsOpOnFd at hs'
  split at hs'
  · obtain rfl := Except.ok.inj hs'
    exact .inl rfl
  · obtain rfl := Except.ok.inj hs'
    exact .inl rfl

theorem okfsOnlyOs_number (hs' : okfsOnlyOs s = .ok s') : Numbered s s' := by
  unfold okfsOnlyOs at hs'
  split at hs'
  · exact numbered_dummy (forceCallReturn_number hs')
  · obtain rfl := Except.ok.inj hs'
    exact .inl rfl

theorem beforeClone_number (hs' : beforeClone h s = .ok s') : Numbered s s' := by
  unfold beforeClone at hs'
  split at hs'
  · exact numbered_dummy (forceCallReturn_number hs')
  · obtain ⟨s₁, hfork, hlast⟩ := bind_ok.mp hs'
    obtain rfl := Except.ok.inj hlast
    have hnumber := beforeFork_number hfork
    exact hnumber

theorem failOpening_number {ret : Int} (hs' : failOpening ret s = .ok s') :
    s'.regs.origEax = DUMMY_CALL_NR := by
  obtain ⟨s₁, hforce, hlast⟩ := bind_ok.mp hs'
  obtain rfl := Except.ok.inj hlast
  have hnumber := forceCallReturn_number hforce
  exact hnumber

theorem openTmpf_number {ret : Int} {callNr : Word → Word} (hs' : openTmpf h ret callNr s = .ok s') :
    s'.regs.origEax = callNr s.slave.regs.origEax ∧
      s'.slave.nextCall = some .okfsAfterOkfsOpen := by
  obtain ⟨s₁, hrpl, hset⟩ := bind_ok.mp hs'
  obtain ⟨mem, rplCode, rplDest, rfl⟩ := slaveRplKnownStr_spec hrpl
  have hnumber := setSlaveArgs_number hset
  have hnext := setSlaveArgs_next hset
  exact ⟨hnumber, hnext⟩

theorem slaveRplKnownStr_mem {dest : Word} {newstring origString : CStr}
    (hs' : slaveRplKnownStr h s dest newstring origString = .ok s') :
    s'.regs = s.regs ∧
      s.mem.set dest.toNat (stringBytes newstring) (newstring.length + 1) = .ok s'.mem := by
  unfold slaveRplKnownStr at hs'
  split at hs'
  · exact absurd hs' (by simp)
  · obtain ⟨-, -, hrest⟩ := bind_ok.mp hs'
    obtain ⟨code, -, hrest⟩ := bind_ok.mp hrest
    obtain ⟨s₁, hset, hlast⟩ := bind_ok.mp hrest
    obtain rfl := Except.ok.inj hlast
    obtain ⟨mem, hmem, hlast⟩ := bind_ok.mp hset
    obtain rfl := Except.ok.inj hlast
    exact ⟨rfl, hmem⟩

/-- The path at the address has been replaced by its canonical form. -/
structure Replaced (h : Host σ) (s : Tracee σ) (address : Word) (s' : Tracee σ) : Prop where
  regs : s'.regs = s.regs
  canon : ∃ path canon, slaveGetstr h s address = .ok path ∧
    canonicalize h s path true = .ok (.ok canon) ∧
    s.mem.set address.toNat (stringBytes canon) (canon.length + 1) = .ok s'.mem

/-- A file that is opened: the open fails, the kernel opens the temporary file, or it gets the
canonical path. -/
theorem beforeOpening_path {flags : Word} {mode : Int} {callNr : Word → Word}
    (hempty : s.slave.callfs = {}) (hs' : beforeOpening h flags mode callNr s = .ok s') :
    s'.regs.origEax = DUMMY_CALL_NR ∨
      (s'.regs.origEax = callNr s.slave.regs.origEax ∧
        s'.slave.nextCall = some .okfsAfterOkfsOpen) ∨
      Replaced h s s.slave.arg1 s' := by
  obtain ⟨⟨r, s₁⟩, hproc, hrest⟩ := bind_ok.mp hs'
  have hresult := procPath1_cases hempty hproc
  obtain ⟨callfs, rfl, -⟩ := procPath1_spec (by rw [hempty]; rfl) hproc
  simp only at hrest
  split at hrest
  · exact .inl (failOpening_number hrest)
  rcases hresult with ⟨e, hno, -⟩ | ⟨-, -, path, canon, hgetstr, hcanon, -, hsome, -⟩
  · cases hno
  split at hrest
  · rename_i fsp _
    obtain ⟨world, hworld⟩ :=
      okfsDoOpen_spec h { s with slave := { s.slave with callfs } } fsp flags mode
    rw [hworld] at hrest
    split at hrest
    · exact .inl (failOpening_number hrest)
    · have htmpf := openTmpf_number hrest
      exact .inr (.inl htmpf)
  · obtain ⟨s₂, hrpl, hlast⟩ := bind_ok.mp hrest
    obtain rfl := Except.ok.inj hlast
    obtain ⟨hregs, hmem⟩ := slaveRplKnownStr_mem hrpl
    have hsome : callfs.canonPath1 = some canon := hsome
    simp only [hsome, Option.getD_some] at hmem
    exact .inr (.inr ⟨hregs, path, canon, hgetstr, hcanon, hmem⟩)

/-- The handlers of `open` and `creat`. -/
theorem opening_path {before : Before} (hempty : s.slave.callfs = {})
    (hopening : before ∈ [.okfsBeforeOpen, .okfsBeforeCreat]) (hs' : before.run h s = .ok s') :
    s'.regs.origEax = DUMMY_CALL_NR ∨
      ((s'.regs.origEax = s.slave.regs.origEax ∨ s'.regs.origEax = NR_OPEN) ∧
        s'.slave.nextCall = some .okfsAfterOkfsOpen) ∨
      Replaced h s s.slave.arg1 s' := by
  simp only [List.mem_cons, List.not_mem_nil, or_false] at hopening
  rcases hopening with rfl | rfl
  · rcases beforeOpening_path hempty hs' with hdummy | ⟨hnumber, hnext⟩ | hreplaced
    · exact .inl hdummy
    · exact .inr (.inl ⟨.inl hnumber, hnext⟩)
    · exact .inr (.inr hreplaced)
  · rcases beforeOpening_path hempty hs' with hdummy | ⟨hnumber, hnext⟩ | hreplaced
    · exact .inl hdummy
    · exact .inr (.inl ⟨.inr hnumber, hnext⟩)
    · exact .inr (.inr hreplaced)

theorem opening_number {before : Before} (hsame : s.slave.regs.origEax = s.regs.origEax)
    (hempty : s.slave.callfs = {}) (hopening : before ∈ [.okfsBeforeOpen, .okfsBeforeCreat])
    (hs' : before.run h s = .ok s') : Numbered s s' := by
  rcases opening_path hempty hopening hs' with hdummy | ⟨hkept | hcreat, -⟩ | hreplaced
  · exact numbered_dummy hdummy
  · exact .inl (hkept.trans hsame)
  · right
    rw [hcreat]
    decide
  · exact .inl (congrArg UserRegs.origEax hreplaced.regs)

theorem Before.run_number {before : Before} (hsame : s.slave.regs.origEax = s.regs.origEax)
    (hempty : s.slave.callfs = {}) (hs' : before.run h s = .ok s') : Numbered s s' := by
  cases before with
  | okfsBeforeOpen => exact opening_number hsame hempty (by decide) hs'
  | okfsBeforeCreat => exact opening_number hsame hempty (by decide) hs'
  | beforeFork => exact beforeFork_number hs'
  | beforeWait => exact beforeWait_number hsame hs'
  | okfsBeforeMmap => exact okfsBeforeMmap_number hs'
  | okfsBeforeFcntl => exact okfsBeforeFcntl_number hs'
  | dummyCall => exact numbered_dummy (dummyCall_number hs')
  | okfsBeforeLnkRnm => exact numbered_dummy (okfsBeforeLnkRnm_number hs')
  | unimplementedCall | notSupported => exact numbered_dummy (forceCallReturn_number hs')
  | beforeExecve =>
    obtain rfl := Except.ok.inj hs'
    exact .inl rfl
  | okfsFdCall => exact okfsFdCall_number hs'
  | okfsOpOnFd => exact okfsOpOnFd_number hs'
  | okfsOnlyOs => exact okfsOnlyOs_number hs'
  | beforeClone => exact beforeClone_number hs'

/-- The calls with paths that are not executed. -/
theorem Before.run_replacing {before : Before} (hmem : before ∈ replacing)
    (hs' : before.run h s = .ok s') : s'.regs.origEax = DUMMY_CALL_NR := by
  simp only [replacing, List.mem_cons, List.not_mem_nil, or_false] at hmem
  rcases hmem with rfl | rfl | rfl | rfl
  · exact dummyCall_number hs'
  · exact forceCallReturn_number hs'
  · exact forceCallReturn_number hs'
  · exact okfsBeforeLnkRnm_number hs'

-- ---------------------------------------------------------------------------
-- What the kernel gets
-- ---------------------------------------------------------------------------

/-- The call with which a task goes on into the kernel, and its paths. -/
inductive Given (h : Host σ) (t s' : Tracee σ) : Prop
  | noPath (hargs : pathArgs s'.regs.origEax.toNat = [])
  | tmpf (hnext : s'.slave.nextCall = some .okfsAfterOkfsOpen)
  | canonical (hargs : pathArgs s'.regs.origEax.toNat = [.ebx])
      (hreplaced : Replaced h t t.regs.ebx s')
  | unchanged (hmem : t.regs.origEax.toNat ∈ letThrough) (hregs : s'.regs = t.regs)
      (hsame : s'.mem = t.mem)

theorem toInt_toNat {w : Word} (hpos : ¬ w.toInt < 0) : w.toInt.toNat = w.toNat := by
  have hlt := w.isLt
  rw [BitVec.toInt_eq_toNat_cond] at hpos ⊢
  split
  · omega
  · rename_i hbig
    rw [if_neg hbig] at hpos
    omega

theorem noPath_dummy (hnumber : s'.regs.origEax = DUMMY_CALL_NR) : Given h t s' := by
  refine .noPath ?_
  rw [hnumber]
  rfl

theorem Numbered.given (hnumbered : Numbered s s') (hargs : pathArgs s.regs.origEax.toNat = []) :
    Given h t s' := by
  rcases hnumbered with hsame | hmem
  · rw [← hsame] at hargs
    exact .noPath hargs
  · have hnone : substitutes.all (fun nr => pathArgs nr.toNat = []) = true := by decide
    exact .noPath (by simpa using List.all_eq_true.mp hnone _ hmem)

/-- At the entry the record has the registers, the memory and the directory of the stop. -/
structure Begun (arg : Args) (t s : Tracee σ) : Prop where
  regs : s.slave.regs = t.regs
  same : s.regs = t.regs
  arg : s.slave.arg = arg
  mem : s.mem = t.mem
  world : s.world = t.world
  cwd : s.slave.cwd = t.slave.cwd
  callfs : s.slave.callfs = t.slave.callfs

theorem Replaced.given {arg : Args} (hbegun : Begun arg t s) (harg : arg.arg1 = t.regs.ebx)
    (hargs : pathArgs t.regs.origEax.toNat = [.ebx]) (hreplaced : Replaced h s s.slave.arg1 s') :
    Given h t s' := by
  obtain ⟨hregs, path, canon, hgetstr, hcanon, hmem⟩ := hreplaced
  have hregs' : s'.regs = t.regs := hregs.trans hbegun.same
  have harg' : s.slave.arg1 = t.regs.ebx := by rw [Slave.arg1, hbegun.arg, harg]
  rw [harg'] at hgetstr hmem
  rw [slaveGetstr_congr hbegun.mem hbegun.world] at hgetstr
  rw [canonicalize, hbegun.world, hbegun.cwd] at hcanon
  rw [hbegun.mem] at hmem
  exact .canonical (by rw [hregs', hargs]) ⟨hregs', path, canon, hgetstr, hcanon, hmem⟩

theorem opening_given {arg : Args} {before : Before} (hbegun : Begun arg t s)
    (harg : arg.arg1 = t.regs.ebx) (hempty : t.slave.callfs = {})
    (hargs : pathArgs t.regs.origEax.toNat = [.ebx])
    (hopening : before ∈ [.okfsBeforeOpen, .okfsBeforeCreat]) (hs' : before.run h s = .ok s') :
    Given h t s' := by
  rcases opening_path (hbegun.callfs.trans hempty) hopening hs' with hdummy | ⟨-, hnext⟩ | hreplaced
  · exact noPath_dummy hdummy
  · exact .tmpf hnext
  · exact hreplaced.given hbegun harg hargs

/-- A row without a handler, or with the one that is only for debugging. -/
theorem unchanged_given {arg : Args} (hbegun : Begun arg t s) (hlt : t.regs.origEax.toNat < NR_syscalls)
    (hbefore : (callTable fakeroot t.regs.origEax.toNat).callBefore ∈ [none, some .beforeExecve]) :
    Given h t s := by
  by_cases hargs : pathArgs t.regs.origEax.toNat = []
  · rw [← hbegun.same] at hargs
    exact .noPath hargs
  rcases row_path fakeroot _ hlt hargs with hthrough | hmem
  · exact .unchanged hthrough hbegun.same hbegun.mem
  · simp only [List.mem_cons, List.not_mem_nil, or_false] at hbefore
    rcases hbefore with hbefore | hbefore
    · rw [hbefore] at hmem
      exact absurd hmem (by decide)
    · rw [hbefore] at hmem
      exact absurd hmem (by decide)

theorem run_given {arg : Args} {before : Before} (hbegun : Begun arg t s)
    (hf : Fetched (fetched fakeroot arg t)) (hempty : t.slave.callfs = {})
    (hrow : argsRow t.regs.origEax.toInt = t.regs.origEax.toNat)
    (hlt : t.regs.origEax.toNat < NR_syscalls)
    (hbefore : (callTable fakeroot t.regs.origEax.toNat).callBefore = some before)
    (hs' : before.run h s = .ok s') : Given h t s' := by
  by_cases hopening : before ∈ [.okfsBeforeOpen, .okfsBeforeCreat]
  · obtain ⟨hargs, hstack⟩ := row_opening fakeroot _ hlt (by rw [hbefore]; simpa using hopening)
    have harg := fetched_arg1 hf (by rw [fetched, hrow]; exact hstack)
    exact opening_given hbegun harg hempty hargs hopening hs'
  by_cases hreplacing : before ∈ replacing
  · exact noPath_dummy (Before.run_replacing hreplacing hs')
  by_cases hexecve : before = .beforeExecve
  · obtain rfl := hexecve
    obtain rfl := Except.ok.inj hs'
    have hrow' : (callTable fakeroot t.regs.origEax.toNat).callBefore ∈ [none, some .beforeExecve] := by
      rw [hbefore]
      decide
    exact unchanged_given hbegun hlt hrow'
  -- the rows of the other handlers have no paths
  have hargs : pathArgs t.regs.origEax.toNat = [] := by
    by_contra hargs
    rcases row_path fakeroot _ hlt hargs with hthrough | hmem
    · have hnone := (row_letThrough fakeroot _ hthrough).1
      rw [hbefore] at hnone
      simp [hexecve] at hnone
    · rw [hbefore] at hmem
      simp only [List.mem_cons, Option.some.injEq, List.mem_map, exists_eq_right] at hmem
      simp only [List.mem_cons, List.not_mem_nil, or_false, not_or] at hopening
      rcases hmem with hopen | hcreat | hmem
      · exact hopening.1 hopen
      · exact hopening.2 hcreat
      · exact hreplacing hmem
  have hnumbered := Before.run_number (by rw [hbegun.regs, hbegun.same])
    (hbegun.callfs.trans hempty) hs'
  exact hnumbered.given (by rw [hbegun.same, hargs])

/-- The stop at an entry: no call, or a row of the table. -/
theorem entry_cases (hidle : t.slave.duringCall = 0)
    (hs' : handleSyscall h fakeroot t = .ok (s', child)) :
    s'.regs.origEax = DUMMY_CALL_NR ∨
      (t.regs.origEax.toNat < NR_syscalls ∧
        argsRow t.regs.origEax.toInt = t.regs.origEax.toNat ∧
        ∃ arg s₁, Fetched (fetched fakeroot arg t) ∧ Begun arg t s₁ ∧
          match (callTable fakeroot t.regs.origEax.toNat).callBefore with
          | some before => before.run h s₁ = .ok s'
          | none => s' = s₁) := by
  obtain ⟨arg, hf, hcases⟩ := handleSyscall_fetched hs'
  rcases hcases with ⟨-, henter⟩ | ⟨hcall, -⟩
  · unfold enter at henter
    simp only at henter
    split at henter
    · exact .inl (forceCallReturn_number henter)
    split at henter
    · exact absurd henter (by simp)
    rename_i hnr hbounds
    have hregs : (fetched fakeroot arg t).slave.regs = t.regs := rfl
    rw [hregs] at hnr hbounds henter
    rw [not_or] at hbounds
    have hnat := toInt_toNat hbounds.1
    have hlt : t.regs.origEax.toNat < NR_syscalls := by omega
    have hrow : argsRow t.regs.origEax.toInt = t.regs.origEax.toNat := by
      unfold argsRow
      split <;> omega
    refine .inr ⟨hlt, hrow, arg, { fetched fakeroot arg t with
      slave := { (fetched fakeroot arg t).slave with
        duringCall := t.regs.origEax.toInt
        nextCall := (callTable fakeroot t.regs.origEax.toInt.toNat).callAfter } }, hf,
      ⟨rfl, rfl, rfl, rfl, rfl, rfl, rfl⟩, ?_⟩
    rw [← hnat]
    revert henter
    cases (callTable fakeroot t.regs.origEax.toInt.toNat).callBefore with
    | none =>
      intro henter
      exact (Except.ok.inj henter).symm
    | some before =>
      intro henter
      exact henter
  · exact absurd hidle hcall

theorem entry_given (hscratch : Scratch t) (hidle : t.slave.duringCall = 0)
    (hs' : handleSyscall h fakeroot t = .ok (s', child)) : Given h t s' := by
  rcases entry_cases hidle hs' with hdummy | ⟨hlt, hrow, arg, s₁, hf, hbegun, hrun⟩
  · exact noPath_dummy hdummy
  · split at hrun
    · rename_i before hbefore
      exact run_given hbegun hf (hscratch.idle hidle).1 hrow hlt hbefore hrun
    · rename_i hbefore
      obtain rfl := hrun
      have hrow' : (callTable fakeroot t.regs.origEax.toNat).callBefore ∈
          [none, some .beforeExecve] := by
        rw [hbefore]
        decide
      exact unchanged_given hbegun hlt hrow'

/-- The kernel never executes `chdir` or `fchdir`. -/
theorem entry_number (hscratch : Scratch t) (hidle : t.slave.duringCall = 0)
    (hs' : handleSyscall h fakeroot t = .ok (s', child)) :
    s'.regs.origEax.toInt ∉ [CHDIR, FCHDIR] := by
  have hdummy : s'.regs.origEax = DUMMY_CALL_NR → s'.regs.origEax.toInt ∉ [CHDIR, FCHDIR] := by
    intro hnumber
    rw [hnumber]
    decide
  rcases entry_cases hidle hs' with hnumber | ⟨hlt, hrow, arg, s₁, hf, hbegun, hrun⟩
  · exact hdummy hnumber
  have hempty : s₁.slave.callfs = {} := hbegun.callfs.trans (hscratch.idle hidle).1
  by_cases hdir : t.regs.origEax.toInt ∈ [CHDIR, FCHDIR]
  · have hrow : (callTable fakeroot t.regs.origEax.toNat).callBefore = some .dummyCall := by
      simp only [List.mem_cons, List.not_mem_nil, or_false] at hdir
      rcases hdir with hchdir | hfchdir
      · rw [← toInt_toNat (by rw [hchdir]; decide), hchdir]
        cases fakeroot <;> rfl
      · rw [← toInt_toNat (by rw [hfchdir]; decide), hfchdir]
        cases fakeroot <;> rfl
    simp only [hrow] at hrun
    exact hdummy (dummyCall_number hrun)
  · have hnumbered : Numbered s₁ s' := by
      split at hrun
      · exact Before.run_number (by rw [hbegun.regs, hbegun.same]) hempty hrun
      · obtain rfl := hrun
        exact .inl rfl
    rcases hnumbered with hsame | hmem
    · rw [hsame, hbegun.same]
      exact hdir
    · have hnone : substitutes.all (fun nr => nr.toInt ∉ [CHDIR, FCHDIR]) = true := by decide
      simpa using List.all_eq_true.mp hnone _ hmem

-- ---------------------------------------------------------------------------
-- Files by their names
-- ---------------------------------------------------------------------------

/-- What a path names in a directory. The empty path names nothing. -/
def named (dir path : CStr) : CStr :=
  if path = [] ∨ path.head? = some slash then path else dir ++ slash :: path

theorem named_inj {dir cwd path : CStr} :
    named dir path = named cwd path ↔ path = [] ∨ path.head? = some slash ∨ dir = cwd := by
  unfold named
  split
  · rename_i habs
    exact ⟨fun _ => habs.elim .inl fun habs => .inr (.inl habs), fun _ => rfl⟩
  · rename_i hrel
    rw [not_or] at hrel
    rw [List.append_left_inj]
    exact ⟨fun hdir => .inr (.inr hdir), fun hor => (hor.resolve_left hrel.1).resolve_left hrel.2⟩

/-- A task whose working directory is `cwd` means `path`, and the kernel, which has the task in
`dir`, gets `path'`: that is the same name, or the canonical name of the file. -/
def SameFile (fs : NameiFs) (cwd : CStr) (dir : Option CStr) (path path' : CStr) : Prop :=
  (∃ d, dir = some d ∧ named d path' = named cwd path) ∨
    (path'.head? = some slash ∧ canonical fs (some cwd) (some path) true = .returned (.ok path'))

/-- What goes into the kernel with the call that it executes means there what it means to the
task. The open of a file of OKFS does not go into the kernel: it opens the temporary file. -/
def Faithful (h : Host σ) (dir : Option CStr) (t s' : Tracee σ) : Prop :=
  s'.slave.nextCall ≠ some .okfsAfterOkfsOpen →
    ∀ arg ∈ pathArgs s'.regs.origEax.toNat, ∀ path path', StringAt t.mem (arg.reg t.regs) path →
      StringAt s'.mem (arg.reg s'.regs) path' →
        SameFile (h.namei t.world) t.slave.cwd dir path path'

/-- A path that is let through is absolute, or the kernel has the task in its directory. -/
def StartsRight (dir : Option CStr) (t : Tracee σ) : Prop :=
  t.regs.origEax.toNat ∈ letThrough → ∀ arg ∈ pathArgs t.regs.origEax.toNat,
    ∀ path, StringAt t.mem (arg.reg t.regs) path →
      path = [] ∨ path.head? = some slash ∨ dir = some t.slave.cwd

/-- The texts of links are C strings. -/
def LinkTexts (h : Host σ) : Prop :=
  ∀ world path l, (h.namei world).argreadlink path = .ok l → 0 ∉ l

theorem canonicalize_isCanonical (hlinks : LinkTexts h) (hcwd : IsCanonical t.slave.cwd)
    {path canon : CStr} (hletters : 0 ∉ path)
    (hcanon : canonicalize h t path true = .ok (.ok canon)) :
    IsCanonical canon ∧
      canonical (h.namei t.world) (some t.slave.cwd) (some path) true = .returned (.ok canon) := by
  unfold canonicalize at hcanon
  split at hcanon
  · rename_i r hreturned
    rw [Except.ok.inj hcanon] at hreturned
    obtain ⟨p, hp, hcanonPath⟩ := hcwd
    refine ⟨?_, hreturned⟩
    rw [hcanonPath] at hreturned
    exact canonical_isCanonical hp hletters (hlinks t.world) hreturned
  · exact absurd hcanon (by simp)
  · exact absurd hcanon (by simp)

theorem isCanonical_letters {x : CStr} (hx : IsCanonical x) : 0 ∉ x := by
  obtain ⟨p, hp, rfl⟩ := hx
  exact hp.nul_notMem

theorem isCanonical_absolute {x : CStr} (hx : IsCanonical x) : x.head? = some slash := by
  obtain ⟨p, -, rfl⟩ := hx
  exact canonPath_head p

/-- The stop at the end of a call clears `during_call`. -/
theorem leave_clears (hscratch : Scratch t) (hbusy : t.slave.duringCall ≠ 0)
    (hs' : handleSyscall h fakeroot t = .ok (s', child)) : s'.slave.duringCall = 0 := by
  obtain ⟨arg, hf, hcases⟩ := handleSyscall_fetched hs'
  rcases hcases with ⟨hidle, -⟩ | ⟨-, hleave⟩
  · exact absurd hidle hbusy
  · exact leave_idle hf (fetched_scratch hscratch arg) hleave

/-- What has been replaced is right in any directory. -/
theorem Replaced.sameFile {dir : Option CStr} {path path' : CStr} (hlinks : LinkTexts h)
    (hcwd : IsCanonical t.slave.cwd) (hreplaced : Replaced h t t.regs.ebx s')
    (hpath : StringAt t.mem t.regs.ebx path) (hpath' : StringAt s'.mem s'.regs.ebx path') :
    SameFile (h.namei t.world) t.slave.cwd dir path path' := by
  obtain ⟨hregs, read, canon, hgetstr, hcanon, hmem⟩ := hreplaced
  have hread := slaveGetstr_string hgetstr
  obtain rfl := hread.unique hpath
  obtain ⟨hiscanon, hcanonical⟩ := canonicalize_isCanonical hlinks hcwd hread.letters hcanon
  have hwritten := set_stringAt (isCanonical_letters hiscanon) hmem
  rw [hregs] at hpath'
  obtain rfl := hwritten.unique hpath'
  exact .inr ⟨isCanonical_absolute hiscanon, hcanonical⟩

theorem sameFile_unchanged {fs : NameiFs} {cwd d path : CStr} :
    SameFile fs cwd (some d) path path ↔ path = [] ∨ path.head? = some slash ∨ some d = some cwd := by
  rw [Option.some_inj, ← named_inj]
  constructor
  · rintro (⟨d', hd', hsame⟩ | ⟨habs, -⟩)
    · obtain rfl := Option.some.inj hd'
      exact hsame
    · exact named_inj.mpr (.inr (.inl habs))
  · intro hsame
    exact .inl ⟨d, rfl, hsame⟩

theorem letThrough_lt {nr : Nat} (hmem : nr ∈ letThrough) :
    nr < NR_syscalls := by
  have hall : letThrough.all (· < NR_syscalls) = true := by decide
  simpa using List.all_eq_true.mp hall nr hmem

theorem argsRow_lt {nr : Nat} (hlt : nr < NR_syscalls) : argsRow nr = nr := by
  unfold argsRow
  split <;> omega

/-- A row that lets the path through does not fail, and changes nothing. -/
theorem letThrough_entry (h : Host σ) (fakeroot : Bool) (hidle : t.slave.duringCall = 0)
    (hmem : t.regs.origEax.toNat ∈ letThrough) :
    ∃ s', handleSyscall h fakeroot t = .ok (s', none) ∧ s'.regs = t.regs ∧ s'.mem = t.mem ∧
      s'.slave.nextCall ≠ some .okfsAfterOkfsOpen := by
  have hlt := letThrough_lt hmem
  obtain ⟨hbefore, hstack⟩ := row_letThrough fakeroot _ hmem
  have hint : t.regs.origEax.toInt = t.regs.origEax.toNat := by
    rw [BitVec.toInt_eq_toNat_cond, if_pos (by unfold NR_syscalls at hlt; omega)]
  have hrow : argsRow t.regs.origEax.toInt = t.regs.origEax.toNat := by
    rw [hint]
    exact argsRow_lt hlt
  obtain ⟨arg, hfetch⟩ : ∃ arg, fetch fakeroot t = .ok (fetched fakeroot arg t) := by
    refine ⟨⟨t.regs.ebx, t.regs.ecx, t.regs.edx, t.regs.esi, t.regs.edi, t.slave.arg.arg6⟩, ?_⟩
    simp only [fetch, getSlaveArgs, hrow, hstack, if_true, fetched]
    rfl
  have hregs : (fetched fakeroot arg t).slave.regs = t.regs := rfl
  have hnr : ¬ (t.regs.origEax.toNat : Int) > NR_syscalls := by omega
  have hbounds : ¬ ((t.regs.origEax.toNat : Int) < 0 ∨ (t.regs.origEax.toNat : Int) = NR_syscalls) := by
    omega
  have henter : enter h fakeroot (fetched fakeroot arg t) =
      .ok (calling fakeroot (fetched fakeroot arg t)) := by
    unfold enter calling
    simp only [hregs, hint, if_neg hnr, if_neg hbounds, Int.toNat_natCast]
    simp only [List.mem_cons, List.not_mem_nil, or_false] at hbefore
    rcases hbefore with hbefore | hbefore
    · simp only [hbefore]
    · simp only [hbefore, Before.run]
  refine ⟨calling fakeroot (fetched fakeroot arg t), ?_, rfl, rfl, ?_⟩
  · refine bind_ok.mpr ⟨_, hfetch, ?_⟩
    have hidle' : (fetched fakeroot arg t).slave.duringCall = 0 := hidle
    rw [if_pos hidle', henter]
    rfl
  · simp only [calling, hregs, hint, if_neg hnr, Int.toNat_natCast]
    exact row_opened hlt

/-- At an entry the paths are right if and only if those that are let through start right. -/
theorem faithful_iff (fakeroot : Bool) (hlinks : LinkTexts h) (hscratch : Scratch t)
    (hcwd : IsCanonical t.slave.cwd) (hidle : t.slave.duringCall = 0) {d : CStr} :
    (∀ s' child, handleSyscall h fakeroot t = .ok (s', child) → Faithful h (some d) t s') ↔
      StartsRight (some d) t := by
  constructor
  · intro hfaithful hmem arg harg path hpath
    obtain ⟨s', hs', hregs, hsame, hnext⟩ := letThrough_entry h fakeroot hidle hmem
    have hiff : SameFile (h.namei t.world) t.slave.cwd (some d) path path ↔ _ := sameFile_unchanged
    rw [← hiff]
    refine hfaithful s' none hs' hnext arg (by rwa [hregs]) path path hpath ?_
    rw [hregs, hsame]
    exact hpath
  · intro hstarts s' child hs' hnext arg harg path path' hpath hpath'
    cases entry_given hscratch hidle hs' with
    | noPath hargs =>
      rw [hargs] at harg
      exact absurd harg (List.not_mem_nil)
    | tmpf htmpf => exact absurd htmpf hnext
    | canonical hargs hreplaced =>
      rw [hargs, List.mem_singleton] at harg
      obtain rfl := harg
      exact hreplaced.sameFile hlinks hcwd hpath hpath'
    | unchanged hmem hregs hsame =>
      rw [hregs] at harg hpath'
      rw [hsame] at hpath'
      obtain rfl := hpath.unique hpath'
      exact sameFile_unchanged.mpr (hstarts hmem arg harg path hpath)

-- ---------------------------------------------------------------------------
-- Every run
-- ---------------------------------------------------------------------------

/-- Where the kernel has a task that stops again. That is not known any more once `chdir` or
`fchdir` has been executed. -/
def kernelDir (s t : Tracee σ) (dir : Option CStr) : Option CStr :=
  if s.slave.duringCall ≠ 0 ∧ s.regs.origEax.toInt ∈ [CHDIR, FCHDIR] ∧ t.regs.eax = 0 then none
  else dir

/-- A task stops. Here `dir` is where the kernel has it, and a child begins there. -/
def pathStep (h : Host σ) (fakeroot : Bool) (ps : List (Proc σ)) (i : Stop σ) :
    Option (List (Proc σ)) :=
  match ps[i.task]?, handleSyscall h fakeroot i.tracee with
  | some p, .ok (s', child) =>
    let dir := kernelDir p.tracee i.tracee p.dir
    some (ps.set i.task ⟨s', dir⟩ ++ child.toList.map fun c => ⟨c, dir⟩)
  | _, _ => none

/-- If a call begins, its paths mean to the kernel what they mean to the task. -/
def PathsRight (h : Host σ) (fakeroot : Bool) (ps : List (Proc σ)) (i : Stop σ) : Prop :=
  ∀ p, ps[i.task]? = some p → i.tracee.slave.duringCall = 0 →
    ∀ s' child, handleSyscall h fakeroot i.tracee = .ok (s', child) → Faithful h p.dir i.tracee s'

def PathsStart (ps : List (Proc σ)) (i : Stop σ) : Prop :=
  ∀ p, ps[i.task]? = some p → i.tracee.slave.duringCall = 0 → StartsRight p.dir i.tracee

/-- Where `fchdir` succeeds, the variable that has not been set holds a canonical path. -/
def FchdirCanonical (h : Host σ) (ps : List (Proc σ)) (i : Stop σ) : Prop :=
  (ps[i.task]?).isSome → i.tracee.slave.duringCall = FCHDIR →
    ∀ filep path, i.tracee.slave.tracked i.tracee.regs.ebx.toInt = some filep →
      h.garbageString i.tracee.world = some path →
      (h.namei i.tracee.world).arglstat path = .ok .dir → IsCanonical path

/-- A task, which the kernel has in the directory `d` and leaves there. -/
structure Seated (d : CStr) (p : Proc σ) : Prop where
  calls : DirCalls p.tracee
  cwd : IsCanonical p.tracee.slave.cwd
  number : p.tracee.slave.duringCall ≠ 0 → p.tracee.regs.origEax.toInt ∉ [CHDIR, FCHDIR]
  dir : p.dir = some d

def AllSeated (d : CStr) (ps : List (Proc σ)) : Prop := ∀ p ∈ ps, Seated d p

theorem Seated.kernelDir {d : CStr} {p : Proc σ} (hseated : Seated d p) (t : Tracee σ) :
    kernelDir p.tracee t p.dir = some d := by
  unfold Syscall.kernelDir
  rw [if_neg (fun hexec => hseated.number hexec.1 hexec.2.1), hseated.dir]

/-- The working directory is a canonical path after every stop. -/
theorem Moves.isCanonical (hlinks : LinkTexts h) (hcwd : IsCanonical t.slave.cwd)
    (hfchdir : t.slave.duringCall = FCHDIR →
      ∀ filep path, t.slave.tracked t.regs.ebx.toInt = some filep →
        h.garbageString t.world = some path →
        (h.namei t.world).arglstat path = .ok .dir → IsCanonical path)
    (hmoves : Moves h t s') : IsCanonical s'.slave.cwd := by
  cases hmoves with
  | stays hsame heax =>
    rw [hsame]
    exact hcwd
  | chdir hcall heax path hgetstr hcanon =>
    have hread := slaveGetstr_string hgetstr
    exact (canonicalize_isCanonical hlinks hcwd hread.letters hcanon).1
  | fchdir hcall heax filep htracked hgarbage hdir =>
    exact hfchdir hcall filep _ htracked hgarbage hdir

theorem allSeated_step {d : CStr} {ps ps' : List (Proc σ)} {i : Stop σ} (hlinks : LinkTexts h)
    (hseated : AllSeated d ps) (hfree : Undisturbed ps i) (hfchdir : FchdirCanonical h ps i)
    (hstep : pathStep h fakeroot ps i = some ps') : AllSeated d ps' := by
  intro q hq
  unfold pathStep at hstep
  split at hstep
  · rename_i p s' child hp hs'
    obtain rfl := Option.some.inj hstep
    have hseat := hseated p (List.mem_of_getElem? hp)
    have hbetween := hfree p hp
    have hcalls := hseat.calls.between hbetween
    have hcwd : IsCanonical i.tracee.slave.cwd := by
      rw [hbetween.cwd]
      exact hseat.cwd
    obtain ⟨hparent, hchild⟩ := handleSyscall_dirCalls hcalls hs'
    obtain ⟨hmoves, hinherits⟩ := handleSyscall_moves hcalls hs'
    have hcanonical := hmoves.isCanonical hlinks hcwd (hfchdir (by rw [hp]; rfl))
    obtain ⟨hready, hnew⟩ := handleSyscall_ready hcalls.scratch hs'
    rcases List.mem_append.mp hq with hold | hmem
    · rcases List.mem_or_eq_of_mem_set hold with hother | rfl
      · exact hseated q hother
      · refine ⟨hparent, hcanonical, fun hbusy => ?_, hseat.kernelDir i.tracee⟩
        -- the call has just begun, since a stop at its end clears `during_call`
        by_cases hidle : i.tracee.slave.duringCall = 0
        · exact entry_number hcalls.scratch hidle hs'
        · exact absurd (leave_clears hcalls.scratch hidle hs') hbusy
    · obtain ⟨c, hc, rfl⟩ := List.mem_map.mp hmem
      have hc := Option.mem_toList.mp hc
      refine ⟨hchild c hc, ?_, fun hbusy => absurd (hnew c hc).duringCall hbusy, hseat.kernelDir i.tracee⟩
      show IsCanonical c.slave.cwd
      rw [hinherits c hc]
      exact hcanonical
  · exact absurd hstep (by simp)

theorem pathsRight_iff {d : CStr} {ps : List (Proc σ)} {i : Stop σ} (hlinks : LinkTexts h)
    (hseated : AllSeated d ps) (hfree : Undisturbed ps i) :
    PathsRight h fakeroot ps i ↔ PathsStart ps i := by
  have hone : ∀ p, ps[i.task]? = some p → i.tracee.slave.duringCall = 0 →
      ((∀ s' child, handleSyscall h fakeroot i.tracee = .ok (s', child) →
        Faithful h p.dir i.tracee s') ↔ StartsRight p.dir i.tracee) := by
    intro p hp hidle
    have hseat := hseated p (List.mem_of_getElem? hp)
    have hbetween := hfree p hp
    rw [hseat.dir]
    refine faithful_iff fakeroot hlinks (hseat.calls.between hbetween).scratch ?_ hidle
    rw [hbetween.cwd]
    exact hseat.cwd
  constructor
  · intro hright p hp hidle
    exact (hone p hp hidle).mp (hright p hp hidle)
  · intro hstart p hp hidle
    exact (hone p hp hidle).mpr (hstart p hp hidle)

/-- In every run in which no `fchdir` enters what is no canonical path, the paths of all calls
are right if and only if those that are let through start right. -/
theorem paths_right_iff (hlinks : LinkTexts h) (hfresh : Fresh s) (hcwd : IsCanonical s.slave.cwd)
    {is : List (Stop σ)}
    (hfree : Runs.Along (pathStep h fakeroot) Undisturbed [⟨s, some s.slave.cwd⟩] is)
    (hfchdir : Runs.Along (pathStep h fakeroot) (FchdirCanonical h) [⟨s, some s.slave.cwd⟩] is) :
    Runs.Along (pathStep h fakeroot) (PathsRight h fakeroot) [⟨s, some s.slave.cwd⟩] is ↔
      Runs.Along (pathStep h fakeroot) PathsStart [⟨s, some s.slave.cwd⟩] is := by
  refine Runs.Along.congr (I := AllSeated s.slave.cwd)
    (fun ps i ps' hseated hfree _ hstep => ?_) (fun ps i hseated hfree => ?_) ?_ (hfree.and hfchdir)
  · exact allSeated_step hlinks hseated hfree.1 hfree.2 hstep
  · exact pathsRight_iff hlinks hseated hfree.1
  · intro p hp
    obtain rfl := List.mem_singleton.mp hp
    have hready : Ready s := ⟨hfresh.scratch, hfresh.duringCall, hfresh.nextCall⟩
    exact ⟨hready.dirCalls, hcwd, fun hbusy => absurd hfresh.duringCall hbusy, rfl⟩

-- ---------------------------------------------------------------------------
-- A program in the new directory
-- ---------------------------------------------------------------------------

-- `chdir("/d")`, and `execve` of a program.

def chdirEntry : Tracee Unit :=
  { bareTracee (callRegs 12 4096 0 0) with
    mem :=
      { bytes := fun a =>
          if a < 8192 then stringBytes (ascii "/d") (a - 4096) else stringBytes (ascii "x") (a - 8192)
        readable := fun _ => true
        writable := fun _ => true } }

def chdirExit : Tracee Unit :=
  { handled bareHost chdirEntry with regs := { callRegs 20 4096 0 0 with eax := 100 } }

def execveEntry (path : Word) : Tracee Unit :=
  { handled bareHost chdirExit with regs := callRegs 11 path 0 0 }

theorem chdirEntry_step :
    pathStep bareHost false [⟨chdirEntry, some [slash]⟩] ⟨0, chdirEntry⟩ =
      some [⟨handled bareHost chdirEntry, some [slash]⟩] := rfl

theorem chdirExit_step :
    pathStep bareHost false [⟨handled bareHost chdirEntry, some [slash]⟩] ⟨0, chdirExit⟩ =
      some [⟨handled bareHost chdirExit, some [slash]⟩] := rfl

theorem chdir_undisturbed (path : Word) :
    Runs.Along (pathStep bareHost false) Undisturbed [⟨chdirEntry, some [slash]⟩]
      [⟨0, chdirEntry⟩, ⟨0, chdirExit⟩, ⟨0, execveEntry path⟩] := by
  have hentry : Between chdirEntry chdirEntry :=
    ⟨⟨rfl, rfl, rfl, rfl, rfl⟩, rfl, rfl, fun hcall => absurd rfl hcall⟩
  have hexit : Between (handled bareHost chdirEntry) chdirExit :=
    ⟨⟨rfl, rfl, rfl, rfl, rfl⟩, rfl, rfl, fun _ _ => rfl⟩
  have hexecve : Between (handled bareHost chdirExit) (execveEntry path) :=
    ⟨⟨rfl, rfl, rfl, rfl, rfl⟩, rfl, rfl, fun hcall => absurd rfl hcall⟩
  exact .cons (undisturbed_one hentry) chdirEntry_step
    (.cons (undisturbed_one hexit) chdirExit_step
      ⟨undisturbed_one hexecve, fun _ _ => trivial⟩)

theorem bareHost_links : LinkTexts bareHost := by
  intro world path l hl
  cases hl

theorem chdirEntry_canonical : IsCanonical chdirEntry.slave.cwd :=
  ⟨[], fun _ hn => absurd hn List.not_mem_nil, rfl⟩

theorem execveEntry_absolute : StringAt (execveEntry 4096).mem 4096 (ascii "/d") := by
  refine ⟨⟨fun i hi => ?_, rfl⟩, by decide⟩
  have hlt : i < 2 := hi
  obtain rfl | rfl : i = 0 ∨ i = 1 := by omega
  · rfl
  · rfl

theorem execveEntry_relative : StringAt (execveEntry 8192).mem 8192 (ascii "x") := by
  refine ⟨⟨fun i hi => ?_, rfl⟩, by decide⟩
  have hlt : i < 1 := hi
  obtain rfl : i = 0 := by omega
  rfl

/-- An absolute path is right in the new directory. -/
theorem paths_right_absolute :
    Runs.Along (pathStep bareHost false) (PathsRight bareHost false)
      [⟨chdirEntry, some [slash]⟩]
      [⟨0, chdirEntry⟩, ⟨0, chdirExit⟩, ⟨0, execveEntry 4096⟩] := by
  have hfchdir : Runs.Along (pathStep bareHost false) (FchdirCanonical bareHost)
      [⟨chdirEntry, some [slash]⟩] [⟨0, chdirEntry⟩, ⟨0, chdirExit⟩, ⟨0, execveEntry 4096⟩] := by
    refine .cons (fun _ _ _ _ _ hno => ?_) chdirEntry_step
      (.cons (fun _ _ _ _ _ hno => ?_) chdirExit_step ⟨fun _ _ _ _ _ hno => ?_, fun _ _ => trivial⟩)
    · cases hno
    · cases hno
    · cases hno
  refine (paths_right_iff bareHost_links ⟨rfl, rfl, rfl, rfl, rfl⟩ chdirEntry_canonical
    (chdir_undisturbed 4096) hfchdir).mpr ?_
  refine .cons (fun _ _ _ hmem => ?_) chdirEntry_step
    (.cons (fun _ _ hidle => ?_) chdirExit_step
      ⟨fun _ _ _ _ arg harg path hpath => ?_, fun _ _ => trivial⟩)
  · exact absurd hmem (by decide)
  · exact absurd hidle (by decide +kernel)
  · obtain rfl : arg = .ebx := by simpa [pathArgs, execveEntry, callRegs] using harg
    obtain rfl := hpath.unique execveEntry_absolute
    exact .inr (.inl rfl)

/-- After `chdir("/d")` the program `x` is not looked for in `/d`. -/
theorem not_paths_right :
    ¬ ∀ (h : Host Unit) (s : Tracee Unit) (is : List (Stop Unit)), LinkTexts h → Fresh s →
      IsCanonical s.slave.cwd →
      Runs.Along (pathStep h false) Undisturbed [⟨s, some s.slave.cwd⟩] is →
      Runs.Along (pathStep h false) (PathsRight h false) [⟨s, some s.slave.cwd⟩] is := by
  intro hright
  have hrun := hright bareHost chdirEntry _ bareHost_links ⟨rfl, rfl, rfl, rfl, rfl⟩
    chdirEntry_canonical (chdir_undisturbed 8192)
  have hlast := ((hrun.2 _ chdirEntry_step).2 _ chdirExit_step).1
  have hsame := hlast _ rfl rfl (handled bareHost (execveEntry 8192)) none rfl (by decide) .ebx
    (List.mem_singleton.mpr rfl) (ascii "x") (ascii "x") execveEntry_relative execveEntry_relative
  rcases hsame with ⟨d, hd, hnamed⟩ | ⟨habs, -⟩
  · obtain rfl := Option.some.inj hd
    exact absurd hnamed (by decide +kernel)
  · exact absurd habs (by decide)

end Syscall

end Okfs
