import Okfs.Task.Registers
import Okfs.Task.TraceeMemory

/-!
# OKFS — the slots that handlers follow

Many handlers of descriptors follow `slave->fd_tab[fd]` without a test, since the one that is
called at the entry has made it: `okfs_fd_call`, `okfs_op_on_fd` and `okfs_before_fcntl` take
back `next_call` where there is nothing to follow. Between the two stops neither the table nor
the registers with the arguments change.

`okfs_before_mmap` makes no such test, and follows a slot that is empty for every descriptor
that OKFS does not know. It is the only one (`fd_slots_safe_iff`).
-/

namespace Okfs

namespace Syscall

open ByteMemory

variable {σ : Type} {h : Host σ} {fakeroot : Bool} {s s₁ s' t : Tracee σ}
  {child : Option (Tracee σ)} {fd : Int} {filep : OkfsFile}

-- ---------------------------------------------------------------------------
-- What a handler follows
-- ---------------------------------------------------------------------------

/-- `fd_tab[fd]` is inside of the table, and not `NULL`. -/
def Slave.occupied (slave : Slave) (fd : Int) : Prop := (slave.tracked fd).isSome = true

instance (slave : Slave) (fd : Int) : Decidable (slave.occupied fd) :=
  inferInstanceAs (Decidable (_ = _))

/-- The slots of which a `call_before` reads a field. -/
def Before.slots (slave : Slave) : Before → List Int
  | .okfsFdCall | .okfsOnlyOs | .okfsBeforeFcntl =>
    if slave.occupied slave.arg1.toInt then [slave.arg1.toInt] else []
  | .okfsBeforeMmap =>
    let fd := slave.arg5.toInt
    if slave.arg4 &&& MAP_ANONYMOUS ≠ 0 ∨ fd < 0 ∨ fd ≥ OPEN_MAX then [] else [fd]
  | _ => []

/-- The handlers that are for descriptors of OKFS only. -/
def After.okfsOnly : List After :=
  [.okfsRead, .okfsWrite, .okfsLseek, .okfsFtruncate, .okfsFchmod, .okfsFchown, .okfsFstatfs,
    .okfsFstat, .okfsFstat64, .okfsGetdents, .okfsGetdents64]

/-- The slots of which a `next_call` reads or counts a field. -/
def After.slots (slave : Slave) (after : After) : List Int :=
  let fd := slave.arg1.toInt
  let ret := slave.returnValue
  if after ∈ okfsOnly then [fd]
  else
    match after with
    | .okfsAfterClose => [fd]
    | .okfsDup => if 0 ≤ ret ∧ ret < OPEN_MAX then [fd] else []
    | .okfsDup2 =>
      if 0 ≤ ret ∧ ret < OPEN_MAX then
        -- `okfs_close_fd` first
        (if slave.occupied ret then [ret] else []) ++ if slave.occupied fd ∧ fd ≠ ret then [fd] else []
      else []
    | .okfsAfterFcntl =>
      if slave.arg2.toNat = F_DUPFD ∧ 0 ≤ ret ∧ ret < OPEN_MAX then [fd] else []
    | _ => []

inductive Handler
  | before (b : Before)
  | after (a : After)

/-- The handler that `handle_syscall` calls at a stop, and the state in which it does. -/
def calledAt (fakeroot : Bool) (t : Tracee σ) : Option (Tracee σ × Handler) :=
  match fetch fakeroot t with
  | .error _ => none
  | .ok s =>
    let nr := s.slave.regs.origEax.toInt
    if s.slave.duringCall = 0 then
      if 0 ≤ nr ∧ nr < NR_syscalls then
        (callTable fakeroot nr.toNat).callBefore.map fun b => (calling fakeroot s, .before b)
      else none
    else if s.slave.restartCall = 0 then s.slave.nextCall.map fun a => (leaving s, .after a)
    else none

/-- Nothing is followed that is not there. -/
structure SlotsSafe (fakeroot : Bool) (t : Tracee σ) : Prop where
  before : ∀ s b, calledAt fakeroot t = some (s, .before b) →
    ∀ fd ∈ b.slots s.slave, s.slave.occupied fd
  after : ∀ s a, calledAt fakeroot t = some (s, .after a) →
    ∀ fd ∈ a.slots s.slave, s.slave.occupied fd
  fsp : ∀ s a, calledAt fakeroot t = some (s, .after a) → a ∈ After.okfsOnly →
    (s.slave.trackedFsp s.slave.arg1.toInt).isSome

/-- `mmap` or `mmap2` of a descriptor that OKFS does not know. -/
def MapsUnknown (fakeroot : Bool) (t : Tracee σ) : Prop :=
  t.slave.duringCall = 0 ∧ (t.regs.origEax = 90 ∨ t.regs.origEax = 192) ∧
    ∃ s, fetch fakeroot t = .ok s ∧ s.slave.arg4 &&& MAP_ANONYMOUS = 0 ∧
      0 ≤ s.slave.arg5.toInt ∧ s.slave.arg5.toInt < OPEN_MAX ∧
      t.slave.fdTab s.slave.arg5.toInt.toNat = none

-- ---------------------------------------------------------------------------
-- Runs
-- ---------------------------------------------------------------------------

/-- Between two stops the table is left alone. Inside a call the kernel leaves the registers
but `eax`, unless the call is `execve` or one of the two `sigreturn`. -/
structure Untouched (s t : Tracee σ) : Prop extends Meanwhile s t where
  fdTab : t.slave.fdTab = s.slave.fdTab
  regs : s.slave.duringCall ∉ [0, 11, 119, 173] → t.regs = { s.regs with eax := t.regs.eax }

/-- The states of a task and of its children after the stops that OKFS has handled. -/
inductive Handled (h : Host σ) (fakeroot : Bool) : Tracee σ → Prop
  | start (s : Tracee σ) (hfresh : Fresh s) : Handled h fakeroot s
  | stop (s t s' : Tracee σ) (child : Option (Tracee σ)) (hhandled : Handled h fakeroot s)
      (hstop : Untouched s t) (hs' : handleSyscall h fakeroot t = .ok (s', child)) :
      Handled h fakeroot s'
  | child (s t s' c : Tracee σ) (hhandled : Handled h fakeroot s) (hstop : Untouched s t)
      (hs' : handleSyscall h fakeroot t = .ok (s', some c)) : Handled h fakeroot c

theorem Handled.reached (hhandled : Handled h fakeroot s) : Reached h fakeroot s := by
  induction hhandled with
  | start s hfresh => exact .start s hfresh
  | stop s t s' child _ hstop hs' ih => exact .stop s t s' child ih hstop.toMeanwhile hs'
  | child s t s' c _ hstop hs' ih => exact .child s t s' c ih hstop.toMeanwhile hs'

-- ---------------------------------------------------------------------------
-- The slots and the handlers
-- ---------------------------------------------------------------------------

theorem filep_ok_iff (slave : Slave) (fd : Int) :
    slave.filep fd = .ok filep ↔ slave.tracked fd = some filep := by
  unfold Slave.filep Slave.file Slave.tracked
  split
  · cases slave.fdTab fd.toNat with
    | none => simp [bind, Except.bind]
    | some filep' => simp [bind, Except.bind, pure, Except.pure]
  · simp [bind, Except.bind]

/-- A slot that is empty or outside of the table. -/
theorem filep_missing {slave : Slave} (hfd : ¬ slave.occupied fd) :
    slave.filep fd = .error .segv ∨ slave.filep fd = .error .undefined := by
  unfold Slave.occupied Slave.tracked at hfd
  unfold Slave.filep Slave.file
  split
  · rename_i hbounds
    rw [if_pos hbounds] at hfd
    have hnone : slave.fdTab fd.toNat = none := by simpa using hfd
    rw [hnone]
    exact .inl rfl
  · exact .inr rfl

theorem entryOf_ok {slave : Slave} {fsp : OkfsSuperblock} (hfd : slave.trackedFsp fd = some fsp) :
    ∃ filep, slave.entryOf fd = .ok (filep, fsp) := by
  obtain ⟨filep, htracked, hfsp⟩ := Option.bind_eq_some_iff.mp hfd
  have hfilep := (filep_ok_iff slave fd).mpr htracked
  exact ⟨filep, by simp [Slave.entryOf, hfilep, hfsp, bind, Except.bind, pure, Except.pure]⟩

theorem entryOf_missing {slave : Slave} (hfd : ¬ slave.occupied fd) :
    slave.entryOf fd = .error .segv ∨ slave.entryOf fd = .error .undefined := by
  unfold Slave.entryOf
  rcases filep_missing hfd with hmissing | hmissing
  · exact .inl (by rw [hmissing]; rfl)
  · exact .inr (by rw [hmissing]; rfl)

/-- No `NULL` has been followed. -/
def NoSegv {α : Type} (x : Except Ending α) : Prop := x ≠ .error .segv

theorem NoSegv.ok {α : Type} (a : α) : NoSegv (.ok a : Except Ending α) := by
  intro heq
  cases heq

theorem NoSegv.bind {α β : Type} {x : Except Ending α} {f : α → Except Ending β} (hx : NoSegv x)
    (hf : ∀ a, x = .ok a → NoSegv (f a)) : NoSegv (x >>= f) := by
  cases x with
  | error e =>
    intro heq
    obtain rfl : e = .segv := Except.error.inj heq
    exact hx rfl
  | ok a => exact hf a rfl

/-- The first step is known to go well. -/
theorem NoSegv.after {α β : Type} {x : Except Ending α} {f : α → Except Ending β} {a : α}
    (hx : x = .ok a) (hf : NoSegv (f a)) : NoSegv (x >>= f) := by
  rw [hx]
  exact hf

theorem NoSegv.onlyIf {c : Prop} [Decidable c] {m : Except Ending (Tracee σ)} (hm : NoSegv m) :
    NoSegv (Syscall.onlyIf c s m) := by
  unfold Syscall.onlyIf
  split
  · exact hm
  · exact .ok s

theorem peek_noSegv (m : Memory) (a : Nat) : NoSegv (m.peek a) := by
  unfold Memory.peek
  split
  · exact .ok _
  · exact fun heq => by cases heq

theorem poke_noSegv (m : Memory) (a : Nat) (w : Word) : NoSegv (m.poke a w) := by
  unfold Memory.poke
  split
  · exact .ok _
  · exact fun heq => by cases heq

theorem set_noSegv (m : Memory) (d : Nat) (src : Nat → ByteMemory.Byte) (n : Nat) :
    NoSegv (m.set d src n) := by
  fun_induction Memory.set m d src n with
  | case1 m d src n ih => exact (poke_noSegv m d _).bind fun m' _ => ih m'
  | case2 m => exact .ok m
  | case3 m d src n => exact (peek_noSegv m d).bind fun _ _ => poke_noSegv m d _

theorem get_noSegv (m : Memory) (a : Nat) (n : Nat) : NoSegv (m.get a n) := by
  fun_induction Memory.get m a n with
  | case1 a n ih => exact (peek_noSegv m a).bind fun _ _ => ih.bind fun _ _ => .ok _
  | case2 => exact .ok []
  | case3 a n => exact (peek_noSegv m a).bind fun _ _ => .ok _

theorem setSlaveArgs_noSegv (s : Tracee σ) : NoSegv (setSlaveArgs s) := by
  unfold setSlaveArgs
  split
  · exact (set_noSegv _ _ _ _).bind fun _ _ => .ok _
  · exact .ok _

theorem setSlaveReturn_noSegv (s : Tracee σ) (value : Int) : NoSegv (setSlaveReturn s value) :=
  setSlaveArgs_noSegv _

theorem dummyCall_noSegv (s : Tracee σ) : NoSegv (dummyCall s) := setSlaveArgs_noSegv _

theorem forceCallReturn_noSegv (s : Tracee σ) (retval : Int) : NoSegv (forceCallReturn s retval) :=
  setSlaveArgs_noSegv _

theorem slaveMemset_noSegv (s : Tracee σ) (d : Word) (src : Nat → ByteMemory.Byte) (n : Nat) :
    NoSegv (slaveMemset s d src n) :=
  (set_noSegv _ _ _ _).bind fun _ _ => .ok _

theorem slaveMemget_noSegv (s : Tracee σ) (src : Word) (n : Int) : NoSegv (slaveMemget s src n) := by
  unfold slaveMemget
  split
  · exact (peek_noSegv _ _).bind fun _ _ => .ok _
  · exact get_noSegv _ _ _

theorem malloc_noSegv (h : Host σ) (s : Tracee σ) (size : Nat) : NoSegv (malloc h s size) := by
  unfold malloc
  split
  · exact .ok ()
  · exact fun heq => by cases heq

theorem okfsFdCall_noSegv (s : Tracee σ) : NoSegv (okfsFdCall s) := by
  unfold okfsFdCall
  split
  · exact dummyCall_noSegv s
  · exact .ok _

theorem okfsOpOnFd_noSegv (s : Tracee σ) : NoSegv (okfsOpOnFd s) := by
  unfold okfsOpOnFd
  split
  · exact .ok _
  · exact .ok _

theorem okfsOnlyOs_noSegv (s : Tracee σ) : NoSegv (okfsOnlyOs s) := by
  unfold okfsOnlyOs
  split
  · exact forceCallReturn_noSegv s _
  · exact .ok _

theorem okfsBeforeFcntl_noSegv (s : Tracee σ) : NoSegv (okfsBeforeFcntl s) := by
  unfold okfsBeforeFcntl
  simp only
  split
  · exact .ok _
  split
  · exact .ok _
  split
  · exact forceCallReturn_noSegv s _
  split
  · exact forceCallReturn_noSegv s _
  · exact .ok _

/-- It follows a slot that it has only compared with the bounds of the table. -/
theorem okfsBeforeMmap_segv_iff (s : Tracee σ) :
    okfsBeforeMmap s = .error .segv ↔
      ∃ fd ∈ Before.okfsBeforeMmap.slots s.slave, ¬ s.slave.occupied fd := by
  unfold Before.slots okfsBeforeMmap
  simp only
  by_cases hanon : s.slave.arg4 &&& MAP_ANONYMOUS ≠ 0
  · rw [if_pos hanon, if_pos (.inl hanon)]
    exact iff_of_false (NoSegv.ok _) (by simp)
  rw [if_neg hanon]
  by_cases hbounds : s.slave.arg5.toInt < 0 ∨ s.slave.arg5.toInt ≥ OPEN_MAX
  · rw [if_pos hbounds, if_pos (.inr hbounds)]
    exact iff_of_false (NoSegv.ok _) (by simp)
  rw [if_neg hbounds, if_neg (not_or.mpr ⟨hanon, hbounds⟩)]
  simp only [List.mem_singleton, exists_eq_left]
  have hinside : 0 ≤ s.slave.arg5.toInt ∧ s.slave.arg5.toInt < OPEN_MAX := by omega
  by_cases hfd : s.slave.occupied s.slave.arg5.toInt
  · refine iff_of_false ?_ (not_not.mpr hfd)
    obtain ⟨filep, htracked⟩ := Option.isSome_iff_exists.mp hfd
    rw [(filep_ok_iff _ _).mpr htracked]
    simp only [bind, Except.bind]
    split
    · exact NoSegv.ok _
    · exact forceCallReturn_noSegv s _
  · refine iff_of_true ?_ hfd
    have hempty : s.slave.fdTab s.slave.arg5.toInt.toNat = none := by
      unfold Slave.occupied Slave.tracked at hfd
      rw [if_pos hinside] at hfd
      simpa using hfd
    unfold Slave.filep Slave.file
    rw [if_pos hinside, hempty]
    rfl

theorem guarded_slots {b : Before} (hslots : b.slots s.slave =
    if s.slave.occupied s.slave.arg1.toInt then [s.slave.arg1.toInt] else []) :
    ¬ ∃ fd ∈ b.slots s.slave, ¬ s.slave.occupied fd := by
  rintro ⟨fd, hfd, hmissing⟩
  rw [hslots] at hfd
  split at hfd
  · rw [List.mem_singleton.mp hfd] at hmissing
    exact hmissing ‹_›
  · exact absurd hfd List.not_mem_nil

/-- The slots of a handler at the entry are those that can end it. -/
theorem Before.run_segv_iff {b : Before}
    (hb : b ∈ [.okfsFdCall, .okfsOpOnFd, .okfsOnlyOs, .okfsBeforeFcntl, .okfsBeforeMmap]) :
    b.run h s = .error .segv ↔ ∃ fd ∈ b.slots s.slave, ¬ s.slave.occupied fd := by
  simp only [List.mem_cons, List.not_mem_nil, or_false] at hb
  rcases hb with rfl | rfl | rfl | rfl | rfl
  · exact iff_of_false (okfsFdCall_noSegv s) (guarded_slots rfl)
  · exact iff_of_false (okfsOpOnFd_noSegv s) fun ⟨_, hfd, _⟩ => List.not_mem_nil hfd
  · exact iff_of_false (okfsOnlyOs_noSegv s) (guarded_slots rfl)
  · exact iff_of_false (okfsBeforeFcntl_noSegv s) (guarded_slots rfl)
  · exact okfsBeforeMmap_segv_iff s

-- ---------------------------------------------------------------------------
-- The handlers at the end
-- ---------------------------------------------------------------------------

section Entry

variable {fsp : OkfsSuperblock}

theorem okfsRead_noSegv (hentry : s.slave.entryOf s.slave.arg1.toInt = .ok (filep, fsp)) :
    NoSegv (okfsRead h s) := by
  refine NoSegv.after hentry ?_
  simp only
  split
  · exact setSlaveReturn_noSegv _ _
  split
  · refine (malloc_noSegv h s _).bind fun _ _ => ?_
    refine NoSegv.bind (NoSegv.onlyIf ?_) fun _ _ => setSlaveReturn_noSegv _ _
    exact (slaveMemset_noSegv _ _ _ _).bind fun _ _ => .ok _
  · exact setSlaveReturn_noSegv _ _

theorem okfsWrite_noSegv (hentry : s.slave.entryOf s.slave.arg1.toInt = .ok (filep, fsp)) :
    NoSegv (okfsWrite h s) := by
  refine NoSegv.after hentry ?_
  simp only
  split
  · exact setSlaveReturn_noSegv _ _
  split
  · refine (malloc_noSegv h s _).bind fun _ _ => ?_
    exact (slaveMemget_noSegv s _ _).bind fun _ _ => setSlaveReturn_noSegv _ _
  · exact setSlaveReturn_noSegv _ _

theorem okfsLseek_noSegv (hentry : s.slave.entryOf s.slave.arg1.toInt = .ok (filep, fsp)) :
    NoSegv (okfsLseek h s) := by
  refine NoSegv.after hentry ?_
  simp only
  split
  · exact setSlaveReturn_noSegv _ _
  split
  · exact setSlaveReturn_noSegv _ _
  · exact setSlaveReturn_noSegv _ _

theorem fdStruct_noSegv (hentry : s.slave.entryOf s.slave.arg1.toInt = .ok (filep, fsp))
    (op : FsOp) (size : Nat) : NoSegv (fdStruct h op size s) := by
  refine NoSegv.after hentry ?_
  exact NoSegv.bind (NoSegv.onlyIf (slaveMemset_noSegv _ _ _ _)) fun _ _ => setSlaveReturn_noSegv _ _

theorem okfsFstat64_noSegv (hentry : s.slave.entryOf s.slave.arg1.toInt = .ok (filep, fsp)) :
    NoSegv (okfsFstat64 h s) := by
  refine NoSegv.after hentry ?_
  refine NoSegv.bind (NoSegv.onlyIf ?_) fun _ _ => setSlaveReturn_noSegv _ _
  exact (slaveMemset_noSegv _ _ _ _).bind fun _ _ =>
    (slaveMemget_noSegv _ _ _).bind fun _ _ => .ok _

theorem getdents_noSegv (hentry : s.slave.entryOf s.slave.arg1.toInt = .ok (filep, fsp))
    (creat : List OkfsDirent → Int → Nat → Option (Int × List UserDirent))
    (bytes : List UserDirent → Nat → ByteMemory.Byte) : NoSegv (getdents h creat bytes s) := by
  refine NoSegv.after hentry ?_
  split
  · exact setSlaveReturn_noSegv _ _
  split
  · exact setSlaveReturn_noSegv _ _
  · refine (malloc_noSegv h s _).bind fun _ _ => ?_
    split
    · exact fun heq => by cases heq
    · refine NoSegv.bind (NoSegv.onlyIf ?_) fun _ _ => setSlaveReturn_noSegv _ _
      exact (slaveMemset_noSegv _ _ _ _).bind fun _ _ => .ok _

end Entry

/-- With a file of OKFS there is nothing missing for such a handler. -/
theorem okfsOnly_noSegv {after : After} (hafter : after ∈ After.okfsOnly)
    (hfsp : (s.slave.trackedFsp s.slave.arg1.toInt).isSome) : NoSegv (after.runAlone h s) := by
  obtain ⟨fsp, hfsp⟩ := Option.isSome_iff_exists.mp hfsp
  obtain ⟨filep, hentry⟩ := entryOf_ok hfsp
  simp only [After.okfsOnly, List.mem_cons, List.not_mem_nil, or_false] at hafter
  rcases hafter with rfl | rfl | rfl | rfl | rfl | rfl | rfl | rfl | rfl | rfl | rfl
  · exact okfsRead_noSegv hentry
  · exact okfsWrite_noSegv hentry
  · exact okfsLseek_noSegv hentry
  · exact NoSegv.after hentry (setSlaveReturn_noSegv _ _)
  · exact NoSegv.after hentry (setSlaveReturn_noSegv _ _)
  · exact NoSegv.after hentry (setSlaveReturn_noSegv _ _)
  · exact fdStruct_noSegv hentry _ _
  · exact fdStruct_noSegv hentry _ _
  · exact okfsFstat64_noSegv hentry
  · exact getdents_noSegv hentry _ _
  · exact getdents_noSegv hentry _ _

/-- A `NULL` is followed, or what is behind the end of the table. -/
def Faults {α : Type} (x : Except Ending α) : Prop := x = .error .segv ∨ x = .error .undefined

theorem Faults.bind {α β : Type} {x : Except Ending α} (hx : Faults x) (f : α → Except Ending β) :
    Faults (x >>= f) := by
  rcases hx with rfl | rfl
  · exact .inl rfl
  · exact .inr rfl

theorem entryOf_faults {slave : Slave} (hfsp : slave.trackedFsp fd = none) :
    Faults (slave.entryOf fd) := by
  by_cases hfd : slave.occupied fd
  · obtain ⟨filep, htracked⟩ := Option.isSome_iff_exists.mp hfd
    have hnone : filep.fsp = none := by
      rwa [Slave.trackedFsp, htracked, Option.bind_some] at hfsp
    left
    unfold Slave.entryOf
    rw [(filep_ok_iff slave fd).mpr htracked]
    simp [hnone, Bind.bind, Except.bind]
  · exact entryOf_missing hfd

/-- And without one it is followed. -/
theorem okfsOnly_faults {after : After} (hafter : after ∈ After.okfsOnly)
    (hfsp : s.slave.trackedFsp s.slave.arg1.toInt = none) : Faults (after.runAlone h s) := by
  have hentry := entryOf_faults hfsp
  simp only [After.okfsOnly, List.mem_cons, List.not_mem_nil, or_false] at hafter
  rcases hafter with rfl | rfl | rfl | rfl | rfl | rfl | rfl | rfl | rfl | rfl | rfl
  all_goals exact hentry.bind _

theorem okfsDoDup_noSegv {slave : Slave} {newfd : Int} (hfd : slave.occupied fd) :
    NoSegv (okfsDoDup slave fd newfd) := by
  obtain ⟨filep, htracked⟩ := Option.isSome_iff_exists.mp hfd
  unfold okfsDoDup
  split
  · exact .ok _
  · exact .after ((filep_ok_iff slave fd).mpr htracked) (.ok _)

theorem okfsDoDup_faults {slave : Slave} {newfd : Int} (hnewfd : 0 ≤ newfd)
    (hfd : ¬ slave.occupied fd) : Faults (okfsDoDup slave fd newfd) := by
  unfold okfsDoDup
  rw [if_neg (by omega)]
  exact Faults.bind (filep_missing hfd) _

/-- The slots of a handler at the end are those that it cannot go on without. -/
theorem After.runAlone_faults {after : After}
    (hmissing : ∃ fd ∈ after.slots s.slave, ¬ s.slave.occupied fd) : Faults (after.runAlone h s) := by
  obtain ⟨fd, hfd, hempty⟩ := hmissing
  unfold After.slots at hfd
  simp only at hfd
  split at hfd
  · rename_i honly
    obtain rfl := List.mem_singleton.mp hfd
    have hnone : s.slave.tracked s.slave.arg1.toInt = none := by
      simpa [Slave.occupied] using hempty
    exact okfsOnly_faults honly (by rw [Slave.trackedFsp, hnone]; rfl)
  · split at hfd
    · obtain rfl := List.mem_singleton.mp hfd
      exact Faults.bind (filep_missing hempty) _
    · split at hfd
      · rename_i hret
        obtain rfl := List.mem_singleton.mp hfd
        show Faults (Syscall.okfsDup s)
        unfold Syscall.okfsDup
        simp only
        rw [if_neg (by omega)]
        exact Faults.bind (okfsDoDup_faults hret.1 hempty) _
      · exact absurd hfd List.not_mem_nil
    · -- it has made the test itself
      split at hfd
      · rcases List.mem_append.mp hfd with hnew | hold
        · split at hnew
          · rename_i hoccupied
            obtain rfl := List.mem_singleton.mp hnew
            exact absurd hoccupied hempty
          · exact absurd hnew List.not_mem_nil
        · split at hold
          · rename_i hoccupied
            obtain rfl := List.mem_singleton.mp hold
            exact absurd hoccupied.1 hempty
          · exact absurd hold List.not_mem_nil
      · exact absurd hfd List.not_mem_nil
    · split at hfd
      · rename_i hret
        obtain ⟨hcmd, hret⟩ := hret
        obtain rfl := List.mem_singleton.mp hfd
        show Faults (Syscall.okfsAfterFcntl s)
        unfold Syscall.okfsAfterFcntl
        simp only
        rw [if_neg (by omega), if_pos hcmd, if_neg (by omega)]
        exact Faults.bind (okfsDoDup_faults hret.1 hempty) _
      · exact absurd hfd List.not_mem_nil
    · exact absurd hfd List.not_mem_nil

theorem okfsDup2_noSegv (s : Tracee σ) : NoSegv (okfsDup2 s) := by
  unfold okfsDup2
  simp only
  split
  · exact .ok s
  split
  · exact setSlaveReturn_noSegv s _
  split
  · exact .ok _
  · rename_i filep htracked
    refine (okfsDoDup_noSegv ?_).bind fun _ _ => .ok _
    rw [Slave.occupied, htracked]
    rfl

/-- The handlers of the table of descriptors. -/
theorem tableCall_noSegv {after : After}
    (hafter : after ∈ [.okfsAfterClose, .okfsDup, .okfsDup2, .okfsAfterFcntl])
    (hslots : ∀ fd ∈ after.slots s.slave, s.slave.occupied fd) : NoSegv (after.runAlone h s) := by
  simp only [List.mem_cons, List.not_mem_nil, or_false] at hafter
  rcases hafter with rfl | rfl | rfl | rfl
  · have hfd := hslots s.slave.arg1.toInt (List.mem_singleton_self _)
    obtain ⟨filep, htracked⟩ := Option.isSome_iff_exists.mp hfd
    exact .after ((filep_ok_iff s.slave _).mpr htracked) (.ok _)
  · show NoSegv (okfsDup s)
    unfold okfsDup
    simp only
    split
    · exact setSlaveReturn_noSegv s _
    · refine NoSegv.bind ?_ fun _ _ => .ok _
      by_cases hret : s.slave.returnValue < 0
      · unfold okfsDoDup
        rw [if_pos hret]
        exact .ok _
      · refine okfsDoDup_noSegv (hslots s.slave.arg1.toInt ?_)
        unfold After.slots
        rw [if_neg (by decide)]
        simp only
        rw [if_pos (by omega)]
        exact List.mem_singleton_self _
  · exact okfsDup2_noSegv s
  · show NoSegv (okfsAfterFcntl s)
    unfold okfsAfterFcntl
    simp only
    split
    · exact .ok s
    split
    · split
      · exact setSlaveReturn_noSegv s _
      · rename_i hcmd hret
        refine NoSegv.bind (okfsDoDup_noSegv (hslots s.slave.arg1.toInt ?_)) fun _ _ => .ok _
        unfold After.slots
        rw [if_neg (by decide)]
        simp only
        rw [if_pos ⟨hcmd, by omega⟩]
        exact List.mem_singleton_self _
    split
    · split
      · exact .ok _
      · exact fun heq => by cases heq
    · exact .ok s

-- ---------------------------------------------------------------------------
-- Who leaves what in next_call
-- ---------------------------------------------------------------------------

/-- What is asked of the rows with handlers that follow slots, in one pass over the table. -/
theorem slot_rows : ∀ fakeroot, ∀ nr < NR_syscalls,
    ((callTable fakeroot nr).callAfter ∈ After.okfsOnly.map some →
      (callTable fakeroot nr).callBefore = some .okfsFdCall) ∧
    ((callTable fakeroot nr).callAfter ∈ [some .okfsAfterClose, some .okfsDup] →
      (callTable fakeroot nr).callBefore = some .okfsOpOnFd) ∧
    (callTable fakeroot nr).callAfter ≠ some .okfsAfterFcntl ∧
    ((callTable fakeroot nr).callBefore = some .okfsBeforeMmap ↔ nr = 90 ∨ nr = 192) := by
  decide +kernel

/-- Such a row is not that of a call with other registers at its end. -/
theorem quiet_rows : ∀ fakeroot, ∀ nr < NR_syscalls,
    (callTable fakeroot nr).callBefore ∈
        [some .okfsFdCall, some .okfsOpOnFd, some .okfsBeforeFcntl] →
      (callTable fakeroot nr).hasStackArgs = false ∧ nr ∉ [0, 11, 119, 173] := by
  decide +kernel

theorem procPath1_next {option : Nat} {r : Except Errno Unit}
    (hproc : procPath1 h option s = .ok (r, s')) : s'.slave.nextCall = s.slave.nextCall := by
  obtain ⟨⟨path, canon⟩, -, hlast⟩ := bind_ok.mp hproc
  obtain ⟨-, rfl⟩ := Prod.mk.inj (Except.ok.inj hlast)
  rfl

theorem procPath2_next {option : Nat} {r : Except Errno Unit}
    (hproc : procPath2 h option s = .ok (r, s')) : s'.slave.nextCall = s.slave.nextCall := by
  obtain ⟨⟨path, canon⟩, -, hlast⟩ := bind_ok.mp hproc
  obtain ⟨-, rfl⟩ := Prod.mk.inj (Except.ok.inj hlast)
  rfl

/-- The handlers whose slots are looked at when the call is entered. -/
def After.guarded : List After := okfsOnly ++ [.okfsAfterClose, .okfsDup, .okfsAfterFcntl]

/-- `next_call` is kept, or a handler is put there for which nothing has to be looked at. -/
def KeepsNext (s s' : Tracee σ) : Prop :=
  s'.slave.nextCall = s.slave.nextCall ∨ s'.slave.nextCall ∉ After.guarded.map some

theorem KeepsNext.next (next : Option After) (hnext : s'.slave.nextCall = next)
    (hother : next ∉ After.guarded.map some) : KeepsNext s s' :=
  .inr (by rwa [hnext])

theorem KeepsNext.forced {retval : Int} (hforce : forceCallReturn s₁ retval = .ok s') :
    KeepsNext s s' :=
  .next (some .returnSaved) (forceCallReturn_next hforce) (by decide)

theorem failOpening_keeps {ret : Int} (hs' : failOpening ret s₁ = .ok s') : KeepsNext s s' := by
  obtain ⟨s₂, hforce, hlast⟩ := bind_ok.mp hs'
  obtain rfl := Except.ok.inj hlast
  have hnext := forceCallReturn_next hforce
  exact .next (some .returnSaved) hnext (by decide)

theorem beforeOpening_keeps {flags : Word} {mode : Int} {callNr : Word → Word}
    (hs' : beforeOpening h flags mode callNr s = .ok s') : KeepsNext s s' := by
  obtain ⟨⟨r, s₁⟩, -, hrest⟩ := bind_ok.mp hs'
  simp only at hrest
  split at hrest
  · exact failOpening_keeps hrest
  split at hrest
  · split at hrest
    · exact failOpening_keeps hrest
    · obtain ⟨s₂, -, hset⟩ := bind_ok.mp hrest
      exact .next (some .okfsAfterOkfsOpen) (setSlaveArgs_next hset) (by decide)
  · obtain ⟨s₂, -, hlast⟩ := bind_ok.mp hrest
    obtain rfl := Except.ok.inj hlast
    exact .next (some .okfsAfterLinuxOpen) rfl (by decide)

theorem okfsBeforeLnkRnm_keeps (hs' : okfsBeforeLnkRnm h s = .ok s') : KeepsNext s s' := by
  obtain ⟨⟨r₁, s₁⟩, hproc₁, hrest⟩ := bind_ok.mp hs'
  simp only at hrest
  split at hrest
  · exact failOpening_keeps hrest
  · obtain ⟨⟨r₂, s₂⟩, hproc₂, hrest⟩ := bind_ok.mp hrest
    simp only at hrest
    split at hrest
    · obtain ⟨s₃, hforce, hlast⟩ := bind_ok.mp hrest
      obtain rfl := Except.ok.inj hlast
      have hnext := forceCallReturn_next hforce
      exact .next (some .returnSaved) hnext (by decide)
    · split at hrest
      · left
        rw [dummyCall_next hrest, procPath2_next hproc₂, procPath1_next hproc₁]
      · exact .forced hrest

theorem beforeWait_keeps (hs' : beforeWait h s = .ok s') : KeepsNext s s' := by
  unfold beforeWait at hs'
  simp only at hs'
  split at hs'
  · obtain rfl := Except.ok.inj hs'
    exact .inl rfl
  split at hs'
  · exact .next (some .afterWaitIsstopped) (setSlaveArgs_next hs') (by decide)
  · obtain rfl := Except.ok.inj hs'
    exact .next (some .afterWaitIszombie) rfl (by decide)
  · obtain rfl := Except.ok.inj hs'
    exact .inl rfl
  · split at hs'
    · obtain rfl := Except.ok.inj hs'
      exact .next (some .afterWaitWnohang) rfl (by decide)
    · obtain rfl := Except.ok.inj hs'
      exact .inl rfl

theorem okfsOnlyOs_keeps (hs' : okfsOnlyOs s = .ok s') : KeepsNext s s' := by
  unfold okfsOnlyOs at hs'
  split at hs'
  · exact .forced hs'
  · obtain rfl := Except.ok.inj hs'
    exact .inl rfl

theorem okfsBeforeMmap_keeps (hs' : okfsBeforeMmap s = .ok s') : KeepsNext s s' := by
  unfold okfsBeforeMmap at hs'
  simp only at hs'
  split at hs'
  · obtain rfl := Except.ok.inj hs'
    exact .inl rfl
  split at hs'
  · obtain rfl := Except.ok.inj hs'
    exact .inl rfl
  obtain ⟨filep, -, hrest⟩ := bind_ok.mp hs'
  split at hrest
  · obtain rfl := Except.ok.inj hrest
    exact .inl rfl
  · exact .forced hrest

theorem beforeClone_keeps (hs' : beforeClone h s = .ok s') : KeepsNext s s' := by
  unfold beforeClone at hs'
  split at hs'
  · exact .forced hs'
  · obtain ⟨s₁, -, hlast⟩ := bind_ok.mp hs'
    obtain rfl := Except.ok.inj hlast
    exact .next (some .afterFork) rfl (by decide)

/-- A call has kept `next_call` only if it has something to follow. -/
theorem okfsFdCall_next (hs' : okfsFdCall s = .ok s') :
    s'.slave.nextCall = none ∨ (s.slave.trackedFsp s.slave.arg1.toInt).isSome ∧ dummyCall s = .ok s' := by
  unfold okfsFdCall at hs'
  split at hs'
  · rename_i fsp hfsp
    exact .inr ⟨by rw [hfsp]; rfl, hs'⟩
  · obtain rfl := Except.ok.inj hs'
    exact .inl rfl

theorem okfsOpOnFd_next (hs' : okfsOpOnFd s = .ok s') :
    s'.slave.nextCall = none ∨ s.slave.occupied s.slave.arg1.toInt ∧ s' = s := by
  unfold okfsOpOnFd at hs'
  split at hs'
  · rename_i filep htracked
    obtain rfl := Except.ok.inj hs'
    exact .inr ⟨by rw [Slave.occupied, htracked]; rfl, rfl⟩
  · obtain rfl := Except.ok.inj hs'
    exact .inl rfl

theorem okfsBeforeFcntl_next (hs' : okfsBeforeFcntl s = .ok s') : KeepsNext s s' ∨
    s.slave.occupied s.slave.arg1.toInt ∧
      s' = { s with slave := { s.slave with nextCall := some .okfsAfterFcntl } } := by
  unfold okfsBeforeFcntl at hs'
  simp only at hs'
  split at hs'
  · obtain rfl := Except.ok.inj hs'
    exact .inl (.inl rfl)
  · rename_i filep htracked
    have hoccupied : s.slave.occupied s.slave.arg1.toInt := by
      rw [Slave.occupied, htracked]
      rfl
    split at hs'
    · exact .inr ⟨hoccupied, (Except.ok.inj hs').symm⟩
    split at hs'
    · exact .inl (.forced hs')
    split at hs'
    · exact .inl (.forced hs')
    · exact .inr ⟨hoccupied, (Except.ok.inj hs').symm⟩

theorem Before.run_keeps {b : Before} (hb : b ≠ .okfsBeforeFcntl) (hs' : b.run h s = .ok s') :
    KeepsNext s s' := by
  cases b with
  | okfsBeforeFcntl => exact absurd rfl hb
  | beforeFork =>
    obtain ⟨mem, rplCode, rplDest, rfl⟩ := slaveRplMem_spec hs'
    exact .inl rfl
  | okfsFdCall =>
    rcases okfsFdCall_next hs' with hnone | ⟨-, hdummy⟩
    · exact .next none hnone (by decide)
    · exact .inl (dummyCall_next hdummy)
  | okfsBeforeOpen | okfsBeforeCreat => exact beforeOpening_keeps hs'
  | okfsOpOnFd =>
    rcases okfsOpOnFd_next hs' with hnone | ⟨-, rfl⟩
    · exact .next none hnone (by decide)
    · exact .inl rfl
  | beforeWait => exact beforeWait_keeps hs'
  | okfsBeforeLnkRnm => exact okfsBeforeLnkRnm_keeps hs'
  | dummyCall => exact .inl (dummyCall_next hs')
  | beforeExecve =>
    obtain rfl := Except.ok.inj hs'
    exact .inl rfl
  | unimplementedCall | notSupported => exact .forced hs'
  | okfsOnlyOs => exact okfsOnlyOs_keeps hs'
  | okfsBeforeMmap => exact okfsBeforeMmap_keeps hs'
  | beforeClone => exact beforeClone_keeps hs'

-- ---------------------------------------------------------------------------
-- Between the two stops
-- ---------------------------------------------------------------------------

/-- The slot of the first argument has been looked at, and will be the same one later. -/
structure Checked (fakeroot : Bool) (s : Tracee σ) (after : After) : Prop where
  occupied : s.slave.occupied s.regs.ebx.toInt
  fsp : after ∈ After.okfsOnly → (s.slave.trackedFsp s.regs.ebx.toInt).isSome
  quiet : s.slave.duringCall ∉ [0, 11, 119, 173]
  stack : (callTable fakeroot (argsRow s.regs.origEax.toInt)).hasStackArgs = false

/-- What is left in `next_call` has what it needs. -/
def Guarded (fakeroot : Bool) (s : Tracee σ) : Prop :=
  s.slave.duringCall ≠ 0 → ∀ after ∈ After.guarded, s.slave.nextCall = some after →
    Checked fakeroot s after

theorem occupied_of_fsp {slave : Slave} (hfsp : (slave.trackedFsp fd).isSome) : slave.occupied fd := by
  obtain ⟨fsp, hfsp⟩ := Option.isSome_iff_exists.mp hfsp
  obtain ⟨filep, htracked, -⟩ := Option.bind_eq_some_iff.mp hfsp
  rw [Slave.occupied, htracked]
  rfl

/-- The handler of a row is called in the state `calling`. -/
theorem enter_row (henter : enter h fakeroot s = .ok s')
    (hnr : ¬ s.slave.regs.origEax.toInt > NR_syscalls) :
    0 ≤ s.slave.regs.origEax.toInt ∧
      (∀ b, (callTable fakeroot s.slave.regs.origEax.toInt.toNat).callBefore = some b →
        b.run h (calling fakeroot s) = .ok s') ∧
      ((callTable fakeroot s.slave.regs.origEax.toInt.toNat).callBefore = none →
        s' = calling fakeroot s) := by
  have heq : { s with slave := { s.slave with
        duringCall := s.slave.regs.origEax.toInt
        nextCall := (callTable fakeroot s.slave.regs.origEax.toInt.toNat).callAfter } } =
      calling fakeroot s := by
    simp only [calling, if_neg hnr]
  unfold enter at henter
  simp only [if_neg hnr, heq] at henter
  split at henter
  · exact absurd henter (by simp)
  · rename_i hbounds
    refine ⟨by omega, fun b hb => ?_, fun hnone => ?_⟩
    · rwa [hb] at henter
    · rw [hnone] at henter
      exact (Except.ok.inj henter).symm

/-- The row of a handler for which something is looked at has the handler that does it. -/
theorem guard_row {nr : Nat} {after : After} (hlt : nr < NR_syscalls) (hafter : after ∈ After.guarded)
    (hrow : (callTable fakeroot nr).callAfter = some after) :
    (callTable fakeroot nr).callBefore = some .okfsFdCall ∨
      after ∉ After.okfsOnly ∧ (callTable fakeroot nr).callBefore = some .okfsOpOnFd := by
  obtain ⟨honly, htable, hfcntl, -⟩ := slot_rows fakeroot nr hlt
  rw [hrow] at honly htable hfcntl
  rcases List.mem_append.mp hafter with hmem | hmem
  · exact .inl (honly (List.mem_map_of_mem hmem))
  · simp only [List.mem_cons, List.not_mem_nil, or_false] at hmem
    rcases hmem with rfl | rfl | rfl
    · exact .inr ⟨by decide, htable (by decide)⟩
    · exact .inr ⟨by decide, htable (by decide)⟩
    · exact absurd rfl hfcntl

section Entry

variable {after : After} (hf : Fetched s) (hsame : s.slave.regs = s.regs)
  (hstack : s.slave.hasStackArgs =
    (callTable fakeroot (argsRow s.slave.regs.origEax.toInt)).hasStackArgs)
  (hbounds : 0 ≤ s.slave.regs.origEax.toInt ∧ s.slave.regs.origEax.toInt < NR_syscalls)

include hf hsame hstack hbounds

/-- A row with a handler that looks at the slot: the argument is in a register. -/
theorem looks_at {b : Before} (hb : b ∈ [.okfsFdCall, .okfsOpOnFd, .okfsBeforeFcntl])
    (hrow : (callTable fakeroot s.slave.regs.origEax.toInt.toNat).callBefore = some b) :
    s.slave.arg1 = s.regs.ebx ∧ s.slave.hasStackArgs = false ∧
      s.slave.regs.origEax.toInt ∉ [0, 11, 119, 173] := by
  obtain ⟨hno, hquiet⟩ := quiet_rows fakeroot s.slave.regs.origEax.toInt.toNat (by omega)
    (by rw [hrow]; exact List.mem_map_of_mem (f := some) hb)
  have hrow' : argsRow s.slave.regs.origEax.toInt = s.slave.regs.origEax.toInt.toNat := by
    unfold argsRow
    split <;> omega
  have hregs : s.slave.hasStackArgs = false := by rw [hstack, hrow', hno]
  have hargs := hf.arg hregs
  simp only [Args.regs, UserRegs.args, List.cons.injEq, and_true] at hargs
  refine ⟨hargs.1.trans (by rw [hsame]), hregs, fun hmem => hquiet ?_⟩
  simp only [List.mem_cons, List.not_mem_nil, or_false] at hmem ⊢
  omega

omit hf hsame hstack hbounds in
theorem tracked_congr {slave slave' : Slave} (htab : slave'.fdTab = slave.fdTab) (fd : Int) :
    slave'.tracked fd = slave.tracked fd := by
  unfold Slave.tracked
  rw [htab]

omit hf hstack hbounds in
/-- The slot that has been looked at is that of the register at the end. -/
theorem Checked.of_entry (hlooks : s.slave.arg1 = s.regs.ebx ∧ s.slave.hasStackArgs = false ∧
      s.slave.regs.origEax.toInt ∉ [0, 11, 119, 173])
    (htab : s'.slave.fdTab = s.slave.fdTab) (hebx : s'.regs.ebx = s.slave.regs.ebx)
    (hduring : s'.slave.duringCall = s.slave.regs.origEax.toInt)
    (hno : (callTable fakeroot (argsRow s'.regs.origEax.toInt)).hasStackArgs = false)
    (hoccupied : s.slave.occupied s.slave.arg1.toInt)
    (hfsp : after ∈ After.okfsOnly → (s.slave.trackedFsp s.slave.arg1.toInt).isSome) :
    Checked fakeroot s' after := by
  obtain ⟨harg, -, hquiet⟩ := hlooks
  rw [harg] at hoccupied hfsp
  have hebx' : s'.regs.ebx = s.regs.ebx := hebx.trans (by rw [hsame])
  refine ⟨?_, fun honly => ?_, by rwa [hduring], hno⟩
  · rw [Slave.occupied, hebx', tracked_congr htab]
    exact hoccupied
  · rw [Slave.trackedFsp, hebx', tracked_congr htab]
    exact hfsp honly

/-- The handler that the table has for the end of the call is still in `next_call`. -/
theorem kept_checked (hafter : after ∈ After.guarded)
    (hrow : (callTable fakeroot s.slave.regs.origEax.toInt.toNat).callAfter = some after)
    (hrun : ∀ b, (callTable fakeroot s.slave.regs.origEax.toInt.toNat).callBefore = some b →
      b.run h (calling fakeroot s) = .ok s')
    (hnext : s'.slave.nextCall = some after) : Checked fakeroot s' after := by
  rcases guard_row (by omega) hafter hrow with hbefore | ⟨honly, hbefore⟩
  · have hlooks := looks_at hf hsame hstack hbounds (by decide) hbefore
    rcases okfsFdCall_next (hrun _ hbefore) with hnone | ⟨hfsp, hdummy⟩
    · rw [hnone] at hnext
      exact absurd hnext (by simp)
    · -- the number is that of another call now
      have hcall : Fetched { calling fakeroot s with
          slave := { (calling fakeroot s).slave with
            regs := { s.slave.regs with origEax := DUMMY_CALL_NR } } } := ⟨hf.same, hf.arg⟩
      obtain ⟨mem, rfl⟩ := setSlaveArgs_spec hcall hdummy
      have hneutral : argsRow DUMMY_CALL_NR.toInt = 20 := by decide
      have hno : (callTable fakeroot (argsRow DUMMY_CALL_NR.toInt)).hasStackArgs = false := by
        rw [hneutral]
        rfl
      refine .of_entry hsame hlooks rfl rfl rfl hno (occupied_of_fsp ?_) fun _ => ?_
      · exact hfsp
      · exact hfsp
  · have hlooks := looks_at hf hsame hstack hbounds (by decide) hbefore
    rcases okfsOpOnFd_next (hrun _ hbefore) with hnone | ⟨hoccupied, rfl⟩
    · rw [hnone] at hnext
      exact absurd hnext (by simp)
    · refine .of_entry hsame hlooks rfl (by rw [hsame]; rfl) rfl ?_ hoccupied fun hmem =>
        absurd hmem honly
      rw [show (calling fakeroot s).regs = s.slave.regs from hsame.symm, ← hstack]
      exact hlooks.2.1

theorem fcntl_checked
    (hbefore : (callTable fakeroot s.slave.regs.origEax.toInt.toNat).callBefore =
      some .okfsBeforeFcntl)
    (hoccupied : s.slave.occupied s.slave.arg1.toInt)
    (hs' : s' = { calling fakeroot s with
      slave := { (calling fakeroot s).slave with nextCall := some .okfsAfterFcntl } }) :
    Checked fakeroot s' .okfsAfterFcntl := by
  have hlooks := looks_at hf hsame hstack hbounds (by decide) hbefore
  rw [hs']
  refine .of_entry hsame hlooks rfl (by rw [hsame]; rfl) rfl ?_ hoccupied fun hmem =>
    absurd hmem (by decide)
  rw [show (calling fakeroot s).regs = s.slave.regs from hsame.symm, ← hstack]
  exact hlooks.2.1

end Entry

theorem enter_guarded (hf : Fetched s) (hsame : s.slave.regs = s.regs)
    (hstack : s.slave.hasStackArgs =
      (callTable fakeroot (argsRow s.slave.regs.origEax.toInt)).hasStackArgs)
    (henter : enter h fakeroot s = .ok s') : Guarded fakeroot s' := by
  intro _ after hafter hnext
  have hsome : some after ∈ After.guarded.map some := List.mem_map_of_mem hafter
  by_cases hnr : s.slave.regs.origEax.toInt > NR_syscalls
  · have hforced : s'.slave.nextCall = some .returnSaved := by
      unfold enter at henter
      simp only [if_pos hnr] at henter
      exact forceCallReturn_next henter
    rw [hforced] at hnext
    obtain rfl := Option.some.inj hnext
    exact absurd hafter (by decide)
  obtain ⟨hpos, hrun, hnone⟩ := enter_row henter hnr
  have hlt := enter_bounds henter hnr
  have hbounds : 0 ≤ s.slave.regs.origEax.toInt ∧ s.slave.regs.origEax.toInt < NR_syscalls := by
    omega
  have hrow : (calling fakeroot s).slave.nextCall =
      (callTable fakeroot s.slave.regs.origEax.toInt.toNat).callAfter := by
    simp only [calling, if_neg hnr]
  have hkept : KeepsNext (calling fakeroot s) s' → Checked fakeroot s' after := by
    rintro (hkept | hother)
    · rw [hkept, hrow] at hnext
      exact kept_checked hf hsame hstack hbounds hafter hnext hrun (by rw [hkept, hrow, hnext])
    · rw [hnext] at hother
      exact absurd hsome hother
  cases hbefore : (callTable fakeroot s.slave.regs.origEax.toInt.toNat).callBefore with
  | none => exact hkept (.inl (by rw [hnone hbefore]))
  | some b =>
    by_cases hfcntl : b = .okfsBeforeFcntl
    · subst hfcntl
      rcases okfsBeforeFcntl_next (hrun _ hbefore) with hkeeps | ⟨hoccupied, hs'⟩
      · exact hkept hkeeps
      · have hafter' : some After.okfsAfterFcntl = some after := by rw [← hnext, hs']
        obtain rfl := Option.some.inj hafter'
        exact fcntl_checked hf hsame hstack hbounds hbefore hoccupied hs'
    · exact hkept (Before.run_keeps hfcntl (hrun b hbefore))

theorem Guarded.idle (hidle : s.slave.duringCall = 0) : Guarded fakeroot s :=
  fun hcall => absurd hidle hcall

/-- A call that is left leaves nothing, and neither does one that makes a task. -/
theorem handleSyscall_guarded (hscratch : Scratch s)
    (hs' : handleSyscall h fakeroot s = .ok (s', child)) :
    Guarded fakeroot s' ∧ ∀ c, child = some c → Guarded fakeroot c := by
  obtain ⟨s₁, hfetch, hcases⟩ := handleSyscall_cases hs'
  obtain ⟨hf, arg, rfl⟩ := fetch_spec hfetch
  rcases hcases with ⟨hidle, henter, rfl⟩ | ⟨-, hleave⟩
  · exact ⟨enter_guarded hf rfl rfl henter, by simp⟩
  · have hscratch₁ : Scratch (fetched fakeroot arg s) := fetched_scratch hscratch arg
    refine ⟨.idle (leave_idle hf hscratch₁ hleave), fun c hc => .idle ?_⟩
    obtain ⟨s₂, hcomplete, rfl⟩ := leave_spec hleave
    obtain ⟨-, -, -, -, hchild⟩ :=
      complete_finished (leaving_fetched hf) hscratch₁.left hscratch₁.restart hcomplete
    exact (hchild c hc).duringCall

theorem Handled.guarded (hhandled : Handled h fakeroot s) : Guarded fakeroot s := by
  have hstep : ∀ {s t s' : Tracee σ} {child : Option (Tracee σ)}, Handled h fakeroot s →
      Untouched s t → handleSyscall h fakeroot t = .ok (s', child) →
      Guarded fakeroot s' ∧ ∀ c, child = some c → Guarded fakeroot c := by
    intro s t s' child hhandled hstop hs'
    exact handleSyscall_guarded (hhandled.reached.scratch.meanwhile hstop.toMeanwhile) hs'
  cases hhandled with
  | start s hfresh => exact .idle hfresh.duringCall
  | stop s t s' child hhandled hstop hs' => exact (hstep hhandled hstop hs').1
  | child s t s' c hhandled hstop hs' => exact (hstep hhandled hstop hs').2 _ rfl

/-- What has been looked at is still there when the handler at the end is called. -/
theorem Checked.later {after : After} {arg : Args} (hchecked : Checked fakeroot s after)
    (hstop : Untouched s t) (hf : Fetched (fetched fakeroot arg t)) :
    (fetched fakeroot arg t).slave.occupied arg.arg1.toInt ∧
      (after ∈ After.okfsOnly → ((fetched fakeroot arg t).slave.trackedFsp arg.arg1.toInt).isSome) := by
  have hregs := hstop.regs hchecked.quiet
  have horig : t.regs.origEax = s.regs.origEax := by rw [hregs]
  have hebx : t.regs.ebx = s.regs.ebx := by rw [hregs]
  have hstack : (fetched fakeroot arg t).slave.hasStackArgs = false := by
    rw [fetched, horig]
    exact hchecked.stack
  have hargs := hf.arg hstack
  simp only [Args.regs, UserRegs.args, List.cons.injEq, and_true] at hargs
  have harg : arg.arg1 = s.regs.ebx := hargs.1.trans hebx
  have htab : (fetched fakeroot arg t).slave.fdTab = s.slave.fdTab := hstop.fdTab
  rw [harg]
  refine ⟨?_, fun honly => ?_⟩
  · rw [Slave.occupied, tracked_congr htab]
    exact hchecked.occupied
  · rw [Slave.trackedFsp, tracked_congr htab]
    exact hchecked.fsp honly

-- ---------------------------------------------------------------------------
-- The handler at a stop
-- ---------------------------------------------------------------------------

theorem calledAt_before {b : Before} (hcalled : calledAt fakeroot t = some (s, .before b)) :
    ∃ arg, fetch fakeroot t = .ok (fetched fakeroot arg t) ∧ s = calling fakeroot (fetched fakeroot arg t) ∧
      t.slave.duringCall = 0 ∧ 0 ≤ t.regs.origEax.toInt ∧ t.regs.origEax.toInt < NR_syscalls ∧
      (callTable fakeroot t.regs.origEax.toInt.toNat).callBefore = some b := by
  unfold calledAt at hcalled
  split at hcalled
  · exact absurd hcalled (by simp)
  · rename_i s₀ hfetch
    obtain ⟨hf, arg, rfl⟩ := fetch_spec hfetch
    simp only at hcalled
    split at hcalled
    · rename_i hidle
      split at hcalled
      · rename_i hbounds
        obtain ⟨b', hb, heq⟩ := Option.map_eq_some_iff.mp hcalled
        obtain ⟨rfl, hb'⟩ := Prod.mk.inj heq
        obtain rfl := Handler.before.inj hb'
        exact ⟨arg, hfetch, rfl, hidle, hbounds.1, hbounds.2, hb⟩
      · exact absurd hcalled (by simp)
    · split at hcalled
      · obtain ⟨a, -, heq⟩ := Option.map_eq_some_iff.mp hcalled
        exact absurd (Prod.mk.inj heq).2 (by simp)
      · exact absurd hcalled (by simp)

theorem calledAt_after {after : After} (hcalled : calledAt fakeroot t = some (s, .after after)) :
    ∃ arg, Fetched (fetched fakeroot arg t) ∧ s = leaving (fetched fakeroot arg t) ∧
      t.slave.duringCall ≠ 0 ∧ t.slave.nextCall = some after := by
  unfold calledAt at hcalled
  split at hcalled
  · exact absurd hcalled (by simp)
  · rename_i s₀ hfetch
    obtain ⟨hf, arg, rfl⟩ := fetch_spec hfetch
    simp only at hcalled
    split at hcalled
    · split at hcalled
      · obtain ⟨b, -, heq⟩ := Option.map_eq_some_iff.mp hcalled
        exact absurd (Prod.mk.inj heq).2 (by simp)
      · exact absurd hcalled (by simp)
    · rename_i hcall
      split at hcalled
      · obtain ⟨a, ha, heq⟩ := Option.map_eq_some_iff.mp hcalled
        obtain ⟨rfl, ha'⟩ := Prod.mk.inj heq
        obtain rfl := Handler.after.inj ha'
        exact ⟨arg, hf, rfl, hcall, ha⟩
      · exact absurd hcalled (by simp)

theorem singleton_occupied {slave : Slave} {x : Int} (hfd : fd ∈ [x]) (hx : slave.occupied x) :
    slave.occupied fd := by
  rwa [List.mem_singleton.mp hfd]

theorem ite_occupied {slave : Slave} {c : Prop} [Decidable c] {x : Int}
    (hfd : fd ∈ if c then [x] else []) (hx : c → slave.occupied x) : slave.occupied fd := by
  split at hfd
  · exact singleton_occupied hfd (hx ‹_›)
  · exact absurd hfd List.not_mem_nil

/-- The first argument is all that the handlers at the end go by, and `okfs_dup2` looks itself. -/
theorem After.slots_occupied {slave : Slave} {after : After} (hfd : fd ∈ after.slots slave)
    (hguarded : after ∈ After.guarded → slave.occupied slave.arg1.toInt) : slave.occupied fd := by
  unfold After.slots at hfd
  simp only at hfd
  split at hfd
  · rename_i honly
    exact singleton_occupied hfd (hguarded (List.mem_append_left _ honly))
  · split at hfd
    · exact singleton_occupied hfd (hguarded (by decide))
    · exact ite_occupied hfd fun _ => hguarded (by decide)
    · split at hfd
      · rcases List.mem_append.mp hfd with hnew | hold
        · exact ite_occupied hnew fun hoccupied => hoccupied
        · exact ite_occupied hold fun hoccupied => hoccupied.1
      · exact absurd hfd List.not_mem_nil
    · exact ite_occupied hfd fun _ => hguarded (by decide)
    · exact absurd hfd List.not_mem_nil

theorem calledAt_entry {b : Before} (hfetch : fetch fakeroot t = .ok s)
    (hidle : s.slave.duringCall = 0)
    (hbounds : 0 ≤ s.slave.regs.origEax.toInt ∧ s.slave.regs.origEax.toInt < NR_syscalls)
    (hrow : (callTable fakeroot s.slave.regs.origEax.toInt.toNat).callBefore = some b) :
    calledAt fakeroot t = some (calling fakeroot s, .before b) := by
  unfold calledAt
  rw [hfetch]
  simp only [hidle, if_true, if_pos hbounds, hrow, Option.map_some]

theorem mem_mmap_slots {slave : Slave} : fd ∈ Before.okfsBeforeMmap.slots slave ↔
    slave.arg4 &&& MAP_ANONYMOUS = 0 ∧ 0 ≤ slave.arg5.toInt ∧ slave.arg5.toInt < OPEN_MAX ∧
      fd = slave.arg5.toInt := by
  unfold Before.slots
  simp only
  split
  · rename_i hno
    refine iff_of_false List.not_mem_nil ?_
    rintro ⟨hanon, hpos, hlt, -⟩
    rcases hno with hno | hno
    · exact hno hanon
    · omega
  · rename_i hcond
    obtain ⟨hanon, hbounds⟩ := not_or.mp hcond
    rw [List.mem_singleton]
    exact ⟨fun hfd => ⟨not_not.mp hanon, by omega, by omega, hfd⟩, fun hfd => hfd.2.2.2⟩

theorem not_occupied_iff {slave : Slave} (hpos : 0 ≤ fd) (hlt : fd < OPEN_MAX) :
    ¬ slave.occupied fd ↔ slave.fdTab fd.toNat = none := by
  unfold Slave.occupied Slave.tracked
  rw [if_pos ⟨hpos, hlt⟩]
  exact Option.not_isSome_iff_eq_none

/-- The slots of the handlers at the entry have been looked at, but for one of them. -/
theorem Before.slots_occupied {slave : Slave} {b : Before} (hb : b ≠ .okfsBeforeMmap)
    (hfd : fd ∈ b.slots slave) : slave.occupied fd := by
  cases b with
  | okfsBeforeMmap => exact absurd rfl hb
  | okfsFdCall | okfsOnlyOs | okfsBeforeFcntl => exact ite_occupied hfd fun hoccupied => hoccupied
  | _ => exact absurd hfd List.not_mem_nil

/-- The slots are those that the handlers follow: a handler that misses one ends OKFS, and one
that misses none follows no `NULL`. -/
structure SlotsFollowed (h : Host σ) (fakeroot : Bool) (t : Tracee σ) : Prop where
  before : ∀ s b, calledAt fakeroot t = some (s, .before b) →
    b ∈ [.okfsFdCall, .okfsOpOnFd, .okfsOnlyOs, .okfsBeforeFcntl, .okfsBeforeMmap] →
      (b.run h s = .error .segv ↔ ∃ fd ∈ b.slots s.slave, ¬ s.slave.occupied fd)
  missing : ∀ s a, calledAt fakeroot t = some (s, .after a) →
    (∃ fd ∈ a.slots s.slave, ¬ s.slave.occupied fd) → Faults (a.runAlone h s)
  present : SlotsSafe fakeroot t → ∀ s a, calledAt fakeroot t = some (s, .after a) →
    a ∈ After.okfsOnly ++ [.okfsAfterClose, .okfsDup, .okfsDup2, .okfsAfterFcntl] →
      NoSegv (a.runAlone h s)

theorem slotsFollowed (h : Host σ) (fakeroot : Bool) (t : Tracee σ) :
    SlotsFollowed h fakeroot t where
  before _ _ _ hb := Before.run_segv_iff hb
  missing _ _ _ hmissing := After.runAlone_faults hmissing
  present hsafe s a hcalled ha := by
    rcases List.mem_append.mp ha with honly | htable
    · exact okfsOnly_noSegv honly (hsafe.fsp s a hcalled honly)
    · exact tableCall_noSegv htable (hsafe.after s a hcalled)

/-- In all runs the handlers find what they follow, unless a descriptor that OKFS does not know
is mapped. -/
theorem fd_slots_safe_iff (hhandled : Handled h fakeroot s) (hstop : Untouched s t) :
    (SlotsSafe fakeroot t ↔ ¬ MapsUnknown fakeroot t) ∧ SlotsFollowed h fakeroot t := by
  refine ⟨?_, slotsFollowed h fakeroot t⟩
  have hguarded := hhandled.guarded
  constructor
  · rintro hsafe ⟨hidle, hnr, s₁, hfetch, hanon, hpos, hlt, hempty⟩
    obtain ⟨hf, arg, rfl⟩ := fetch_spec hfetch
    have hbounds : 0 ≤ t.regs.origEax.toInt ∧ t.regs.origEax.toInt < NR_syscalls := by
      rcases hnr with hnr | hnr <;> rw [hnr] <;> decide
    have hrow : (callTable fakeroot t.regs.origEax.toInt.toNat).callBefore = some .okfsBeforeMmap := by
      rcases hnr with hnr | hnr <;> rw [hnr] <;> rfl
    have hcalled := calledAt_entry hfetch hidle hbounds hrow
    have hoccupied := hsafe.before _ _ hcalled arg.arg5.toInt
      (mem_mmap_slots.mpr ⟨hanon, hpos, hlt, rfl⟩)
    exact (not_occupied_iff hpos hlt).mpr hempty hoccupied
  · intro hunknown
    refine ⟨fun s₁ b hcalled fd hfd => ?_, fun s₁ a hcalled fd hfd => ?_,
      fun s₁ a hcalled honly => ?_⟩
    · obtain ⟨arg, hfetch, rfl, hidle, hpos, hlt, hrow⟩ := calledAt_before hcalled
      by_cases hmmap : b = .okfsBeforeMmap
      · subst hmmap
        by_contra hempty
        have hnr := (slot_rows fakeroot _ (by omega)).2.2.2.mp hrow
        obtain ⟨hanon, hpos', hlt', rfl⟩ := mem_mmap_slots.mp hfd
        refine hunknown ⟨hidle, ?_, _, hfetch, hanon, hpos', hlt',
          (not_occupied_iff hpos' hlt').mp hempty⟩
        rcases hnr with hnr | hnr
        · have horig : t.regs.origEax.toInt = 90 := by omega
          exact .inl (BitVec.eq_of_toInt_eq (horig.trans (by decide)))
        · have horig : t.regs.origEax.toInt = 192 := by omega
          exact .inr (BitVec.eq_of_toInt_eq (horig.trans (by decide)))
      · exact Before.slots_occupied hmmap hfd
    · obtain ⟨arg, hf, rfl, hcall, hnext⟩ := calledAt_after hcalled
      refine After.slots_occupied hfd fun hmem => ?_
      have hchecked := hguarded (fun hidle => hcall (hstop.duringCall.trans hidle)) a hmem
        (hstop.nextCall.symm.trans hnext)
      exact (hchecked.later hstop hf).1
    · obtain ⟨arg, hf, rfl, hcall, hnext⟩ := calledAt_after hcalled
      have hchecked := hguarded (fun hidle => hcall (hstop.duringCall.trans hidle)) a
        (List.mem_append_left _ honly) (hstop.nextCall.symm.trans hnext)
      exact (hchecked.later hstop hf).2 honly

/-- `read(3, NULL, 0)` of a file of OKFS. -/
def readingTracee : Tracee Unit :=
  { bareTracee (callRegs 3 3 0 0) with
    slave := { (bareTracee (callRegs 3 3 0 0)).slave with
      fdTab := fun fd =>
        if fd = 3 then some ⟨some ⟨[slash], [], .localfs⟩, [slash], some [slash]⟩ else none } }

theorem fd_slots_safe_read :
    ∃ s, handleSyscall bareHost false readingTracee = .ok (s, none) ∧
      s.slave.nextCall = some .okfsRead ∧ SlotsSafe false s := by
  have hfresh : Fresh readingTracee := ⟨rfl, rfl, rfl, rfl, rfl⟩
  have hstart : Untouched readingTracee readingTracee :=
    ⟨⟨rfl, rfl, rfl, rfl, rfl⟩, rfl, fun _ => rfl⟩
  obtain ⟨s, hs, hnext, hcall⟩ : ∃ s, handleSyscall bareHost false readingTracee = .ok (s, none) ∧
      s.slave.nextCall = some .okfsRead ∧ s.slave.duringCall = 3 := ⟨_, rfl, rfl, rfl⟩
  refine ⟨s, hs, hnext, ?_⟩
  refine (fd_slots_safe_iff (.stop readingTracee readingTracee s none (.start _ hfresh) hstart hs)
    ⟨⟨rfl, rfl, rfl, rfl, rfl⟩, rfl, fun _ => rfl⟩).1.mpr ?_
  rintro ⟨hidle, -⟩
  rw [hcall] at hidle
  exact absurd hidle (by decide)

/-- `mmap2(NULL, 4096, PROT_READ, MAP_PRIVATE, 0, 0)`. -/
def mmapRegs : UserRegs := ⟨0, 4096, 1, 2, 0, 0, 192, 0, 0⟩

/-- A new task maps its standard input, and OKFS ends. -/
theorem not_fd_slots_safe :
    (¬ ∀ (h : Host Unit) (s t : Tracee Unit), Handled h false s → Untouched s t →
      SlotsSafe false t) ∧
    handleSyscall bareHost false (bareTracee mmapRegs) = .error .segv := by
  refine ⟨fun hsafe => ?_, rfl⟩
  have hslots := hsafe bareHost (bareTracee mmapRegs) (bareTracee mmapRegs)
    (.start _ ⟨rfl, rfl, rfl, rfl, rfl⟩) ⟨⟨rfl, rfl, rfl, rfl, rfl⟩, rfl, fun _ => rfl⟩
  exact absurd (hslots.before _ .okfsBeforeMmap rfl 0 (by decide)) (by decide)

end Syscall

end Okfs
