import Okfs.Task.Registers

/-!
# OKFS — numbers of system calls

The number in `orig_eax` is chosen by the tracee, and `handle_syscall` looks it up in the table.
A number that is greater than the size of the table is answered with `-ENOSYS`. The size itself
and negative numbers pass the test, and are looked up (`call_numbers_iff`). The other test, which
guards `get_slave_args`, is right for all numbers.
-/

namespace Okfs

namespace Syscall

open ByteMemory

variable {σ : Type} {h : Host σ} {fakeroot : Bool} {s s' t : Tracee σ}

-- ---------------------------------------------------------------------------
-- Where the table is looked up
-- ---------------------------------------------------------------------------

/-- The call number at a stop. -/
def callNr (t : Tracee σ) : Int := t.regs.origEax.toInt

/-- `call` has a row for the number. -/
def inTable (nr : Int) : Prop := 0 ≤ nr ∧ nr < NR_syscalls

instance (nr : Int) : Decidable (inTable nr) := inferInstanceAs (Decidable (_ ∧ _))

/-- The positions at which `get_slave_args` and `handle_syscall` index the table at a stop. -/
def tableIndices (t : Tracee σ) : List Int :=
  (if 0 < callNr t ∧ callNr t < NR_syscalls then callNr t else 0) ::
    if t.slave.duringCall = 0 ∧ ¬ callNr t > NR_syscalls then [callNr t] else []

/-- The kernel executes the call that replaces the one of the tracee. -/
structure Replaces (s t : Tracee σ) : Prop extends Executes s t where
  retvalSaved : t.slave.retvalSaved = s.slave.retvalSaved

/-- The table is indexed inside of its bounds, and where it has no row the tracee gets `-ENOSYS`
for a call that the kernel has not seen. -/
structure Answered (h : Host σ) (fakeroot : Bool) (t : Tracee σ) : Prop where
  indices : ∀ i ∈ tableIndices t, inTable i
  replaced : t.slave.duringCall = 0 → ¬ inTable (callNr t) →
    ∃ s, handleSyscall h fakeroot t = .ok (s, none) ∧ s.regs.origEax = DUMMY_CALL_NR ∧
      ∀ t', Replaces s t' → ∃ s', handleSyscall h fakeroot t' = .ok (s', none) ∧
        s'.regs.eax = BitVec.ofInt 32 (-Errno.ENOSYS.code)

theorem mem_tableIndices {i : Int} (hi : i ∈ tableIndices t) :
    inTable i ∨ i = callNr t ∧ t.slave.duringCall = 0 ∧ ¬ callNr t > NR_syscalls := by
  rcases List.mem_cons.mp hi with rfl | hentry
  · left
    split
    · rename_i hnr
      exact ⟨by omega, hnr.2⟩
    · exact ⟨Int.le_refl 0, by decide⟩
  · split at hentry
    · rename_i hcond
      exact .inr ⟨List.mem_singleton.mp hentry, hcond⟩
    · exact absurd hentry List.not_mem_nil

-- ---------------------------------------------------------------------------
-- Numbers without a row
-- ---------------------------------------------------------------------------

theorem argsRow_outside {nr : Int} (hnr : ¬ inTable nr) : argsRow nr = 0 := by
  unfold argsRow
  rw [if_neg]
  rintro ⟨hpos, hlt⟩
  exact hnr ⟨by omega, hlt⟩

/-- The arguments of such a call are those in the registers. -/
theorem fetch_registers (fakeroot : Bool) (t : Tracee σ)
    (hrow : (callTable fakeroot (argsRow (callNr t))).hasStackArgs = false) :
    ∃ arg, fetch fakeroot t = .ok (fetched fakeroot arg t) ∧
      (fetched fakeroot arg t).slave.hasStackArgs = false := by
  have hrow : (callTable fakeroot (argsRow t.regs.origEax.toInt)).hasStackArgs = false := hrow
  obtain ⟨arg, hfetch⟩ : ∃ arg, fetch fakeroot t = .ok (fetched fakeroot arg t) := by
    unfold fetch fetched
    rw [hrow]
    exact ⟨_, rfl⟩
  exact ⟨arg, hfetch, hrow⟩

theorem fetch_outside (fakeroot : Bool) (hnr : ¬ inTable (callNr t)) :
    ∃ arg, fetch fakeroot t = .ok (fetched fakeroot arg t) ∧
      (fetched fakeroot arg t).slave.hasStackArgs = false :=
  fetch_registers fakeroot t (by rw [argsRow_outside hnr]; rfl)

theorem handleSyscall_enter (hfetch : fetch fakeroot t = .ok s) (hidle : s.slave.duringCall = 0) :
    handleSyscall h fakeroot t = (enter h fakeroot s).map (·, none) := by
  unfold handleSyscall
  rw [hfetch]
  simp only [bind, Except.bind, hidle, if_true]
  cases enter h fakeroot s with
  | error e => rfl
  | ok s' => rfl

/-- The size of the table and negative numbers: what is behind the table is called. -/
theorem handleSyscall_undefined (hidle : t.slave.duringCall = 0)
    (hnr : callNr t < 0 ∨ callNr t = NR_syscalls) :
    handleSyscall h fakeroot t = .error .undefined := by
  have hout : ¬ inTable (callNr t) := by
    rintro ⟨hpos, hlt⟩
    omega
  obtain ⟨arg, hfetch, -⟩ := fetch_outside fakeroot hout
  rw [handleSyscall_enter hfetch hidle]
  have hnr' : t.regs.origEax.toInt < 0 ∨ t.regs.origEax.toInt = NR_syscalls := hnr
  have henter : enter h fakeroot (fetched fakeroot arg t) = .error .undefined := by
    unfold enter fetched
    simp only
    rw [if_neg (by omega), if_pos hnr']
  rw [henter]
  rfl

/-- Greater numbers: the kernel is given another call. -/
theorem enter_unknown (h : Host σ) (fakeroot : Bool) (hstack : s.slave.hasStackArgs = false)
    (hnr : s.slave.regs.origEax.toInt > NR_syscalls) :
    ∃ s', enter h fakeroot s = .ok s' ∧ s'.regs.origEax = DUMMY_CALL_NR ∧
      s'.slave.nextCall = some .returnSaved ∧ s'.slave.retvalSaved = -Errno.ENOSYS.code ∧
      s'.slave.duringCall = s.slave.regs.origEax.toInt ∧
      s'.slave.restartCall = s.slave.restartCall := by
  unfold enter
  simp only [if_pos hnr]
  unfold unimplementedCall forceCallReturn dummyCall setSlaveArgs
  simp only [hstack, Bool.false_eq_true, if_false]
  exact ⟨_, rfl, rfl, rfl, rfl, rfl, rfl⟩

/-- And at the end its result is replaced. -/
theorem leave_saved (hstack : s.slave.hasStackArgs = false) (hrestart : s.slave.restartCall = 0)
    (hnext : s.slave.nextCall = some .returnSaved) :
    ∃ s', leave h s = .ok (s', none) ∧ s'.regs.eax = BitVec.ofInt 32 s.slave.retvalSaved := by
  have hreturn : ∃ s₁, After.returnSaved.runAlone h (leaving s) = .ok s₁ ∧
      s₁.regs.eax = BitVec.ofInt 32 s.slave.retvalSaved := by
    show ∃ s₁, returnSaved (leaving s) = .ok s₁ ∧ _
    unfold returnSaved setSlaveReturn setSlaveArgs leaving
    simp only [hstack, Bool.false_eq_true, if_false]
    exact ⟨_, rfl, rfl⟩
  obtain ⟨s₁, halone, heax⟩ := hreturn
  exact ⟨_, leave_alone_ok hrestart hnext (by decide) halone, heax⟩

/-- Both stops of a call with such a number. -/
theorem unknown_answered (hidle : t.slave.duringCall = 0) (hrestart : t.slave.restartCall = 0)
    (hnr : callNr t > NR_syscalls) :
    ∃ s, handleSyscall h fakeroot t = .ok (s, none) ∧ s.regs.origEax = DUMMY_CALL_NR ∧
      ∀ t', Replaces s t' → ∃ s', handleSyscall h fakeroot t' = .ok (s', none) ∧
        s'.regs.eax = BitVec.ofInt 32 (-Errno.ENOSYS.code) := by
  have hout : ¬ inTable (callNr t) := by
    rintro ⟨-, hlt⟩
    omega
  obtain ⟨arg, hfetch, hstack⟩ := fetch_outside fakeroot hout
  obtain ⟨s, henter, horig, hnext, hsaved, hduring, hrestart'⟩ :=
    enter_unknown h fakeroot hstack hnr
  refine ⟨s, ?_, horig, fun t' hexec => ?_⟩
  · rw [handleSyscall_enter hfetch hidle, henter]
    rfl
  · -- the stop at the end has the number of the call that the kernel has executed
    have horig' : t'.regs.origEax = DUMMY_CALL_NR := by rw [hexec.regs, horig]
    have hrow : argsRow DUMMY_CALL_NR.toInt = 20 := by decide
    obtain ⟨arg', hfetch', hstack'⟩ := fetch_registers fakeroot t' (by
      rw [callNr, horig', hrow]
      rfl)
    have hcall : (fetched fakeroot arg' t').slave.duringCall ≠ 0 := by
      rw [show (fetched fakeroot arg' t').slave.duringCall = callNr t from
        hexec.duringCall.trans hduring]
      omega
    obtain ⟨s', hleave, heax⟩ := leave_saved (h := h) (s := fetched fakeroot arg' t') hstack'
      (hexec.restartCall.trans (hrestart'.trans hrestart)) (hexec.nextCall.trans hnext)
    refine ⟨s', ?_, ?_⟩
    · unfold handleSyscall
      rw [hfetch']
      simp only [bind, Except.bind, if_neg hcall]
      exact hleave
    · rw [heax, show (fetched fakeroot arg' t').slave.retvalSaved = _ from
        hexec.retvalSaved.trans hsaved]

-- ---------------------------------------------------------------------------
-- Which numbers are answered
-- ---------------------------------------------------------------------------

/-- What has been indexed outside of its bounds is what the model leaves undefined. -/
theorem handleSyscall_outside (hindices : ∃ i ∈ tableIndices t, ¬ inTable i) :
    handleSyscall h fakeroot t = .error .undefined := by
  obtain ⟨i, hi, hout⟩ := hindices
  rcases mem_tableIndices hi with hin | ⟨rfl, hidle, hle⟩
  · exact absurd hin hout
  · refine handleSyscall_undefined hidle ?_
    by_contra hno
    exact hout ⟨by omega, by omega⟩

/-- In every state of a run, the numbers that are looked up without a row are those below 0 and
the size of the table. -/
theorem call_numbers_iff (hreached : Reached h fakeroot s) (hstop : Meanwhile s t) :
    Answered h fakeroot t ↔
      (t.slave.duringCall = 0 → 0 ≤ callNr t ∧ callNr t ≠ NR_syscalls) := by
  constructor
  · intro hanswered hidle
    by_cases hgreater : callNr t > NR_syscalls
    · omega
    · have hin : inTable (callNr t) := by
        refine hanswered.indices _ (List.mem_cons_of_mem _ ?_)
        rw [if_pos ⟨hidle, hgreater⟩]
        exact List.mem_singleton_self _
      obtain ⟨hpos, hlt⟩ := hin
      omega
  · intro hnr
    refine ⟨fun i hi => ?_, fun hidle hout => ?_⟩
    · rcases mem_tableIndices hi with hin | ⟨rfl, hidle, hle⟩
      · exact hin
      · have hnr := hnr hidle
        exact ⟨hnr.1, by omega⟩
    · have hrestart : t.slave.restartCall = 0 :=
        ((hreached.scratch.meanwhile hstop).idle hidle).2
      have hgreater : callNr t > NR_syscalls := by
        by_contra hle
        have hnr := hnr hidle
        exact hout ⟨hnr.1, by omega⟩
      exact unknown_answered hidle hrestart hgreater

/-- Call 400. -/
theorem call_numbers_enosys : Answered bareHost false (bareTracee (callRegs 400 0 0 0)) :=
  (call_numbers_iff (.start (bareTracee (callRegs 400 0 0 0)) ⟨rfl, rfl, rfl, rfl, rfl⟩)
    ⟨rfl, rfl, rfl, rfl, rfl⟩).mpr fun _ => by decide

/-- Call 289, with a table of 289 rows. -/
theorem not_call_numbers :
    (¬ ∀ (h : Host Unit) (s t : Tracee Unit), Reached h false s → Meanwhile s t →
      Answered h false t) ∧
    handleSyscall bareHost false (bareTracee (callRegs 289 0 0 0)) = .error .undefined := by
  refine ⟨fun hanswered => ?_, rfl⟩
  have hstop := hanswered bareHost (bareTracee (callRegs 289 0 0 0)) _
    (.start _ ⟨rfl, rfl, rfl, rfl, rfl⟩) ⟨rfl, rfl, rfl, rfl, rfl⟩
  exact absurd (hstop.indices 289 (by decide)) (by decide)

end Syscall

end Okfs
