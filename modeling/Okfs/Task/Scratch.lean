import Okfs.Task.SyscallEntry

/-!
# OKFS — the strings of a call are released

All handlers share one record for the paths they resolve, `callfs`. Some fill it when the call
is entered and leave it to another handler to release it, each of them has several ways out, and
none may leave a string behind: `proc_path1`, `proc_path2` and `add_slave` assert that. Here the
record is empty whenever a task enters a call, in every run.
-/

namespace Okfs

namespace Syscall

variable {σ : Type} {h : Host σ} {fakeroot : Bool} {s s' t : Tracee σ} {child : Option (Tracee σ)}

-- ---------------------------------------------------------------------------
-- Runs of a task
-- ---------------------------------------------------------------------------

/-- Between two stops anything can become of the registers, of the memory and of the world, and
signals change the record, but not what it has of the call. -/
structure Meanwhile (s t : Tracee σ) : Prop where
  callfs : t.slave.callfs = s.slave.callfs
  nextCall : t.slave.nextCall = s.slave.nextCall
  duringCall : t.slave.duringCall = s.slave.duringCall
  restartCall : t.slave.restartCall = s.slave.restartCall
  leaked : t.leaked = s.leaked

/-- What `add_slave` sets in the record of the first task. -/
structure Fresh (s : Tracee σ) : Prop where
  callfs : s.slave.callfs = {}
  nextCall : s.slave.nextCall = none
  duringCall : s.slave.duringCall = 0
  restartCall : s.slave.restartCall = 0
  leaked : s.leaked = false

/-- The states of a task, and of its children, after the stops that OKFS has handled. -/
inductive Reached (h : Host σ) (fakeroot : Bool) : Tracee σ → Prop
  | start (s : Tracee σ) (hfresh : Fresh s) : Reached h fakeroot s
  | stop (s t s' : Tracee σ) (child : Option (Tracee σ)) (hreached : Reached h fakeroot s)
      (hstop : Meanwhile s t) (hs' : handleSyscall h fakeroot t = .ok (s', child)) :
      Reached h fakeroot s'
  | child (s t s' c : Tracee σ) (hreached : Reached h fakeroot s) (hstop : Meanwhile s t)
      (hs' : handleSyscall h fakeroot t = .ok (s', some c)) : Reached h fakeroot c

-- ---------------------------------------------------------------------------
-- The invariant
-- ---------------------------------------------------------------------------

/-- No string is left behind: only the handler that is called next can find some. -/
structure Scratch (s : Tracee σ) : Prop where
  leaked : s.leaked = false
  left : Left s
  restart : s.slave.restartCall ≠ 0 → s.slave.callfs = {}
  idle : s.slave.duringCall = 0 → s.slave.callfs = {} ∧ s.slave.restartCall = 0

theorem Fresh.scratch (hfresh : Fresh s) : Scratch s :=
  ⟨hfresh.leaked, .inl hfresh.callfs, fun _ => hfresh.callfs,
    fun _ => ⟨hfresh.callfs, hfresh.restartCall⟩⟩

theorem Scratch.meanwhile (hscratch : Scratch s) (hstop : Meanwhile s t) : Scratch t := by
  refine ⟨hstop.leaked.trans hscratch.leaked, ?_, ?_, ?_⟩
  · have hleft := hscratch.left
    rwa [Left, ← hstop.callfs, ← hstop.nextCall] at hleft
  · rw [hstop.restartCall, hstop.callfs]
    exact hscratch.restart
  · rw [hstop.duringCall, hstop.callfs, hstop.restartCall]
    exact hscratch.idle

/-- The task has left its call, or it is new. -/
theorem scratch_of_empty (hleaked : s.leaked = false) (hempty : s.slave.callfs = {})
    (hrestart : s.slave.restartCall = 0) : Scratch s :=
  ⟨hleaked, .inl hempty, fun _ => hempty, fun _ => ⟨hempty, hrestart⟩⟩

theorem Forked.scratch {c : Tracee σ} (hforked : Forked s c) (hleaked : s.leaked = false) :
    Scratch c :=
  scratch_of_empty (hforked.leaked.trans hleaked) hforked.callfs hforked.restartCall

theorem Entered.scratch (hentered : Entered h s s') (hleaked : s.leaked = false)
    (hempty : s.slave.callfs = {}) (hrestart : s.slave.restartCall = 0)
    (hduring : s'.slave.duringCall ≠ 0) : Scratch s' := by
  cases hentered with
  | plain hplain =>
    exact scratch_of_empty (hplain.leaked.trans hleaked) (hplain.callfs.trans hempty)
      (hplain.restartCall.trans hrestart)
  | both hboth hnext =>
    obtain ⟨callfs, hkept, hnext'⟩ := hboth
    have hzero : s'.slave.restartCall = 0 := hkept.restartCall.trans hrestart
    refine ⟨hkept.leaked.trans hleaked, .inr (.inl ?_), fun hne => absurd hzero hne,
      fun hidle => absurd hidle hduring⟩
    rw [hnext']
    exact hnext
  | okfsOpen nr hnr hopening =>
    have hzero := hopening.restartCall.trans hrestart
    exact ⟨hopening.leaked.trans hleaked,
      .inr (.inr ⟨.inl hopening.next, hopening.clean.trans hempty⟩), fun hne => absurd hzero hne,
      fun hidle => absurd hidle hduring⟩
  | linuxOpen hopening =>
    have hzero := hopening.restartCall.trans hrestart
    exact ⟨hopening.leaked.trans hleaked,
      .inr (.inr ⟨.inr hopening.next, hopening.clean.trans hempty⟩), fun hne => absurd hzero hne,
      fun hidle => absurd hidle hduring⟩
  | suspended hsuspends =>
    have hcallfs := hsuspends.callfs.trans hempty
    exact ⟨hsuspends.leaked.trans hleaked, .inl hcallfs, fun _ => hcallfs,
      fun hidle => absurd hidle hduring⟩
  | stopped hnr hfinds hasks =>
    exact scratch_of_empty (hasks.leaked.trans hleaked) (hasks.callfs.trans hempty)
      (hasks.restartCall.trans hrestart)

theorem enter_scratch (hf : Fetched s)
    (hstack : s.slave.hasStackArgs =
      (callTable fakeroot (argsRow s.slave.regs.origEax.toInt)).hasStackArgs)
    (hscratch : Scratch s) (hidle : s.slave.duringCall = 0) (henter : enter h fakeroot s = .ok s') :
    Scratch s' := by
  obtain ⟨hempty, hrestart⟩ := hscratch.idle hidle
  have hentered := enter_cases hf hempty hstack henter
  by_cases hzero : s.slave.regs.origEax.toInt = 0
  · rw [enter_zero hzero henter]
    exact scratch_of_empty hscratch.leaked hempty hrestart
  · refine hentered.scratch hscratch.leaked hempty hrestart ?_
    rw [hentered.duringCall]
    exact hzero

theorem leave_scratch (hf : Fetched s) (hscratch : Scratch s)
    (hleave : leave h s = .ok (s', child)) : Scratch s' ∧ ∀ c, child = some c → Scratch c := by
  obtain ⟨s₁, hcomplete, rfl⟩ := leave_spec hleave
  obtain ⟨hcallfs, hleaked, hrestart, -, hchild⟩ :=
    complete_finished (leaving_fetched hf) hscratch.left hscratch.restart hcomplete
  refine ⟨scratch_of_empty (hleaked.trans hscratch.leaked) hcallfs hrestart, fun c hc => ?_⟩
  exact (hchild c hc).scratch hscratch.leaked

theorem leave_idle (hf : Fetched s) (hscratch : Scratch s) (hleave : leave h s = .ok (s', child)) :
    s'.slave.duringCall = 0 := by
  obtain ⟨s₁, hcomplete, rfl⟩ := leave_spec hleave
  exact (complete_finished (leaving_fetched hf) hscratch.left hscratch.restart hcomplete).2.2.2.1

theorem handleSyscall_scratch (hscratch : Scratch s)
    (hs' : handleSyscall h fakeroot s = .ok (s', child)) :
    Scratch s' ∧ ∀ c, child = some c → Scratch c := by
  obtain ⟨s₁, hfetch, hcases⟩ := handleSyscall_cases hs'
  obtain ⟨hf, arg, rfl⟩ := fetch_spec hfetch
  have hfetched := hscratch.meanwhile (t := { s with
    slave := { s.slave with
      regs := s.regs
      arg
      hasStackArgs := (callTable fakeroot (argsRow s.regs.origEax.toInt)).hasStackArgs } })
    ⟨rfl, rfl, rfl, rfl, rfl⟩
  rcases hcases with ⟨hidle, henter, rfl⟩ | ⟨-, hleave⟩
  · exact ⟨enter_scratch hf rfl hfetched hidle henter, by simp⟩
  · exact leave_scratch hf hfetched hleave

theorem Reached.scratch (hreached : Reached h fakeroot s) : Scratch s := by
  induction hreached with
  | start s hfresh => exact hfresh.scratch
  | stop s t s' child hreached hstop hs' ih => exact (handleSyscall_scratch (ih.meanwhile hstop) hs').1
  | child s t s' c hreached hstop hs' ih =>
    exact (handleSyscall_scratch (ih.meanwhile hstop) hs').2 c rfl

-- ---------------------------------------------------------------------------
-- Nothing is left behind
-- ---------------------------------------------------------------------------

/-- The record is empty where it is expected to be. -/
structure Released (h : Host σ) (fakeroot : Bool) (t : Tracee σ) : Prop where
  /-- All eight pointers are `NULL` when a call is entered, -/
  entry : t.slave.duringCall = 0 → t.slave.callfs = {}
  /-- and when a handler that resolves paths, or makes a child, is called at the end of it. -/
  exit : t.slave.nextCall ∉ getsStrings → t.slave.callfs = {}
  /-- When the second path is resolved after the first one, its pointers are still `NULL`. -/
  second : t.slave.duringCall = 0 → ∀ option r s', procPath1 h option t = .ok (r, s') →
    s'.slave.callfs.path2 = none ∧ s'.slave.callfs.canonPath2 = none ∧
      s'.slave.callfs.relPath2 = none
  /-- None of the assertions has failed in a call that is handled. -/
  asserts : ∀ s' child, handleSyscall h fakeroot t = .ok (s', child) →
    s'.leaked = false ∧ ∀ c, child = some c → c.leaked = false

theorem callfs_released (hreached : Reached h fakeroot s) (hstop : Meanwhile s t) :
    Released h fakeroot t := by
  have hscratch := hreached.scratch.meanwhile hstop
  refine ⟨fun hidle => (hscratch.idle hidle).1, fun hnext => ?_, fun hidle option r s' hproc => ?_,
    fun s' child hs' => ?_⟩
  · exact hscratch.left.empty hnext
  · have hempty := (hscratch.idle hidle).1
    obtain ⟨callfs, rfl, hclean⟩ := procPath1_spec (by rw [hempty]; rfl) hproc
    rw [hempty] at hclean
    have hclean₂ := clean2_of_clean1 hclean
    exact ⟨(congrArg FsResolve.path2 hclean₂).symm, (congrArg FsResolve.canonPath2 hclean₂).symm,
      (congrArg FsResolve.relPath2 hclean₂).symm⟩
  · obtain ⟨hparent, hchild⟩ := handleSyscall_scratch hscratch hs'
    exact ⟨hparent.leaked, fun c hc => (hchild c hc).leaked⟩

/-- `rename("/d", "/e")`: both paths are resolved at its entry, and released at its end. -/
theorem callfs_released_rename :
    ∃ s₁ s₂, handleSyscall bareHost false (namingTracee renameRegs) = .ok (s₁, none) ∧
      s₁.slave.callfs.canonPath1 = some (ascii "/d") ∧
      s₁.slave.callfs.canonPath2 = some (ascii "/e") ∧
      handleSyscall bareHost false s₁ = .ok (s₂, none) ∧ s₂.slave.duringCall = 0 ∧
      Released bareHost false { s₂ with regs := renameRegs } := by
  have hstart : Reached bareHost false (namingTracee renameRegs) :=
    .start _ ⟨rfl, rfl, rfl, rfl, rfl⟩
  refine ⟨_, _, rfl, rfl, rfl, rfl, rfl, ?_⟩
  have hentered := hstart.stop _ (namingTracee renameRegs) _ none ⟨rfl, rfl, rfl, rfl, rfl⟩ rfl
  exact callfs_released (hentered.stop _ _ _ none ⟨rfl, rfl, rfl, rfl, rfl⟩ rfl)
    ⟨rfl, rfl, rfl, rfl, rfl⟩

end Syscall

end Okfs
