import Okfs.Task.Scratch

/-!
# OKFS — the registers after a call

OKFS replaces calls by writing other numbers and other arguments to the registers of the tracee.
What a handler has written at the entry is undone at the end of the call, or it was the number
of the call only. `before_wait` is the exception: the option that it adds is left in `edx`.
-/

namespace Okfs

namespace Syscall

open ByteMemory

variable {σ : Type} {h : Host σ} {fakeroot : Bool} {s s' t : Tracee σ} {child : Option (Tracee σ)}

-- ---------------------------------------------------------------------------
-- Tasks that are in no call
-- ---------------------------------------------------------------------------

/-- The task runs, and its record is ready for a call. -/
structure Ready (s : Tracee σ) : Prop where
  scratch : Scratch s
  duringCall : s.slave.duringCall = 0
  nextCall : s.slave.nextCall = none

theorem calling_next_zero (hzero : s.slave.regs.origEax.toInt = 0) :
    (calling fakeroot s).slave.nextCall = none := by
  simp only [calling, hzero]
  rfl

/-- `next_call` is cleared when a call is left, and call 0 has no handlers. -/
theorem handleSyscall_ready (hscratch : Scratch s)
    (hs' : handleSyscall h fakeroot s = .ok (s', child)) :
    (s'.slave.duringCall = 0 → Ready s') ∧ ∀ c, child = some c → Ready c := by
  obtain ⟨hscratch', hscratch''⟩ := handleSyscall_scratch hscratch hs'
  obtain ⟨s₁, hfetch, hcases⟩ := handleSyscall_cases hs'
  obtain ⟨hf, arg, rfl⟩ := fetch_spec hfetch
  rcases hcases with ⟨hidle, henter, rfl⟩ | ⟨hcall, hleave⟩
  · refine ⟨fun hzero => ⟨hscratch', hzero, ?_⟩, by simp⟩
    have hduring := (enter_cases hf (hscratch.idle hidle).1 rfl henter).duringCall
    have hnr := hduring.symm.trans hzero
    rw [enter_zero hnr henter]
    exact calling_next_zero hnr
  · obtain ⟨s₂, hcomplete, rfl⟩ := leave_spec hleave
    obtain ⟨-, -, -, -, hchild⟩ :=
      complete_finished (leaving_fetched hf) hscratch.left hscratch.restart hcomplete
    refine ⟨fun hzero => ⟨hscratch', hzero, rfl⟩, fun c hc => ?_⟩
    exact ⟨hscratch'' c hc, (hchild c hc).duringCall, (hchild c hc).nextCall⟩

theorem Reached.ready (hreached : Reached h fakeroot s) (hidle : s.slave.duringCall = 0) :
    Ready s := by
  cases hreached with
  | start s hfresh => exact ⟨hfresh.scratch, hidle, hfresh.nextCall⟩
  | stop s t s' child hreached hstop hs' =>
    exact (handleSyscall_ready (hreached.scratch.meanwhile hstop) hs').1 hidle
  | child s t s' c hreached hstop hs' =>
    exact (handleSyscall_ready (hreached.scratch.meanwhile hstop) hs').2 _ rfl

theorem Ready.meanwhile (hready : Ready s) (hstop : Meanwhile s t) : Ready t :=
  ⟨hready.scratch.meanwhile hstop, hstop.duringCall.trans hready.duringCall,
    hstop.nextCall.trans hready.nextCall⟩

-- ---------------------------------------------------------------------------
-- The end of a call
-- ---------------------------------------------------------------------------

theorem Ran.regs {after : After} (hf : Fetched s) (hother : after ≠ .okfsAfterOkfsOpen)
    (hran : Ran h after s s' child) : s'.regs.butEax = s.regs.butEax := by
  cases hran with
  | alone hafter halone hempty => exact (runAlone_tidy hf hempty hafter halone).regs
  | twoPaths hkept => exact hkept.regs
  | okfsOpen hafter => exact absurd hafter hother
  | linuxOpen hopened hregs => rw [hregs]
  | fork hkept => exact hkept.regs

/-- No handler but the one of files of OKFS that are opened changes the arguments. -/
theorem leave_regs (hf : Fetched s) (hscratch : Scratch s)
    (hother : s.slave.nextCall ≠ some .okfsAfterOkfsOpen) (hs' : leave h s = .ok (s', child)) :
    s'.regs.butEax = s.regs.butEax := by
  obtain ⟨s₁, hcomplete, rfl⟩ := leave_spec hs'
  have hfetched := leaving_fetched hf
  have hleft : Left (leaving s) := hscratch.left
  rcases complete_cases hfetched hleft hcomplete with ⟨-, -, -, s₂, hkept, rfl⟩ |
    ⟨-, -, -, rfl⟩ | ⟨-, after, hnext, hran⟩
  · exact hkept.regs
  · rfl
  · have hafter : after ≠ .okfsAfterOkfsOpen := by
      rintro rfl
      exact hother hnext
    have hregs := hran.regs hfetched hafter
    exact hregs

/-- A file of OKFS has been opened: the second and the third argument are put back. -/
theorem leave_opened (hf : Fetched s) (hstack : s.slave.hasStackArgs = false)
    (hrestart : s.slave.restartCall = 0) (hnext : s.slave.nextCall = some .okfsAfterOkfsOpen)
    (hs' : leave h s = .ok (s', child)) :
    s'.regs.butEax =
      { s.regs.butEax with ecx := s.slave.saveRegs.ecx, edx := s.slave.saveRegs.edx } := by
  obtain ⟨-, s₁, halone, rfl⟩ := leave_alone hrestart hnext (by decide) hs'
  have hregs := okfsAfterOkfsOpen_args (leaving_fetched hf) hstack halone
  exact hregs

-- ---------------------------------------------------------------------------
-- Both stops of a call
-- ---------------------------------------------------------------------------

/-- The kernel executes the call, and of the registers only `eax` is another one then. This is
so of all calls but `execve`, if it succeeds, and `sigreturn` and `rt_sigreturn`. -/
structure Executes (s t : Tracee σ) : Prop extends Meanwhile s t where
  regs : t.regs = { s.regs with eax := t.regs.eax }
  saveRegs : t.slave.saveRegs = s.slave.saveRegs

/-- The stop at the entry, the kernel, and the stop at the end. -/
inductive Round (h : Host σ) (fakeroot : Bool) (s s' : Tracee σ) : Prop
  | mk (s₁ t : Tracee σ) (child : Option (Tracee σ))
      (hentry : handleSyscall h fakeroot s = .ok (s₁, none)) (hexec : Executes s₁ t)
      (hexit : handleSyscall h fakeroot t = .ok (s', child))

/-- `waitpid` or `wait4` is called with options that `before_wait` knows, and of the children
that are waited for the first one that is ready is stopped. -/
def meetsStopped (h : Host σ) (s : Tracee σ) : Prop :=
  (s.regs.origEax = 7 ∨ s.regs.origEax = 114) ∧ s.regs.edx &&& ~~~waitOptions = 0 ∧
    waitLoop s.regs.ebx.toInt s.slave.gid s.regs.edx (h.children s.world) false = .stopped

/-- What `fetch` makes of a state. -/
def fetched (fakeroot : Bool) (arg : Args) (s : Tracee σ) : Tracee σ :=
  { s with
    slave := { s.slave with
      regs := s.regs
      arg
      hasStackArgs := (callTable fakeroot (argsRow s.regs.origEax.toInt)).hasStackArgs } }

theorem handleSyscall_fetched (hs' : handleSyscall h fakeroot s = .ok (s', child)) :
    ∃ arg, Fetched (fetched fakeroot arg s) ∧
      (s.slave.duringCall = 0 ∧ enter h fakeroot (fetched fakeroot arg s) = .ok s' ∨
        s.slave.duringCall ≠ 0 ∧ leave h (fetched fakeroot arg s) = .ok (s', child)) := by
  obtain ⟨s₁, hfetch, hcases⟩ := handleSyscall_cases hs'
  obtain ⟨hf, arg, rfl⟩ := fetch_spec hfetch
  refine ⟨arg, hf, ?_⟩
  rcases hcases with ⟨hidle, henter, -⟩ | hleave
  · exact .inl ⟨hidle, henter⟩
  · exact .inr hleave

theorem fetched_scratch (hscratch : Scratch s) (arg : Args) : Scratch (fetched fakeroot arg s) :=
  hscratch.meanwhile ⟨rfl, rfl, rfl, rfl, rfl⟩

/-- The end of a call that has been left as it was, also of call 0. -/
theorem exit_regs (hscratch : Scratch t) (hother : t.slave.nextCall ≠ some .okfsAfterOkfsOpen)
    (hzero : t.slave.duringCall = 0 → t.regs.origEax.toInt = 0)
    (hs' : handleSyscall h fakeroot t = .ok (s', child)) : s'.regs.butEax = t.regs.butEax := by
  obtain ⟨arg, hf, hcases⟩ := handleSyscall_fetched hs'
  rcases hcases with ⟨hidle, henter⟩ | ⟨-, hleave⟩
  · rw [enter_zero (hzero hidle) henter]
    rfl
  · have hregs := leave_regs hf (fetched_scratch hscratch arg) hother hleave
    exact hregs

/-- At the entry the record says which call it is, and the kernel keeps the number. -/
theorem executes_zero {s₁ : Tracee σ} {arg : Args} (hexec : Executes s₁ t)
    (hentered : Entered h (calling fakeroot (fetched fakeroot arg s)) s₁)
    (henter : enter h fakeroot (fetched fakeroot arg s) = .ok s₁) :
    t.slave.duringCall = 0 → t.regs.origEax.toInt = 0 := by
  intro hzero
  have hnr : s.regs.origEax.toInt = 0 :=
    (hexec.duringCall.trans hentered.duringCall).symm.trans hzero
  rw [enter_zero hnr henter] at hexec
  have horig := congrArg UserRegs.origEax hexec.regs
  exact (congrArg BitVec.toInt horig).trans hnr

/-- `next_call` is that of the table, or one of those that are set by handlers. -/
theorem entered_next (hnone : s.slave.nextCall = none) (henter : enter h fakeroot s = .ok s')
    {next : Option After} (hplain : next = (calling fakeroot s).slave.nextCall ∨ next ∈ plainNext) :
    next ≠ some .okfsAfterOkfsOpen := by
  rintro rfl
  rcases hplain with hsame | hmem
  · unfold calling at hsame
    simp only at hsame
    split at hsame
    · rw [hnone] at hsame
      exact absurd hsame (by simp)
    · rename_i hnr
      exact row_opened (enter_bounds henter hnr) hsame.symm
  · exact absurd hmem (by decide)

/-- What has been written for a file of OKFS that is opened is put back. -/
theorem exit_opened {nr : Word} {arg : Args} {s₁ : Tracee σ} (hnr : nr = 5 ∨ nr = NR_OPEN)
    (hready : Ready s) (hopening : OkfsOpening nr (calling fakeroot (fetched fakeroot arg s)) s₁)
    (hexec : Executes s₁ t) (hcall : t.slave.duringCall ≠ 0)
    (hs' : handleSyscall h fakeroot t = .ok (s', child)) : s'.regs.butEax = s.regs.butEax := by
  obtain ⟨arg', hf, hcases⟩ := handleSyscall_fetched hs'
  rcases hcases with ⟨hidle, -⟩ | ⟨-, hleave⟩
  · exact absurd hidle hcall
  have horig : t.regs.origEax = nr := (congrArg UserRegs.origEax hexec.regs).trans hopening.origEax
  have hstack : (fetched fakeroot arg' t).slave.hasStackArgs = false := by
    rw [fetched, horig]
    rcases hnr with rfl | rfl <;> rfl
  have hrestart : (fetched fakeroot arg' t).slave.restartCall = 0 :=
    hexec.restartCall.trans (hopening.restartCall.trans (hready.scratch.idle hready.duringCall).2)
  have hnext : (fetched fakeroot arg' t).slave.nextCall = some .okfsAfterOkfsOpen :=
    hexec.nextCall.trans hopening.next
  have hregs := leave_opened hf hstack hrestart hnext hleave
  have hkernel : t.regs.butEax = s₁.regs.butEax := by
    rw [hexec.regs]
    rfl
  have hsaved : s₁.slave.saveRegs.butEax = s.regs.butEax := hopening.saved
  have hopened : s₁.regs.butEax = { s.regs.butEax with ecx := O_RDONLY ||| O_CREAT, edx := tmpfMode } :=
    hopening.regs
  rw [← hexec.saveRegs] at hsaved
  have hecx := congrArg UserRegs.ecx hsaved
  have hedx := congrArg UserRegs.edx hsaved
  calc s'.regs.butEax
      = { t.regs.butEax with ecx := t.slave.saveRegs.ecx, edx := t.slave.saveRegs.edx } := hregs
    _ = { s₁.regs.butEax with ecx := s.regs.ecx, edx := s.regs.edx } := by
      rw [hkernel, show t.slave.saveRegs.ecx = s.regs.ecx from hecx,
        show t.slave.saveRegs.edx = s.regs.edx from hedx]
    _ = s.regs.butEax := by rw [hopened]; rfl

-- ---------------------------------------------------------------------------
-- One round
-- ---------------------------------------------------------------------------

theorem wait_stack {arg : Args} (hnr : s.regs.origEax = 7 ∨ s.regs.origEax = 114) :
    (fetched fakeroot arg s).slave.hasStackArgs = false := by
  rw [fetched]
  rcases hnr with hnr | hnr <;> rw [hnr] <;> rfl

/-- The registers are what the loop goes by. -/
theorem findsStopped_fetched {arg : Args} (hf : Fetched (fetched fakeroot arg s))
    (hnr : s.regs.origEax = 7 ∨ s.regs.origEax = 114) :
    findsStopped h (fetched fakeroot arg s) ↔ meetsStopped h s := by
  have hargs := hf.arg (wait_stack hnr)
  simp only [Args.regs, UserRegs.args, List.cons.injEq, and_true] at hargs
  unfold findsStopped meetsStopped Slave.arg1 Slave.arg3
  rw [hargs.1, hargs.2.2.1]
  exact ⟨fun hfinds => ⟨hnr, hfinds⟩, fun hmeets => hmeets.2⟩

/-- A call that finds a stopped child gets one more option for the kernel, and keeps it. -/
theorem Round.stopped (hround : Round h fakeroot s s') (hready : Ready s)
    (hmeets : meetsStopped h s) :
    s'.regs.butEax = { s.regs.butEax with edx := s.regs.edx ||| Wait.WNOHANG } := by
  obtain ⟨s₁, t, child, hentry, hexec, hexit⟩ := hround
  have hnr := hmeets.1
  obtain ⟨arg, hf, hcases⟩ := handleSyscall_fetched hentry
  rcases hcases with ⟨-, henter⟩ | ⟨hcall, -⟩
  · have hfinds := (findsStopped_fetched hf hnr).mpr hmeets
    have hasks := enter_wait hf (wait_stack hnr) hnr hfinds henter
    have hscratch : Scratch t :=
      (handleSyscall_scratch hready.scratch hentry).1.meanwhile hexec.toMeanwhile
    have hnext : t.slave.nextCall ≠ some .okfsAfterOkfsOpen := by
      rw [hexec.nextCall, hasks.next]
      decide
    have hkernel : t.regs.butEax = s₁.regs.butEax := by
      rw [hexec.regs]
      rfl
    have hregs := exit_regs hscratch hnext (executes_zero hexec
      (.stopped hnr hfinds hasks) henter) hexit
    rw [hregs, hkernel]
    exact hasks.regs
  · exact absurd hready.duringCall hcall

/-- All other calls keep all registers. -/
theorem Round.kept (hround : Round h fakeroot s s') (hready : Ready s)
    (hmeets : ¬ meetsStopped h s) : s'.regs.butEax = s.regs.butEax := by
  obtain ⟨s₁, t, child, hentry, hexec, hexit⟩ := hround
  obtain ⟨arg, hf, hcases⟩ := handleSyscall_fetched hentry
  rcases hcases with ⟨hidle, henter⟩ | ⟨hcall, -⟩
  · have hempty := (hready.scratch.idle hidle).1
    have hentered := enter_cases hf hempty rfl henter
    have hnone : (fetched fakeroot arg s).slave.nextCall = none := hready.nextCall
    have hscratch : Scratch t :=
      (handleSyscall_scratch hready.scratch hentry).1.meanwhile hexec.toMeanwhile
    have hzero := executes_zero hexec hentered henter
    have hkernel : t.regs.butEax = s₁.regs.butEax := by
      rw [hexec.regs]
      rfl
    -- what is left in the registers at the entry is left there at the end
    have hplain : s₁.slave.nextCall ≠ some .okfsAfterOkfsOpen →
        s₁.regs.butEax = s.regs.butEax → s'.regs.butEax = s.regs.butEax := by
      intro hnext hregs
      rw [← hexec.nextCall] at hnext
      rw [exit_regs hscratch hnext hzero hexit, hkernel, hregs]
    cases hentered with
    | plain hplain' => exact hplain (entered_next hnone henter hplain'.next) hplain'.regs
    | both hboth hnext =>
      obtain ⟨callfs, hkept, hnext'⟩ := hboth
      refine hplain ?_ hkept.regs
      rw [hnext']
      rcases hnext with hnext | hnext <;> rw [hnext] <;> decide
    | okfsOpen nr hnr hopening =>
      refine exit_opened hnr hready hopening hexec (fun hno => ?_) hexit
      -- call 0 has no handler
      have horig := (hexec.duringCall.trans hopening.duringCall).symm.trans hno
      have hnext := hopening.next
      rw [enter_zero horig henter, calling_next_zero horig] at hnext
      exact absurd hnext (by simp)
    | linuxOpen hopening =>
      refine hplain ?_ hopening.regs
      rw [hopening.next]
      decide
    | suspended hsuspends =>
      exact hplain (entered_next hnone henter (.inl hsuspends.next)) hsuspends.regs
    | stopped hnr hfinds hasks =>
      exact absurd ((findsStopped_fetched hf hnr).mp hfinds) hmeets
  · exact absurd hready.duringCall hcall

theorem Round.ready (hround : Round h fakeroot s s') (hready : Ready s) : Ready s' := by
  obtain ⟨s₁, t, child, hentry, hexec, hexit⟩ := hround
  have hscratch₁ := (handleSyscall_scratch hready.scratch hentry).1
  have hscratch := hscratch₁.meanwhile hexec.toMeanwhile
  refine (handleSyscall_ready hscratch hexit).1 ?_
  obtain ⟨arg, hf, hcases⟩ := handleSyscall_fetched hentry
  obtain ⟨arg', hf', hcases'⟩ := handleSyscall_fetched hexit
  rcases hcases with ⟨hidle, henter⟩ | ⟨hcall, -⟩
  · have hentered := enter_cases hf (hready.scratch.idle hidle).1 rfl henter
    rcases hcases' with ⟨hidle', henter'⟩ | ⟨-, hleave⟩
    · have hzero := executes_zero hexec hentered henter hidle'
      rw [enter_zero hzero henter']
      exact hzero
    · exact leave_idle hf' (fetched_scratch hscratch arg') hleave
  · exact absurd hready.duringCall hcall

-- ---------------------------------------------------------------------------
-- Calls that are made again
-- ---------------------------------------------------------------------------

/-- `-ERESTARTSYS`, `-ERESTARTNOINTR`, `-ERESTARTNOHAND`, `-ERESTART_RESTARTBLOCK`. -/
def restartCodes : List Word := [-512, -513, -514, -516].map (BitVec.ofInt 32)

/-- The kernel makes an interrupted call again: with the same number, or by call 0. -/
structure Again (s r : Tracee σ) : Prop extends Meanwhile s r where
  code : s.regs.eax ∈ restartCodes
  regs : r.regs.butEax = s.regs.butEax
  nr : r.regs.origEax = s.regs.origEax ∨
    s.regs.eax = BitVec.ofInt 32 (-516) ∧ r.regs.origEax = 0

/-- A call from the point where it is made to its return; the list has the states in which it is
made, which are several if it is interrupted or suspended. -/
inductive Call (h : Host σ) (fakeroot : Bool) : List (Tracee σ) → Tracee σ → Prop
  | returns (s s' : Tracee σ) (hround : Round h fakeroot s s') : Call h fakeroot [s] s'
  | again (s s₁ r s' : Tracee σ) (rs : List (Tracee σ)) (hround : Round h fakeroot s s₁)
      (hagain : Again s₁ r) (hcall : Call h fakeroot (r :: rs) s') : Call h fakeroot (s :: r :: rs) s'

/-- The option is added to options that have not had it. -/
def leavesNohang (h : Host σ) (s : Tracee σ) : Prop :=
  meetsStopped h s ∧ s.regs.edx &&& Wait.WNOHANG = 0

theorem nohang_bit {i : Nat} (hi : i < 32) : Wait.WNOHANG[i] = decide (i = 0) := by
  simp [Wait.WNOHANG]

theorem nohang_added (x : Word) : (x ||| Wait.WNOHANG) &&& Wait.WNOHANG ≠ 0 := by
  have hand : (x ||| Wait.WNOHANG) &&& Wait.WNOHANG = Wait.WNOHANG := by
    ext i hi
    rw [BitVec.getElem_and, BitVec.getElem_or]
    cases x[i] <;> cases Wait.WNOHANG[i] <;> rfl
  rw [hand]
  decide

theorem nohang_present {x : Word} (hx : x &&& Wait.WNOHANG ≠ 0) : x ||| Wait.WNOHANG = x := by
  have hset : x[0] = true := by
    by_contra hno
    refine hx (BitVec.eq_of_getElem_eq fun i hi => ?_)
    rw [BitVec.getElem_and, nohang_bit hi]
    by_cases hzero : i = 0
    · subst hzero
      simpa using hno
    · simp [hzero]
  ext i hi
  rw [BitVec.getElem_or, nohang_bit hi]
  by_cases hzero : i = 0
  · subst hzero
    simp [hset]
  · simp [hzero]

theorem Round.edx (hround : Round h fakeroot s s') (hready : Ready s) :
    s'.regs.edx = s.regs.edx ∨ s'.regs.edx = s.regs.edx ||| Wait.WNOHANG := by
  by_cases hmeets : meetsStopped h s
  · have hregs := congrArg UserRegs.edx (hround.stopped hready hmeets)
    exact .inr hregs
  · have hregs := congrArg UserRegs.edx (hround.kept hready hmeets)
    exact .inl hregs

/-- A round whose options are left alone leaves all registers alone. -/
theorem Round.regs (hround : Round h fakeroot s s') (hready : Ready s)
    (hleaves : ¬ leavesNohang h s) : s'.regs.butEax = s.regs.butEax := by
  by_cases hmeets : meetsStopped h s
  · have hpresent : s.regs.edx ||| Wait.WNOHANG = s.regs.edx :=
      nohang_present fun hno => hleaves ⟨hmeets, hno⟩
    rw [hround.stopped hready hmeets, hpresent]
    rfl
  · exact hround.kept hready hmeets

theorem Again.ready (hagain : Again s t) (hready : Ready s) : Ready t :=
  hready.meanwhile hagain.toMeanwhile

/-- An option that is there stays. -/
theorem Call.nohang {calls : List (Tracee σ)} (hcall : Call h fakeroot calls s') :
    ∀ s rs, calls = s :: rs → Ready s → s.regs.edx &&& Wait.WNOHANG ≠ 0 →
      s'.regs.edx &&& Wait.WNOHANG ≠ 0 := by
  have hround : ∀ {s s₁ : Tracee σ}, Round h fakeroot s s₁ → Ready s →
      s.regs.edx &&& Wait.WNOHANG ≠ 0 → s₁.regs.edx &&& Wait.WNOHANG ≠ 0 := by
    intro s s₁ hround hready hset
    rcases hround.edx hready with hedx | hedx
    · rwa [hedx]
    · rw [hedx]
      exact nohang_added _
  induction hcall with
  | returns s s' hround' =>
    rintro _ _ ⟨⟩ hready hset
    exact hround hround' hready hset
  | again s s₁ r s' rs hround' hagain hcall ih =>
    rintro _ _ ⟨⟩ hready hset
    refine ih r rs rfl (hagain.ready (hround'.ready hready)) ?_
    have hedx := congrArg UserRegs.edx hagain.regs
    rw [show r.regs.edx = s₁.regs.edx from hedx]
    exact hround hround' hready hset

/-- One option is added for good in such a round, and it has not been there before. -/
theorem Call.leaves {calls : List (Tracee σ)} (hcall : Call h fakeroot calls s') :
    ∀ s rs, calls = s :: rs → Ready s → (∃ r ∈ s :: rs, leavesNohang h r) →
      s.regs.edx &&& Wait.WNOHANG = 0 ∧ s'.regs.edx &&& Wait.WNOHANG ≠ 0 := by
  induction hcall with
  | returns s s' hround =>
    rintro _ _ ⟨⟩ hready ⟨r, hr, hleaves⟩
    obtain rfl := List.mem_singleton.mp hr
    refine ⟨hleaves.2, ?_⟩
    have hedx := congrArg UserRegs.edx (hround.stopped hready hleaves.1)
    rw [show s'.regs.edx = r.regs.edx ||| Wait.WNOHANG from hedx]
    exact nohang_added _
  | again s s₁ r s' rs hround hagain hcall ih =>
    rintro _ _ ⟨⟩ hready ⟨r', hr', hleaves⟩
    have hready' := hagain.ready (hround.ready hready)
    have hedx := congrArg UserRegs.edx hagain.regs
    have hedx : r.regs.edx = s₁.regs.edx := hedx
    rcases List.mem_cons.mp hr' with rfl | hrest
    · -- it is added in this round, and stays in the others
      refine ⟨hleaves.2, hcall.nohang r rs rfl hready' ?_⟩
      have hadded := congrArg UserRegs.edx (hround.stopped hready hleaves.1)
      rw [hedx, show s₁.regs.edx = r'.regs.edx ||| Wait.WNOHANG from hadded]
      exact nohang_added _
    · obtain ⟨hno, hset⟩ := ih r rs rfl hready' ⟨r', hrest, hleaves⟩
      refine ⟨?_, hset⟩
      rw [hedx] at hno
      rcases hround.edx hready with hsame | hadded
      · rwa [hsame] at hno
      · rw [hadded] at hno
        exact absurd hno (nohang_added _)

theorem Call.regs {calls : List (Tracee σ)} (hcall : Call h fakeroot calls s') :
    ∀ s rs, calls = s :: rs → Ready s → (∀ r ∈ s :: rs, ¬ leavesNohang h r) →
      s'.regs.butEax = s.regs.butEax := by
  induction hcall with
  | returns s s' hround =>
    rintro _ _ ⟨⟩ hready hnone
    exact hround.regs hready (hnone s (List.mem_cons_self ..))
  | again s s₁ r s' rs hround hagain hcall ih =>
    rintro _ _ ⟨⟩ hready hnone
    have hready' := hagain.ready (hround.ready hready)
    calc s'.regs.butEax
        = r.regs.butEax :=
          ih r rs rfl hready' fun r' hr' => hnone r' (List.mem_cons_of_mem s hr')
      _ = s₁.regs.butEax := hagain.regs
      _ = s.regs.butEax := hround.regs hready (hnone s (List.mem_cons_self ..))

-- ---------------------------------------------------------------------------
-- Which calls keep the registers
-- ---------------------------------------------------------------------------

/-- Only `eax` has changed when a call returns, unless one time that it was made the first child
that was ready was a stopped one, and its options were without `WNOHANG`. -/
theorem registers_kept_iff {s₀ : Tracee σ} {rs : List (Tracee σ)}
    (hreached : Reached h fakeroot s₀) (hstop : Meanwhile s₀ s) (hidle : s.slave.duringCall = 0)
    (hcall : Call h fakeroot (s :: rs) s') :
    s'.regs.butEax = s.regs.butEax ↔ ∀ r ∈ s :: rs, ¬ leavesNohang h r := by
  have hready : Ready s :=
    (hreached.ready (hstop.duringCall.symm.trans hidle)).meanwhile hstop
  constructor
  · intro hregs r hr hleaves
    obtain ⟨hno, hset⟩ := hcall.leaves s rs rfl hready ⟨r, hr, hleaves⟩
    have hedx := congrArg UserRegs.edx hregs
    rw [show s'.regs.edx = s.regs.edx from hedx] at hset
    exact hset hno
  · exact hcall.regs s rs rfl hready

/-- `rename("/d", "/e")`, with something else in every register. -/
theorem registers_kept_rename :
    ∃ s', Call bareHost false [namingTracee renameRegs] s' ∧
      s'.regs.butEax = renameRegs.butEax := by
  have hround : ∃ s', Round bareHost false (namingTracee renameRegs) s' := by
    refine ⟨_, .mk _ _ none rfl ⟨⟨rfl, rfl, rfl, rfl, rfl⟩, rfl, rfl⟩ rfl⟩
  obtain ⟨s', hround⟩ := hround
  refine ⟨s', .returns _ s' hround, ?_⟩
  refine (registers_kept_iff (.start _ ⟨rfl, rfl, rfl, rfl, rfl⟩) ⟨rfl, rfl, rfl, rfl, rfl⟩ rfl
    (.returns _ s' hround)).mpr fun r hr => ?_
  obtain rfl := List.mem_singleton.mp hr
  rintro ⟨⟨hnr, -⟩, -⟩
  exact absurd hnr (by decide)

/-- The task has a child, 101, that `SIGSTOP` has stopped. -/
def stoppedHost : Host Unit :=
  { bareHost with
    children := fun _ => [⟨101, 100, .stopped, 0x137f⟩]
    stoppedChild := fun _ => ⟨101, 100, .stopped, 0x137f⟩ }

/-- `waitpid(101, &status, WUNTRACED)`, with `edx` that is 2 before and 3 after it. -/
theorem not_registers_kept :
    ¬ ∀ (h : Host Unit) (s₀ s s' : Tracee Unit) (rs : List (Tracee Unit)), Reached h false s₀ →
      Meanwhile s₀ s → s.slave.duringCall = 0 → Call h false (s :: rs) s' →
        s'.regs.butEax = s.regs.butEax := by
  intro hkept
  have hround : ∃ s', Round stoppedHost false (bareTracee (callRegs 7 101 4096 2)) s' :=
    ⟨_, .mk _ _ none rfl ⟨⟨rfl, rfl, rfl, rfl, rfl⟩, rfl, rfl⟩ rfl⟩
  obtain ⟨s', hround⟩ := hround
  have hfresh : Fresh (bareTracee (callRegs 7 101 4096 2)) := ⟨rfl, rfl, rfl, rfl, rfl⟩
  have hregs := hkept stoppedHost _ _ s' [] (.start _ hfresh) ⟨rfl, rfl, rfl, rfl, rfl⟩ rfl
    (.returns _ s' hround)
  have hmeets : meetsStopped stoppedHost (bareTracee (callRegs 7 101 4096 2)) :=
    ⟨.inl rfl, by decide, by decide⟩
  rw [hround.stopped ⟨hfresh.scratch, rfl, rfl⟩ hmeets] at hregs
  exact absurd (congrArg UserRegs.edx hregs) (by decide)

end Syscall

end Okfs
