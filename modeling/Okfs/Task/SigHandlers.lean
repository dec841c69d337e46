import Okfs.Lib.Runs
import Okfs.Linux
import Okfs.Task.Signals
import Mathlib.Logic.Function.Basic

/-!
# OKFS — actions for the stopping signals

OKFS simulates the stop that `SIGTSTP`, `SIGTTIN` and `SIGTTOU` make by default, so it
keeps in `sighandler` which of them have their default action. It follows `sigaction`
and `rt_sigaction`, and reads the new action from the tracee when the call has returned;
a child inherits the table at `fork`. It follows neither `signal` nor the reset of
handlers by `execve`, nor a call that fails after it has set the action, and it reads the
wrong action where the kernel has stored the old one over the new one. `KeepsActions`
leaves these out.
-/

namespace Okfs

namespace Signal

open ByteMemory

-- ---------------------------------------------------------------------------
-- The kernel
-- ---------------------------------------------------------------------------

/-- The action of the kernel for a signal; the mask is of two words. -/
structure Action where
  handler : Word
  flags : Word
  restorer : Word
  maskLow : Word
  maskHigh : Word
  deriving DecidableEq, Repr

/-- The two calls that set an action: they store it differently. -/
inductive SigactionCall
  | sigaction | rtSigaction
  deriving DecidableEq, Repr

/-- The words of `struct old_sigaction` and of `struct sigaction`. -/
def Action.words (act : Action) : SigactionCall → List Word
  | .sigaction => [act.handler, act.maskLow, act.flags, act.restorer]
  | .rtSigaction => [act.handler, act.flags, act.restorer, act.maskLow, act.maskHigh]

def readAction (m : Mem) (a : Nat) : SigactionCall → Action
  | .sigaction => ⟨peek m a, peek m (a + 8), peek m (a + 12), peek m (a + 4), 0⟩
  | .rtSigaction => ⟨peek m a, peek m (a + 4), peek m (a + 8), peek m (a + 12), peek m (a + 16)⟩

def writeWords (m : Mem) (a : Nat) : List Word → Mem
  | [] => m
  | w :: ws => writeWords (poke m a w) (a + 4) ws

abbrev Actions := Int → Action

/-- `SIGKILL` and `SIGSTOP` cannot be blocked. -/
def Action.unblocked (act : Action) : Action :=
  { act with maskLow := act.maskLow &&& ~~~(((1 : Word) <<< 8) ||| ((1 : Word) <<< 18)) }

def mayChange (sig : Int) : Bool := validSig sig && sig != SIGKILL && sig != SIGSTOP

/-- What the kernel does for `sigaction` and `rt_sigaction`: the actions after it, the
memory, and whether it reports success. A pointer that is not `NULL` may be to memory
that the tracee cannot read or write. -/
def kernelSigaction (c : SigactionCall) (actions : Actions) (m : Mem) (sig : Int) (act oact : Nat)
    (readable writable : Bool) : Actions × Mem × Bool :=
  if act ≠ 0 ∧ readable = false then (actions, m, false)
  else if validSig sig = false ∨ (act ≠ 0 ∧ mayChange sig = false) then (actions, m, false)
  else
    let actions' :=
      if act ≠ 0 then Function.update actions sig (readAction m act c).unblocked else actions
    if oact = 0 then (actions', m, true)
    else if writable then (actions', writeWords m oact ((actions sig).words c), true)
    else (actions', m, false)

/-- `signal` sets a handler that is reset when it has been called once. -/
def kernelSignal (actions : Actions) (sig : Int) (handler : Word) : Actions :=
  if mayChange sig then Function.update actions sig ⟨handler, 0xc0000000, 0, 0, 0⟩ else actions

/-- `execve` resets the handlers, and leaves ignored what is ignored. -/
def kernelExecve (actions : Actions) : Actions := fun sig =>
  if (actions sig).handler = SIG_IGN then { actions sig with flags := 0, maskLow := 0, maskHigh := 0 }
  else { actions sig with handler := SIG_DFL, flags := 0, maskLow := 0, maskHigh := 0 }

-- ---------------------------------------------------------------------------
-- okfs_signal.c
-- ---------------------------------------------------------------------------

/-- What is kept of a task here, beside what the kernel has. -/
structure Task where
  sighandler : Int → Word
  nocldstop : Bool
  actions : Actions

/-- `after_sigaction` and `after_rt_sigaction`: they read another structure. -/
def afterSigaction (c : SigactionCall) (slave : Task) (m : Mem) (signum : Int) (actp : Nat)
    (success : Bool) : Task :=
  if success = false ∨ actp = 0 then slave
  else if stoppingSig signum then
    if (readAction m actp c).handler = SIG_DFL then
      { slave with sighandler := Function.update slave.sighandler signum SIG_DFL }
    else { slave with sighandler := Function.update slave.sighandler signum NOT_SIG_DFL }
  else if signum = SIGCHLD then
    { slave with
      nocldstop := decide ((readAction m actp c).flags &&& SA_NOCLDSTOP = SA_NOCLDSTOP) }
  else slave

/-- `add_slave` copies the entries from 1 to `_NSIG - 1`; there is no other. -/
def addSlave (parent : Task) : Task := parent

/-- The first task: `add_slave` sets the entries, and the kernel has what OKFS inherited. -/
def firstSlave (inherited : Actions) : Task :=
  { sighandler := fun _ => SIG_DFL, nocldstop := false, actions := inherited }

-- ---------------------------------------------------------------------------
-- Runs
-- ---------------------------------------------------------------------------

abbrev TaskRef := Nat

structure State where
  tasks : TaskRef → Option Task
  nextTask : TaskRef

/-- A call of a task. The memory is the one that the task has made for itself. -/
inductive Event
  | signal (t : TaskRef) (sig : Int) (handler : Word)
  | sigaction (t : TaskRef) (c : SigactionCall) (m : Mem) (signum : Int) (act oact : Nat)
      (readable writable : Bool)
  | fork (t : TaskRef) (success : Bool)
  | execve (t : TaskRef) (success : Bool)

def State.put (s : State) (t : TaskRef) (slave : Task) : State :=
  { s with tasks := Function.update s.tasks t (some slave) }

def sigactionStep (c : SigactionCall) (slave : Task) (m : Mem) (signum : Int) (act oact : Nat)
    (readable writable : Bool) : Task :=
  let (actions, m, success) := kernelSigaction c slave.actions m signum act oact readable writable
  afterSigaction c { slave with actions } m signum act success

def step (s : State) : Event → Option State
  | .signal t sig handler => do
    let slave ← s.tasks t
    -- the table of calls has no handler for `signal`
    return s.put t { slave with actions := kernelSignal slave.actions sig handler }
  | .sigaction t c m signum act oact readable writable => do
    let slave ← s.tasks t
    return s.put t (sigactionStep c slave m signum act oact readable writable)
  | .fork t success => do
    let slave ← s.tasks t
    if success then return { s.put s.nextTask (addSlave slave) with nextTask := s.nextTask + 1 }
    else return s
  | .execve t success => do
    let slave ← s.tasks t
    -- `after_execve` looks at descriptors only
    return if success then s.put t { slave with actions := kernelExecve slave.actions } else s

def start (inherited : Actions) : State :=
  { tasks := Function.update (fun _ => none) 0 (some (firstSlave inherited)), nextTask := 1 }

-- ---------------------------------------------------------------------------
-- The mirror
-- ---------------------------------------------------------------------------

/-- The stopping signals that may have an action. -/
def Tracked (sig : Int) : Prop := sig = SIGTSTP ∨ sig = SIGTTIN ∨ sig = SIGTTOU

/-- The entry is `SIG_DFL` exactly when the action is the default one. -/
def Mirrors (slave : Task) : Prop :=
  ∀ sig, Tracked sig → (slave.sighandler sig = SIG_DFL ↔ (slave.actions sig).handler = SIG_DFL)

/-- What a call of the task must not do. -/
def CallKeeps (slave : Task) : Event → Prop
  | .signal _ sig handler => Tracked sig →
      (handler = SIG_DFL ↔ (slave.actions sig).handler = SIG_DFL)
  | .sigaction _ c m signum act oact readable writable =>
    let (_, m', success) := kernelSigaction c slave.actions m signum act oact readable writable
    Tracked signum → act ≠ 0 → readable = true →
      -- the action that was set, against the one that is read back or stays in the table
      ((peek m act = SIG_DFL) ↔
        if success then peek m' act = SIG_DFL else (slave.actions signum).handler = SIG_DFL)
  | .fork .. => True
  | .execve _ success => success = true → ∀ sig, Tracked sig →
      (slave.actions sig).handler = SIG_DFL ∨ (slave.actions sig).handler = SIG_IGN

def Event.task : Event → TaskRef
  | .signal t .. | .sigaction t .. | .fork t _ | .execve t _ => t

/-- No call that the table does not follow. -/
def KeepsActions (s : State) (e : Event) : Prop :=
  ∀ slave, s.tasks e.task = some slave → CallKeeps slave e

-- ---------------------------------------------------------------------------
-- Calls
-- ---------------------------------------------------------------------------

variable {slave : Task} {s s' : State} {t : TaskRef} {e : Event} {sig signum : Int}

theorem Tracked.stopping (h : Tracked sig) : stoppingSig sig = true := by
  rcases h with rfl | rfl | rfl <;> decide

theorem Tracked.mayChange (h : Tracked sig) : mayChange sig = true := by
  rcases h with rfl | rfl | rfl <;> decide

theorem NOT_SIG_DFL_ne : NOT_SIG_DFL ≠ SIG_DFL := by decide

theorem readAction_handler (m : Mem) (a : Nat) (c : SigactionCall) :
    (readAction m a c).handler = peek m a := by
  cases c <;> rfl

/-- The entry of `signum` after the call, if it is of a stopping signal. -/
theorem afterSigaction_sighandler (c : SigactionCall) (slave : Task) (m : Mem) (signum : Int)
    (actp : Nat) (success : Bool) (hsig : Tracked sig) :
    (afterSigaction c slave m signum actp success).sighandler sig =
      if sig = signum ∧ success = true ∧ actp ≠ 0 then
        (if peek m actp = SIG_DFL then SIG_DFL else NOT_SIG_DFL)
      else slave.sighandler sig := by
  unfold afterSigaction
  by_cases hskip : success = false ∨ actp = 0
  · rw [if_pos hskip, if_neg]
    rintro ⟨-, hsuccess, hactp⟩
    rcases hskip with hskip | hskip
    · rw [hskip] at hsuccess
      cases hsuccess
    · exact hactp hskip
  · have hdone : success = true ∧ actp ≠ 0 := by simpa using hskip
    rw [if_neg hskip, readAction_handler]
    by_cases hsame : sig = signum
    · subst hsame
      rw [if_pos hsig.stopping,
        if_pos (show sig = sig ∧ success = true ∧ actp ≠ 0 from ⟨rfl, hdone⟩)]
      by_cases hdfl : peek m actp = SIG_DFL
      · rw [if_pos hdfl, if_pos hdfl]
        exact Function.update_self sig SIG_DFL slave.sighandler
      · rw [if_neg hdfl, if_neg hdfl]
        exact Function.update_self sig NOT_SIG_DFL slave.sighandler
    · rw [if_neg (show ¬ (sig = signum ∧ success = true ∧ actp ≠ 0) from fun h => hsame h.1)]
      by_cases hstop : stoppingSig signum = true
      · rw [if_pos hstop]
        by_cases hdfl : peek m actp = SIG_DFL
        · rw [if_pos hdfl]
          exact Function.update_of_ne hsame SIG_DFL slave.sighandler
        · rw [if_neg hdfl]
          exact Function.update_of_ne hsame NOT_SIG_DFL slave.sighandler
      · rw [if_neg hstop]
        split <;> rfl

theorem afterSigaction_actions (c : SigactionCall) (slave : Task) (m : Mem) (signum : Int)
    (actp : Nat) (success : Bool) :
    (afterSigaction c slave m signum actp success).actions = slave.actions := by
  unfold afterSigaction
  split
  · rfl
  · split
    · split <;> rfl
    · split <;> rfl

/-- The action of a signal after `sigaction`. -/
theorem kernelSigaction_handler (c : SigactionCall) (actions : Actions) (m : Mem) (signum : Int)
    (act oact : Nat) (readable writable : Bool) (hsig : Tracked sig) :
    ((kernelSigaction c actions m signum act oact readable writable).1 sig).handler =
      if sig = signum ∧ act ≠ 0 ∧ readable = true then peek m act else (actions sig).handler := by
  unfold kernelSigaction
  by_cases hfault : act ≠ 0 ∧ readable = false
  · rw [if_pos hfault]
    refine (if_neg fun h => ?_).symm
    rw [hfault.2] at h
    cases h.2.2
  rw [if_neg hfault]
  by_cases hinvalid : validSig signum = false ∨ (act ≠ 0 ∧ mayChange signum = false)
  · rw [if_pos hinvalid]
    refine (if_neg ?_).symm
    rintro ⟨rfl, hact, -⟩
    have hmay := hsig.mayChange
    rcases hinvalid with hinvalid | ⟨-, hinvalid⟩
    · rw [mayChange, hinvalid] at hmay
      cases hmay
    · rw [hinvalid] at hmay
      cases hmay
  rw [if_neg hinvalid]
  -- what is reported does not change what has been set
  have hset : ((if act ≠ 0 then Function.update actions signum (readAction m act c).unblocked
      else actions) sig).handler =
      if sig = signum ∧ act ≠ 0 ∧ readable = true then peek m act else (actions sig).handler := by
    by_cases hact : act ≠ 0
    · have hread : readable = true := by simpa [hact] using hfault
      rw [if_pos hact]
      by_cases hsame : sig = signum
      · rw [if_pos ⟨hsame, hact, hread⟩, hsame, Function.update_self]
        exact readAction_handler m act c
      · rw [if_neg fun h => hsame h.1, Function.update_of_ne hsame]
    · rw [if_neg hact, if_neg fun h => hact h.2.1]
  by_cases hoact : oact = 0
  · rw [if_pos hoact]
    exact hset
  · rw [if_neg hoact]
    split <;> exact hset

theorem Mirrors.sigaction (h : Mirrors slave) {c : SigactionCall} {m : Mem} {act oact : Nat}
    {readable writable : Bool}
    (hkeeps : CallKeeps slave (.sigaction t c m signum act oact readable writable)) :
    Mirrors (sigactionStep c slave m signum act oact readable writable) := by
  intro sig hsig
  have hhandler := kernelSigaction_handler c slave.actions m signum act oact readable writable hsig
  have hsuccess : (kernelSigaction c slave.actions m signum act oact readable writable).2.2 = true →
      act ≠ 0 → readable = true := by
    intro hs hact
    by_contra hread
    rw [kernelSigaction, if_pos ⟨hact, Bool.eq_false_iff.mpr hread⟩] at hs
    cases hs
  rcases hres : kernelSigaction c slave.actions m signum act oact readable writable with
    ⟨actions', m', success⟩
  simp only [CallKeeps, hres] at hkeeps
  rw [hres] at hsuccess
  have hhandler : (actions' sig).handler = _ := hres ▸ hhandler
  have hstep : sigactionStep c slave m signum act oact readable writable =
      afterSigaction c { slave with actions := actions' } m' signum act success := by
    rw [sigactionStep, hres]
  rw [hstep]
  rw [afterSigaction_actions, afterSigaction_sighandler _ _ _ _ _ _ hsig, hhandler]
  by_cases hset : sig = signum ∧ act ≠ 0 ∧ readable = true
  · obtain ⟨rfl, hact, hread⟩ := hset
    have hkeeps := hkeeps hsig hact hread
    rw [if_pos (show sig = sig ∧ act ≠ 0 ∧ readable = true from ⟨rfl, hact, hread⟩), hkeeps]
    cases success with
    | true =>
      rw [if_pos (show sig = sig ∧ true = true ∧ act ≠ 0 from ⟨rfl, rfl, hact⟩), if_pos rfl]
      by_cases hdfl : peek m' act = SIG_DFL
      · rw [if_pos hdfl]
        exact iff_of_true rfl hdfl
      · rw [if_neg hdfl]
        exact iff_of_false NOT_SIG_DFL_ne hdfl
    | false =>
      rw [if_neg (show ¬ (sig = sig ∧ false = true ∧ act ≠ 0) by simp), if_neg Bool.false_ne_true]
      exact h sig hsig
  · rw [if_neg hset, if_neg (show ¬ (sig = signum ∧ success = true ∧ act ≠ 0) from ?_)]
    · exact h sig hsig
    · rintro ⟨rfl, hs, hact⟩
      exact hset ⟨rfl, hact, hsuccess hs hact⟩

theorem Mirrors.signal (h : Mirrors slave) {handler : Word}
    (hkeeps : CallKeeps slave (.signal t signum handler)) :
    Mirrors { slave with actions := kernelSignal slave.actions signum handler } := by
  intro sig hsig
  show slave.sighandler sig = SIG_DFL ↔ (kernelSignal slave.actions signum handler sig).handler = SIG_DFL
  rw [h sig hsig, kernelSignal]
  split
  · by_cases hsame : sig = signum
    · subst hsame
      rw [Function.update_self]
      exact (hkeeps hsig).symm
    · rw [Function.update_of_ne hsame]
  · exact Iff.rfl

theorem Mirrors.execve (h : Mirrors slave) (hkeeps : CallKeeps slave (.execve t true)) :
    Mirrors { slave with actions := kernelExecve slave.actions } := by
  intro sig hsig
  show slave.sighandler sig = SIG_DFL ↔ (kernelExecve slave.actions sig).handler = SIG_DFL
  rw [h sig hsig, kernelExecve]
  rcases hkeeps rfl sig hsig with hdfl | hign
  · have hne : (slave.actions sig).handler ≠ SIG_IGN := by rw [hdfl]; decide
    rw [if_neg hne]
    exact iff_of_true hdfl rfl
  · rw [if_pos hign]

-- ---------------------------------------------------------------------------
-- Runs
-- ---------------------------------------------------------------------------

def AllMirror (s : State) : Prop := ∀ t slave, s.tasks t = some slave → Mirrors slave

@[simp] theorem State.put_tasks_self (s : State) (t : TaskRef) (slave : Task) :
    (s.put t slave).tasks t = some slave :=
  Function.update_self ..

@[simp] theorem State.put_tasks_of_ne (s : State) {t u : TaskRef} (slave : Task) (h : u ≠ t) :
    (s.put t slave).tasks u = s.tasks u :=
  Function.update_of_ne h ..

theorem AllMirror.put (h : AllMirror s) (hslave : Mirrors slave) : AllMirror (s.put t slave) := by
  intro u tp hu
  by_cases hut : u = t
  · rw [hut, State.put_tasks_self] at hu
    exact Option.some.inj hu ▸ hslave
  · rw [State.put_tasks_of_ne s slave hut] at hu
    exact h u tp hu

theorem AllMirror.step (h : AllMirror s) (hkeeps : KeepsActions s e) (hs' : step s e = some s') :
    AllMirror s' := by
  cases e with
  | signal t sig handler =>
    obtain ⟨slave, ht, heq⟩ := Option.bind_eq_some_iff.mp hs'
    obtain rfl := Option.some.inj heq
    exact h.put ((h t slave ht).signal (hkeeps slave ht))
  | sigaction t c m signum act oact readable writable =>
    obtain ⟨slave, ht, heq⟩ := Option.bind_eq_some_iff.mp hs'
    obtain rfl := Option.some.inj heq
    exact h.put ((h t slave ht).sigaction (hkeeps slave ht))
  | fork t success =>
    obtain ⟨slave, ht, heq⟩ := Option.bind_eq_some_iff.mp hs'
    cases success with
    | true =>
      obtain rfl := Option.some.inj heq
      exact h.put (t := s.nextTask) (h t slave ht)
    | false => exact Option.some.inj heq ▸ h
  | execve t success =>
    obtain ⟨slave, ht, heq⟩ := Option.bind_eq_some_iff.mp hs'
    cases success with
    | true =>
      obtain rfl := Option.some.inj heq
      exact h.put ((h t slave ht).execve (hkeeps slave ht))
    | false => exact Option.some.inj heq ▸ h

/-- **The table of actions.** OKFS starts with the default actions; in a run without a
call that the table does not follow, an entry of a stopping signal is `SIG_DFL` exactly
when the kernel has the default action for it. -/
theorem actions_mirrored {inherited : Actions}
    (hstart : ∀ sig, Tracked sig → (inherited sig).handler = SIG_DFL) {es : List Event} {s : State}
    (hkeeps : Runs.Along step KeepsActions (start inherited) es)
    (hrun : Runs.exec step (start inherited) es = some s) {t : TaskRef} {slave : Task}
    (ht : s.tasks t = some slave) {sig : Int} (hsig : Tracked sig) :
    slave.sighandler sig = SIG_DFL ↔ (slave.actions sig).handler = SIG_DFL := by
  have hinit : AllMirror (start inherited) := by
    intro u tp hu sig hsig
    by_cases hu0 : u = 0
    · simp only [start, hu0, Function.update_self] at hu
      obtain rfl := Option.some.inj hu
      exact iff_of_true rfl (hstart sig hsig)
    · simp only [start, Function.update_of_ne hu0] at hu
      cases hu
  exact Runs.inv_of_exec (fun s e s' h hC hs' => h.step hC hs') hinit hkeeps hrun t slave ht sig hsig

/-- OKFS is started with the default actions. -/
def inheritedDefault : Actions := fun _ => ⟨SIG_DFL, 0, 0, 0, 0⟩

/-- A call `rt_sigaction(SIGTSTP, 8, NULL)` with a handler in the structure at 8. -/
def handleTstp : Event :=
  .sigaction 0 .rtSigaction (fun x => if x = 9 then 8 else 0) SIGTSTP 8 0 true true

/-- The first task sets a handler for `SIGTSTP`. -/
theorem actions_mirrored_handler :
    ∃ s slave, Runs.exec step (start inheritedDefault) [handleTstp] = some s ∧
      s.tasks 0 = some slave ∧
      (slave.sighandler SIGTSTP = SIG_DFL ↔ (slave.actions SIGTSTP).handler = SIG_DFL) := by
  have hkeeps : Runs.Along step KeepsActions (start inheritedDefault) [handleTstp] :=
    ⟨fun _ _ _ _ _ => Iff.rfl, fun _ _ => trivial⟩
  refine ⟨_, _, rfl, rfl, ?_⟩
  exact actions_mirrored (t := 0) (fun _ _ => rfl) hkeeps rfl rfl (Or.inl rfl)

/-- It executes a program then: the kernel resets the action and OKFS keeps the entry. -/
theorem not_mirrored_after_execve :
    ∃ s slave, Runs.exec step (start inheritedDefault) [handleTstp, .execve 0 true] = some s ∧
      s.tasks 0 = some slave ∧ Tracked SIGTSTP ∧
      ¬ (slave.sighandler SIGTSTP = SIG_DFL ↔ (slave.actions SIGTSTP).handler = SIG_DFL) := by
  refine ⟨_, _, rfl, rfl, Or.inl rfl, ?_⟩
  decide

end Signal

end Okfs
