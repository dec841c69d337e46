import Okfs.Lib.Runs
import Okfs.Task.Signals
import Mathlib.Logic.Function.Basic

/-!
# OKFS — signals of a stopped task

A signal that is reported for a stopped task goes into `sigpending_mask`, and
`deliver_pending_signals` sends it to the task again before the task is resumed. The
loop of `guard_slaves` resumes the task after every event, so the signals go back and
forth between the mask and the kernel until `SIGCONT` wakes the task.

The loop over the mask ends before `_NSIG`, which is a signal: what is reported of it
stays in the mask.

* `slept_run`       — signals are neither lost nor doubled while a task is stopped.
* `resent_once_iff` — so they are at the wake-up, if signal 64 does not arrive.
-/

namespace Okfs

namespace SigQueue

open ByteMemory Signal

-- ---------------------------------------------------------------------------
-- Tasks
-- ---------------------------------------------------------------------------

structure Task where
  state : SlaveState
  sighandler : Int → Word
  sigpendingMask : Int → Bool
  /-- How many instances of each signal are pending in the kernel. -/
  pending : Int → Nat
  /-- How often OKFS has sent each signal. -/
  resent : Int → Nat
  /-- The signals that OKFS has passed on when it resumed the task. -/
  passed : List Int

/-- A signal before `SIGRTMIN` is pending once, however often it is sent. -/
def enqueue (sig : Int) (n : Nat) : Nat := if sig < SIGRTMIN then 1 else n + 1

def Task.kill (slave : Task) (sig : Int) : Task :=
  { slave with pending := Function.update slave.pending sig (enqueue sig (slave.pending sig)) }

/-- The kernel reports a pending signal, or again a stopping signal that it was passed. -/
def Task.dequeue (slave : Task) (sig : Int) : Option Task :=
  if stoppingSig sig = true ∨ 0 < slave.pending sig then
    some { slave with pending := Function.update slave.pending sig (slave.pending sig - 1) }
  else none

-- ---------------------------------------------------------------------------
-- okfs_signal.c
-- ---------------------------------------------------------------------------

def Task.sigaddset (slave : Task) (sig : Int) : Task :=
  { slave with sigpendingMask := Function.update slave.sigpendingMask sig true }

def Task.sigdelset (slave : Task) (sig : Int) : Task :=
  { slave with sigpendingMask := Function.update slave.sigpendingMask sig false }

/-- One round of the loop of `deliver_pending_signals`. -/
def Task.resend (slave : Task) (i : Int) : Task :=
  if slave.sigpendingMask i then
    { (slave.kill i).sigdelset i with
      resent := Function.update slave.resent i (slave.resent i + 1) }
  else slave

def deliverLoop : List Int → Task → Task
  | [], slave => slave
  | i :: is, slave => deliverLoop is (slave.resend i)

/-- `for(i = 1; i < _NSIG; i++)`. -/
def loopRange : List Int := (List.range (NSIG - 1)).map fun k : Nat => (k : Int) + 1

def deliverPendingSignals (slave : Task) : Task := deliverLoop loopRange slave

def Task.act (slave : Task) (sig : Int) : SignalAction → Task
  | .nothing => slave
  | .wakeupSlave => { slave with state := .running }
  | .sigaddset => slave.sigaddset sig
  | .stopSlave => { slave with state := .stopped }

/-- `process_signal`, with the signal that it returns. -/
def Task.processSignal (slave : Task) (sig : Int) : Task × Int :=
  let (action, ret) := Signal.processSignal slave.state slave.sighandler sig
  (slave.act sig action, ret)

/-- `PTRACE_SYSCALL` with a signal; 0 is none. -/
def Task.resume (slave : Task) (sig : Int) : Task :=
  if sig = 0 then slave else { slave with passed := slave.passed ++ [sig] }

def addSlave (parent : Task) : Task :=
  { state := .running
    sighandler := parent.sighandler
    sigpendingMask := fun _ => false
    pending := fun _ => 0
    resent := fun _ => 0
    passed := [] }

def firstSlave : Task := addSlave ⟨.running, fun _ => SIG_DFL, fun _ => false, fun _ => 0, fun _ => 0, []⟩

-- ---------------------------------------------------------------------------
-- The loop of guard_slaves
-- ---------------------------------------------------------------------------

abbrev TaskRef := Nat

structure State where
  tasks : TaskRef → Option Task
  /-- After an event and until the task is resumed: `slave` and `sig`. -/
  turn : Option (TaskRef × Int)

/-- What the handlers of a system call do to the tasks, as far as it matters here. -/
inductive SyscallEffect
  | nothing
  | sigaction (sighandler : Int → Word)
  | fork (child : TaskRef)
  | notified (child : TaskRef)
  | reaped (child : TaskRef)

/-- `send` is of anybody, at any time; the others are turns of the loop. -/
inductive Event
  | send (t : TaskRef) (sig : Int)
  | signal (t : TaskRef) (sig : Int)
  | dies (t : TaskRef) (orphan : Bool)
  | syscall (t : TaskRef) (effect : SyscallEffect)
  | resume

def State.put (s : State) (t : TaskRef) (slave : Task) : State :=
  { s with tasks := Function.update s.tasks t (some slave) }

def State.remove (s : State) (t : TaskRef) : State :=
  { s with tasks := Function.update s.tasks t none }

/-- `handle_syscall`. -/
def syscallStep (s : State) (t : TaskRef) (slave : Task) : SyscallEffect → Option State
  | .nothing => some s
  | .sigaction sighandler => some (s.put t { slave with sighandler })
  | .fork child => if (s.tasks child).isNone then some (s.put child (addSlave slave)) else none
  | .notified child => do
    let c ← s.tasks child
    return s.put child { c with state := .stoppedAndNotified }
  | .reaped child => some (s.remove child)

/-- The end of a turn: `slave` is resumed, unless it is a zombie or no more. -/
def resumeStep (s : State) (t : TaskRef) (sig : Int) : State :=
  match s.tasks t with
  | none => { s with turn := none }
  | some slave =>
    if slave.state = .zombie then { s with turn := none }
    else { s.put t ((deliverPendingSignals slave).resume sig) with turn := none }

def step (s : State) : Event → Option State
  | .send t sig => do
    let slave ← s.tasks t
    if validSig sig then return s.put t (slave.kill sig) else none
  | .signal t sig => do
    let slave ← s.tasks t
    let slave ← slave.dequeue sig
    if s.turn.isNone && validSig sig then
      return { s.put t (slave.processSignal sig).1 with turn := some (t, (slave.processSignal sig).2) }
    else none
  | .dies t orphan => do
    let slave ← s.tasks t
    if s.turn.isNone then
      -- `remove_slave` leaves no current slave
      if orphan then return s.remove t
      else return { s.put t { slave with state := .zombie } with turn := some (t, 0) }
    else none
  | .syscall t effect => do
    let slave ← s.tasks t
    if s.turn.isNone then
      let s ← syscallStep s t slave effect
      return { s with turn := some (t, 0) }
    else none
  | .resume => do
    let (t, sig) ← s.turn
    return resumeStep s t sig

def start : State :=
  { tasks := Function.update (fun _ => none) 0 (some firstSlave), turn := none }

-- ---------------------------------------------------------------------------
-- Accounts
-- ---------------------------------------------------------------------------

/-- What is pending of a signal when the mask has been sent. -/
def Task.kept (slave : Task) (i : Int) : Nat :=
  if slave.sigpendingMask i then enqueue i (slave.pending i) else slave.pending i

/-- How often a signal will have been sent then. -/
def Task.owed (slave : Task) (i : Int) : Nat :=
  if slave.sigpendingMask i then slave.resent i + 1 else slave.resent i

/-- Signals that are queued while a task is stopped. -/
def Queued (i : Int) : Prop :=
  validSig i = true ∧ stoppingSig i = false ∧ i ≠ SIGUNPAUSE ∧ i ≠ SIGCONT

/-- What is pending of a signal in the end, if `n` instances are at first and OKFS does nothing. -/
def sent (t : TaskRef) (i : Int) : List Event → Nat → Nat
  | [], n => n
  | .send u sig :: es, n => sent t i es (if u = t ∧ sig = i then enqueue i n else n)
  | _ :: es, n => sent t i es n

/-- How often a signal is reported for a task. -/
def arrivals (t : TaskRef) (i : Int) : List Event → Nat
  | [] => 0
  | .signal u sig :: es => (if u = t ∧ sig = i then 1 else 0) + arrivals t i es
  | _ :: es => arrivals t i es

variable {slave slave' : Task} {s s' : State} {t u : TaskRef} {e : Event} {i sig : Int}

theorem sent_append (es es' : List Event) (n : Nat) :
    sent t i (es ++ es') n = sent t i es' (sent t i es n) := by
  induction es generalizing n with
  | nil => rfl
  | cons e es ih => cases e <;> exact ih _

theorem arrivals_append (es es' : List Event) :
    arrivals t i (es ++ es') = arrivals t i es + arrivals t i es' := by
  induction es with
  | nil => exact (Nat.zero_add _).symm
  | cons e es ih =>
    cases e with
    | signal u sig =>
      show _ + arrivals t i (es ++ es') = _ + arrivals t i es + arrivals t i es'
      rw [ih, Nat.add_assoc]
    | send | dies | syscall | resume => exact ih

theorem arrivals_eq_zero {es : List Event} :
    arrivals t i es = 0 ↔ ∀ e ∈ es, e ≠ .signal t i := by
  induction es with
  | nil => exact iff_of_true rfl fun _ he => absurd he List.not_mem_nil
  | cons e es ih =>
    rw [List.forall_mem_cons, ← ih]
    cases e with
    | signal u sig =>
      have hne : (if u = t ∧ sig = i then 1 else 0) = 0 ↔ Event.signal u sig ≠ .signal t i := by simp
      show (if u = t ∧ sig = i then 1 else 0) + arrivals t i es = 0 ↔ _
      rw [Nat.add_eq_zero_iff, hne]
    | send | dies | syscall | resume => exact (and_iff_right (by simp)).symm

-- ---------------------------------------------------------------------------
-- deliver_pending_signals
-- ---------------------------------------------------------------------------

theorem Task.resend_mask (slave : Task) (j i : Int) :
    (slave.resend j).sigpendingMask i = if i = j then false else slave.sigpendingMask i := by
  unfold Task.resend
  split
  · exact Function.update_apply ..
  · rename_i hmask
    split
    · rename_i hij
      rw [hij]
      exact Bool.eq_false_iff.mpr hmask
    · rfl

theorem Task.resend_kept (slave : Task) (j i : Int) : (slave.resend j).kept i = slave.kept i := by
  by_cases hmask : slave.sigpendingMask j = true
  · by_cases hij : i = j
    · subst hij
      simp [Task.kept, Task.resend, Task.sigdelset, Task.kill, hmask]
    · simp [Task.kept, Task.resend, Task.sigdelset, Task.kill, hmask, hij]
  · rw [Task.resend, if_neg hmask]

theorem Task.resend_owed (slave : Task) (j i : Int) : (slave.resend j).owed i = slave.owed i := by
  by_cases hmask : slave.sigpendingMask j = true
  · by_cases hij : i = j
    · subst hij
      simp [Task.owed, Task.resend, Task.sigdelset, Task.kill, hmask]
    · simp [Task.owed, Task.resend, Task.sigdelset, Task.kill, hmask, hij]
  · rw [Task.resend, if_neg hmask]

/-- What a round leaves as it was. -/
theorem Task.resend_of_ne (slave : Task) {j i : Int} (h : i ≠ j) :
    (slave.resend j).pending i = slave.pending i ∧ (slave.resend j).resent i = slave.resent i := by
  unfold Task.resend
  split
  · exact ⟨Function.update_of_ne h .., Function.update_of_ne h ..⟩
  · exact ⟨rfl, rfl⟩

theorem Task.resend_frame (slave : Task) (j : Int) :
    (slave.resend j).state = slave.state ∧ (slave.resend j).passed = slave.passed := by
  unfold Task.resend
  split <;> exact ⟨rfl, rfl⟩

theorem deliverLoop_mask (is : List Int) (slave : Task) (i : Int) :
    (deliverLoop is slave).sigpendingMask i = if i ∈ is then false else slave.sigpendingMask i := by
  induction is generalizing slave with
  | nil => rfl
  | cons j is ih =>
    rw [deliverLoop, ih, Task.resend_mask]
    by_cases hi : i ∈ is
    · rw [if_pos hi, if_pos (List.mem_cons_of_mem j hi)]
    · rw [if_neg hi]
      simp [hi]

theorem deliverLoop_kept (is : List Int) (slave : Task) (i : Int) :
    (deliverLoop is slave).kept i = slave.kept i ∧ (deliverLoop is slave).owed i = slave.owed i := by
  induction is generalizing slave with
  | nil => exact ⟨rfl, rfl⟩
  | cons j is ih =>
    rw [deliverLoop, (ih _).1, (ih _).2]
    exact ⟨Task.resend_kept slave j i, Task.resend_owed slave j i⟩

theorem deliverLoop_of_not_mem {is : List Int} (h : i ∉ is) (slave : Task) :
    (deliverLoop is slave).pending i = slave.pending i ∧
      (deliverLoop is slave).resent i = slave.resent i := by
  induction is generalizing slave with
  | nil => exact ⟨rfl, rfl⟩
  | cons j is ih =>
    have hij : i ≠ j := fun hc => h (hc ▸ List.mem_cons_self)
    have his : i ∉ is := fun hc => h (List.mem_cons_of_mem j hc)
    rw [deliverLoop, (ih his _).1, (ih his _).2]
    exact Task.resend_of_ne slave hij

theorem deliverLoop_frame (is : List Int) (slave : Task) :
    (deliverLoop is slave).state = slave.state ∧ (deliverLoop is slave).passed = slave.passed := by
  induction is generalizing slave with
  | nil => exact ⟨rfl, rfl⟩
  | cons j is ih =>
    rw [deliverLoop, (ih _).1, (ih _).2]
    exact Task.resend_frame slave j

theorem mem_loopRange : i ∈ loopRange ↔ 1 ≤ i ∧ i < 64 := by
  rw [loopRange, List.mem_map]
  constructor
  · rintro ⟨k, hk, rfl⟩
    have hk : k < 63 := List.mem_range.mp hk
    omega
  · rintro ⟨h₁, h₂⟩
    have hk : (i - 1).toNat < 63 := by omega
    exact ⟨(i - 1).toNat, List.mem_range.mpr hk, by omega⟩

/-- The mask of a task is empty, but for signal 64. -/
def Drained (slave : Task) : Prop := ∀ i, i ∈ loopRange → slave.sigpendingMask i = false

theorem deliverPendingSignals_drained (slave : Task) : Drained (deliverPendingSignals slave) := by
  intro i hi
  rw [deliverPendingSignals, deliverLoop_mask, if_pos hi]

theorem Drained.kept_eq (h : Drained slave) (hi : i ∈ loopRange) :
    slave.kept i = slave.pending i ∧ slave.owed i = slave.resent i := by
  rw [Task.kept, Task.owed, h i hi]
  exact ⟨rfl, rfl⟩

theorem deliverPendingSignals_kept (slave : Task) (i : Int) :
    (deliverPendingSignals slave).kept i = slave.kept i ∧
      (deliverPendingSignals slave).owed i = slave.owed i :=
  deliverLoop_kept loopRange slave i

theorem deliverPendingSignals_frame (slave : Task) :
    (deliverPendingSignals slave).state = slave.state ∧
      (deliverPendingSignals slave).passed = slave.passed :=
  deliverLoop_frame loopRange slave

/-- The loop does not come to signal 64. -/
theorem deliverPendingSignals_64 (slave : Task) :
    (deliverPendingSignals slave).pending 64 = slave.pending 64 ∧
      (deliverPendingSignals slave).resent 64 = slave.resent 64 := by
  have h64 : (64 : Int) ∉ loopRange := fun hc => absurd (mem_loopRange.mp hc).2 (by decide)
  have h := deliverLoop_of_not_mem h64 slave
  rw [deliverPendingSignals]
  exact h

theorem Task.kill_pending (slave : Task) (sig i : Int) :
    (slave.kill sig).pending i = if i = sig then enqueue i (slave.pending i) else slave.pending i := by
  rw [show (slave.kill sig).pending = Function.update slave.pending sig
    (enqueue sig (slave.pending sig)) from rfl, Function.update_apply]
  split
  · rename_i his
    rw [his]
  · rfl

theorem Task.kill_kept (slave : Task) (sig i : Int) :
    (slave.kill sig).kept i = if i = sig then enqueue i (slave.kept i) else slave.kept i := by
  rw [Task.kept, Task.kept, Task.kill_pending]
  show (if slave.sigpendingMask i = true then _ else _) = _
  by_cases his : i = sig
  · rw [if_pos his, if_pos his]
    split <;> rfl
  · rw [if_neg his, if_neg his]

theorem Task.sigaddset_mask (slave : Task) (sig i : Int) :
    (slave.sigaddset sig).sigpendingMask i = if i = sig then true else slave.sigpendingMask i :=
  Function.update_apply ..

theorem Task.resume_frame (slave : Task) (sig : Int) :
    (slave.resume sig).state = slave.state ∧ (slave.resume sig).pending = slave.pending ∧
      (slave.resume sig).resent = slave.resent ∧
      (slave.resume sig).sigpendingMask = slave.sigpendingMask := by
  unfold Task.resume
  split <;> exact ⟨rfl, rfl, rfl, rfl⟩

-- ---------------------------------------------------------------------------
-- What one step does
-- ---------------------------------------------------------------------------

@[simp] theorem State.put_tasks_self (s : State) (t : TaskRef) (slave : Task) :
    (s.put t slave).tasks t = some slave :=
  Function.update_self ..

@[simp] theorem State.put_tasks_of_ne (s : State) (slave : Task) (h : u ≠ t) :
    (s.put t slave).tasks u = s.tasks u :=
  Function.update_of_ne h ..

@[simp] theorem State.remove_tasks_self (s : State) (t : TaskRef) : (s.remove t).tasks t = none :=
  Function.update_self ..

@[simp] theorem State.remove_tasks_of_ne (s : State) (h : u ≠ t) :
    (s.remove t).tasks u = s.tasks u :=
  Function.update_of_ne h ..

theorem step_send (h : step s (.send t sig) = some s') :
    ∃ slave, s.tasks t = some slave ∧ s' = s.put t (slave.kill sig) := by
  obtain ⟨slave, ht, h⟩ := Option.bind_eq_some_iff.mp h
  split at h
  · exact ⟨slave, ht, (Option.some.inj h).symm⟩
  · cases h

theorem step_signal (h : step s (.signal t sig) = some s') :
    ∃ slave slave₁, s.tasks t = some slave ∧ slave.dequeue sig = some slave₁ ∧ s.turn = none ∧
      validSig sig = true ∧
      s' = { s.put t (slave₁.processSignal sig).1 with
        turn := some (t, (slave₁.processSignal sig).2) } := by
  obtain ⟨slave, ht, h⟩ := Option.bind_eq_some_iff.mp h
  obtain ⟨slave₁, hdeq, h⟩ := Option.bind_eq_some_iff.mp h
  split at h
  · rename_i hcond
    rw [Bool.and_eq_true, Option.isNone_iff_eq_none] at hcond
    exact ⟨slave, slave₁, ht, hdeq, hcond.1, hcond.2, (Option.some.inj h).symm⟩
  · cases h

theorem step_dies {orphan : Bool} (h : step s (.dies t orphan) = some s') :
    ∃ slave, s.tasks t = some slave ∧ s.turn = none ∧
      s' = if orphan then s.remove t
        else { s.put t { slave with state := .zombie } with turn := some (t, 0) } := by
  obtain ⟨slave, ht, h⟩ := Option.bind_eq_some_iff.mp h
  split at h
  · rename_i hturn
    refine ⟨slave, ht, Option.isNone_iff_eq_none.mp hturn, ?_⟩
    cases orphan <;> exact (Option.some.inj h).symm
  · cases h

theorem step_syscall {effect : SyscallEffect} (h : step s (.syscall t effect) = some s') :
    ∃ slave s₁, s.tasks t = some slave ∧ s.turn = none ∧
      syscallStep s t slave effect = some s₁ ∧ s' = { s₁ with turn := some (t, 0) } := by
  obtain ⟨slave, ht, h⟩ := Option.bind_eq_some_iff.mp h
  split at h
  · rename_i hturn
    obtain ⟨s₁, hs₁, h⟩ := Option.bind_eq_some_iff.mp h
    exact ⟨slave, s₁, ht, Option.isNone_iff_eq_none.mp hturn, hs₁, (Option.some.inj h).symm⟩
  · cases h

theorem step_resume (h : step s .resume = some s') :
    ∃ t sig, s.turn = some (t, sig) ∧ s' = resumeStep s t sig := by
  obtain ⟨⟨t, sig⟩, hturn, h⟩ := Option.bind_eq_some_iff.mp h
  exact ⟨t, sig, hturn, (Option.some.inj h).symm⟩

theorem Task.dequeue_pos {slave₁ : Task} (h : slave.dequeue sig = some slave₁) :
    stoppingSig sig = true ∨ 0 < slave.pending sig := by
  by_contra hno
  rw [Task.dequeue, if_neg hno] at h
  cases h

theorem Task.dequeue_frame {slave₁ : Task} (h : slave.dequeue sig = some slave₁) :
    slave₁.state = slave.state ∧ slave₁.sigpendingMask = slave.sigpendingMask ∧
      slave₁.resent = slave.resent ∧ slave₁.passed = slave.passed ∧
      slave₁.pending = Function.update slave.pending sig (slave.pending sig - 1) := by
  rw [Task.dequeue, if_pos (Task.dequeue_pos h)] at h
  obtain rfl := Option.some.inj h
  exact ⟨rfl, rfl, rfl, rfl, rfl⟩

theorem Task.processSignal_stopped (h : stoppedTask slave.state = true) (hcont : sig ≠ SIGCONT) :
    slave.processSignal sig =
      (if sig ≠ SIGUNPAUSE ∧ stoppingSig sig = false then slave.sigaddset sig else slave, 0) := by
  unfold Task.processSignal
  rw [Signal.processSignal_stopped h hcont]
  by_cases hqueue : sig ≠ SIGUNPAUSE ∧ stoppingSig sig = false
  · rw [if_pos hqueue, if_pos hqueue]
    rfl
  · rw [if_neg hqueue, if_neg hqueue]
    rfl

theorem Task.processSignal_cont (h : stoppedTask slave.state = true) :
    slave.processSignal SIGCONT = ({ slave with state := .running }, SIGCONT) := by
  unfold Task.processSignal
  rw [Signal.processSignal_cont h]
  rfl

theorem Task.processSignal_notStopped (sig : Int) (h : stoppedTask slave.state = false) :
    (slave.processSignal sig).1.pending = slave.pending ∧
      (slave.processSignal sig).1.sigpendingMask = slave.sigpendingMask := by
  unfold Task.processSignal
  by_cases hunpause : sig = SIGUNPAUSE
  · subst hunpause
    rw [processSignal_unpause]
    exact ⟨rfl, rfl⟩
  · rw [processSignal_running h hunpause]
    by_cases hstop : stoppingSig sig = true ∧ slave.sighandler sig = SIG_DFL
    · rw [if_pos hstop]
      exact ⟨rfl, rfl⟩
    · rw [if_neg hstop]
      exact ⟨rfl, rfl⟩

-- ---------------------------------------------------------------------------
-- Reachable states
-- ---------------------------------------------------------------------------

/-- A signal before `SIGRTMIN` is pending at most once. Only a stopped task that is about
to be resumed has signals in its mask. -/
structure Sound (turn : Option (TaskRef × Int)) (t : TaskRef) (slave : Task) : Prop where
  pending : ∀ i, i < SIGRTMIN → slave.pending i ≤ 1
  drained : stoppedTask slave.state = false ∨ (∀ sig, turn ≠ some (t, sig)) → Drained slave

def AllSound (s : State) : Prop := ∀ t slave, s.tasks t = some slave → Sound s.turn t slave

theorem enqueue_le_one {n : Nat} (hi : i < SIGRTMIN) : enqueue i n ≤ 1 := by
  have h1 : enqueue i n = 1 := if_pos hi
  omega

theorem update_le_one {p : Int → Nat} (hp : ∀ i, i < SIGRTMIN → p i ≤ 1) {n : Nat}
    (hn : sig < SIGRTMIN → n ≤ 1) (hi : i < SIGRTMIN) : Function.update p sig n i ≤ 1 := by
  by_cases his : i = sig
  · subst his
    rw [Function.update_self]
    exact hn hi
  · rw [Function.update_of_ne his]
    exact hp i hi

theorem AllSound.waiting (h : AllSound s) (hturn : s.turn = none) (ht : s.tasks t = some slave) :
    Drained slave :=
  (h t slave ht).drained (Or.inr fun sig hsig => by rw [hturn] at hsig; cases hsig)

/-- The other tasks stay sound when a turn of `t` begins. -/
theorem Sound.of_waiting {turn : Option (TaskRef × Int)} (h : Sound none t slave) :
    Sound turn t slave :=
  ⟨h.pending, fun _ => h.drained (Or.inr fun _ hc => by cases hc)⟩

theorem AllSound.put {s₁ : State} {turn : Option (TaskRef × Int)} (h : AllSound s)
    (hturn : s.turn = none) (hslave : Sound turn t slave)
    (hs₁ : s₁.tasks = Function.update s.tasks t (some slave) ∧ s₁.turn = turn) : AllSound s₁ := by
  intro u tp hu
  rw [hs₁.1] at hu
  rw [hs₁.2]
  by_cases hut : u = t
  · rw [hut, Function.update_self] at hu
    exact hut ▸ Option.some.inj hu ▸ hslave
  · rw [Function.update_of_ne hut] at hu
    exact (hturn ▸ h u tp hu).of_waiting

theorem AllSound.turn {turn : Option (TaskRef × Int)} (h : AllSound s) (hturn : s.turn = none) :
    AllSound { s with turn := turn } :=
  fun u tp hu => (hturn ▸ h u tp hu).of_waiting

theorem AllSound.remove (h : AllSound s) (t : TaskRef) : AllSound (s.remove t) := by
  intro u tp hu
  by_cases hut : u = t
  · rw [hut, State.remove_tasks_self] at hu
    cases hu
  · rw [State.remove_tasks_of_ne s hut] at hu
    exact h u tp hu

theorem Sound.dequeue {slave₁ : Task} (h : Sound none t slave)
    (hdeq : slave.dequeue sig = some slave₁) : Sound none t slave₁ := by
  obtain ⟨hstate, hmask, -, -, hpending⟩ := Task.dequeue_frame hdeq
  refine ⟨fun i hi => ?_, fun _ i hi => ?_⟩
  · rw [hpending]
    exact update_le_one h.pending
      (fun hsig => Nat.le_trans (Nat.sub_le _ _) (h.pending sig hsig)) hi
  · rw [hmask]
    exact h.drained (Or.inr fun _ hc => by cases hc) i hi

theorem Sound.signal (h : Sound none t slave) (sig : Int) :
    Sound (some (t, (slave.processSignal sig).2)) t (slave.processSignal sig).1 := by
  have hdrained : Drained slave := h.drained (Or.inr fun _ hc => by cases hc)
  cases hstop : stoppedTask slave.state with
  | false =>
    obtain ⟨hp, hm⟩ := Task.processSignal_notStopped sig hstop
    exact ⟨by rw [hp]; exact h.pending, fun _ i hi => by rw [hm]; exact hdrained i hi⟩
  | true =>
    by_cases hcont : sig = SIGCONT
    · subst hcont
      rw [Task.processSignal_cont hstop]
      exact ⟨h.pending, fun _ => hdrained⟩
    · rw [Task.processSignal_stopped hstop hcont]
      split
      -- the signal that has been added waits for the end of the turn
      · refine ⟨h.pending, fun hno => ?_⟩
        rcases hno with hno | hno
        · have hno : stoppedTask slave.state = false := hno
          rw [hstop] at hno
          cases hno
        · exact absurd rfl (hno 0)
      · exact ⟨h.pending, fun _ => hdrained⟩

theorem Sound.kill {turn : Option (TaskRef × Int)} (h : Sound turn t slave) (sig : Int) :
    Sound turn t (slave.kill sig) :=
  ⟨fun _ hi => update_le_one h.pending enqueue_le_one hi, h.drained⟩

theorem Task.kept_le_one (h : ∀ i, i < SIGRTMIN → slave.pending i ≤ 1) (hi : i < SIGRTMIN) :
    slave.kept i ≤ 1 := by
  rw [Task.kept]
  split
  · exact enqueue_le_one hi
  · exact h i hi

theorem Sound.deliver {turn : Option (TaskRef × Int)} (h : Sound turn t slave) (sig : Int) :
    Sound none t ((deliverPendingSignals slave).resume sig) := by
  obtain ⟨-, hpending, -, hmask⟩ := Task.resume_frame (deliverPendingSignals slave) sig
  have hdrained := deliverPendingSignals_drained slave
  refine ⟨fun i hi => ?_, fun _ i hi => by rw [hmask]; exact hdrained i hi⟩
  rw [hpending]
  by_cases hmem : i ∈ loopRange
  · have hkept : (deliverPendingSignals slave).pending i = slave.kept i := by
      rw [← (hdrained.kept_eq hmem).1]
      exact (deliverLoop_kept loopRange slave i).1
    exact hkept ▸ Task.kept_le_one h.pending hi
  · rw [deliverPendingSignals, (deliverLoop_of_not_mem hmem slave).1]
    exact h.pending i hi

theorem sound_addSlave (parent : Task) (turn : Option (TaskRef × Int)) :
    Sound turn t (addSlave parent) :=
  ⟨fun _ _ => Nat.zero_le 1, fun _ _ _ => rfl⟩

theorem syscallStep_fork {s₁ : State} {child : TaskRef}
    (h : syscallStep s t slave (.fork child) = some s₁) :
    s.tasks child = none ∧ s₁ = s.put child (addSlave slave) := by
  rw [syscallStep] at h
  split at h
  · rename_i hfree
    exact ⟨Option.isNone_iff_eq_none.mp hfree, (Option.some.inj h).symm⟩
  · cases h

theorem AllSound.syscall {s₁ : State} {effect : SyscallEffect} (h : AllSound s)
    (hturn : s.turn = none) (ht : s.tasks t = some slave)
    (hs₁ : syscallStep s t slave effect = some s₁) : AllSound s₁ := by
  have hwaiting : ∀ {u tp}, s.tasks u = some tp → Sound none u tp := fun hu => hturn ▸ h _ _ hu
  cases effect with
  | nothing => exact Option.some.inj hs₁ ▸ h
  | sigaction sighandler =>
    obtain rfl := Option.some.inj hs₁
    have hslave := hwaiting ht
    have hslave' : Sound none t { slave with sighandler } := ⟨hslave.pending, hslave.drained⟩
    exact h.put hturn hslave' ⟨rfl, hturn⟩
  | fork child =>
    obtain ⟨-, rfl⟩ := syscallStep_fork hs₁
    exact h.put hturn (sound_addSlave slave none) ⟨rfl, hturn⟩
  | notified child =>
    obtain ⟨c, hc, heq⟩ := Option.bind_eq_some_iff.mp hs₁
    obtain rfl := Option.some.inj heq
    have hchild := hwaiting hc
    have hdrained : Drained c := h.waiting hturn hc
    have hchild' : Sound none child { c with state := .stoppedAndNotified } :=
      ⟨hchild.pending, fun _ => hdrained⟩
    exact h.put hturn hchild' ⟨rfl, hturn⟩
  | reaped child =>
    obtain rfl := Option.some.inj hs₁
    exact h.remove child

theorem syscallStep_turn {s₁ : State} {effect : SyscallEffect}
    (h : syscallStep s t slave effect = some s₁) : s₁.turn = s.turn := by
  cases effect with
  | notified child =>
    obtain ⟨c, -, heq⟩ := Option.bind_eq_some_iff.mp h
    exact Option.some.inj heq ▸ rfl
  | fork child =>
    obtain ⟨-, rfl⟩ := syscallStep_fork h
    rfl
  | nothing | sigaction | reaped => exact Option.some.inj h ▸ rfl

/-- A turn that ends. -/
inductive Resumes (s : State) (t : TaskRef) (sig : Int) : State → Prop
  | gone (h : s.tasks t = none) : Resumes s t sig { s with turn := none }
  | zombie (slave : Task) (h : s.tasks t = some slave) (hz : slave.state = .zombie) :
      Resumes s t sig { s with turn := none }
  | runs (slave : Task) (h : s.tasks t = some slave) (hz : slave.state ≠ .zombie) :
      Resumes s t sig { s.put t ((deliverPendingSignals slave).resume sig) with turn := none }

theorem resumeStep_spec (s : State) (t : TaskRef) (sig : Int) :
    Resumes s t sig (resumeStep s t sig) := by
  unfold resumeStep
  split
  · exact .gone ‹_›
  · split
    · exact .zombie _ ‹_› ‹_›
    · exact .runs _ ‹_› ‹_›

theorem AllSound.resume {sig : Int} (h : AllSound s) (hturn : s.turn = some (t, sig))
    (hs' : Resumes s t sig s') : AllSound s' := by
  -- the tasks that have no turn are drained already
  have hother : ∀ {u tp}, u ≠ t → s.tasks u = some tp → Sound none u tp := by
    intro u tp hut hu
    have hno : ∀ sig', s.turn ≠ some (u, sig') := by
      intro sig' hc
      rw [hturn] at hc
      exact hut (Prod.mk.inj (Option.some.inj hc)).1.symm
    exact ⟨(h u tp hu).pending, fun _ => (h u tp hu).drained (Or.inr hno)⟩
  cases hs' with
  | gone hgone =>
    intro u tp hu
    have hut : u ≠ t := by
      rintro rfl
      have hu : s.tasks u = some tp := hu
      rw [hgone] at hu
      cases hu
    exact hother hut hu
  | zombie slave ht hz =>
    intro u tp hu
    have hu : s.tasks u = some tp := hu
    by_cases hut : u = t
    · subst hut
      have heq : slave = tp := Option.some.inj (ht.symm.trans hu)
      have hstate : stoppedTask tp.state = false := by rw [← heq, hz]; rfl
      exact ⟨(h u tp hu).pending, fun _ => (h u tp hu).drained (Or.inl hstate)⟩
    · exact hother hut hu
  | runs slave ht hz =>
    intro u tp hu
    by_cases hut : u = t
    · subst hut
      have hu : (s.put u _).tasks u = some tp := hu
      rw [State.put_tasks_self] at hu
      exact Option.some.inj hu ▸ (h u slave ht).deliver sig
    · have hu : (s.put t _).tasks u = some tp := hu
      rw [State.put_tasks_of_ne s _ hut] at hu
      exact hother hut hu

theorem AllSound.step (h : AllSound s) (hs' : step s e = some s') : AllSound s' := by
  cases e with
  | send t sig =>
    obtain ⟨slave, ht, rfl⟩ := step_send hs'
    intro u tp hu
    by_cases hut : u = t
    · subst hut
      rw [State.put_tasks_self] at hu
      exact Option.some.inj hu ▸ (h u slave ht).kill sig
    · rw [State.put_tasks_of_ne s _ hut] at hu
      exact h u tp hu
  | signal t sig =>
    obtain ⟨slave, slave₁, ht, hdeq, hturn, -, rfl⟩ := step_signal hs'
    have hslave₁ : Sound none t slave₁ := (hturn ▸ h t slave ht : Sound none t slave).dequeue hdeq
    exact h.put hturn (hslave₁.signal sig) ⟨rfl, rfl⟩
  | dies t orphan =>
    obtain ⟨slave, ht, hturn, rfl⟩ := step_dies hs'
    cases orphan with
    | true => exact h.remove t
    | false =>
      have hdrained : Drained slave := h.waiting hturn ht
      have hslave : Sound (some (t, 0)) t { slave with state := .zombie } :=
        ⟨(h t slave ht).pending, fun _ => hdrained⟩
      exact h.put hturn hslave ⟨rfl, rfl⟩
  | syscall t effect =>
    obtain ⟨slave, s₁, ht, hturn, hs₁, rfl⟩ := step_syscall hs'
    exact (h.syscall hturn ht hs₁).turn (syscallStep_turn hs₁ ▸ hturn)
  | resume =>
    obtain ⟨t, sig, hturn, rfl⟩ := step_resume hs'
    exact h.resume hturn (resumeStep_spec s t sig)

theorem allSound_start : AllSound start := by
  intro t slave ht
  by_cases ht0 : t = 0
  · simp only [start, ht0, Function.update_self] at ht
    exact Option.some.inj ht ▸ sound_addSlave _ none
  · simp only [start, Function.update_of_ne ht0] at ht
    cases ht

theorem allSound_of_exec {es : List Event} (h : AllSound s)
    (hrun : Runs.exec step s es = some s') : AllSound s' := by
  induction es generalizing s with
  | nil => exact Option.some.inj hrun ▸ h
  | cons e es ih =>
    obtain ⟨s₁, hs₁, hrest⟩ := Option.bind_eq_some_iff.mp hrun
    exact ih (h.step hs₁) hrest

-- ---------------------------------------------------------------------------
-- Accounts of a run
-- ---------------------------------------------------------------------------

/-- What a run has done to the signals of a task. Signal 64 is never sent again. -/
structure Account (t : TaskRef) (es : List Event) (slave slave' : Task) : Prop where
  kept : ∀ i, Queued i → i < 64 → slave'.kept i = sent t i es (slave.kept i)
  owed : ∀ i, Queued i → i < 64 → slave'.owed i = slave.owed i + arrivals t i es
  resent64 : slave'.resent 64 = slave.resent 64
  pending64 : slave'.pending 64 + arrivals t 64 es = sent t 64 es (slave.pending 64)

theorem queued_64 : Queued 64 := ⟨rfl, rfl, by decide, by decide⟩

theorem Queued.mem_loopRange (h : Queued i) (hi : i < 64) : i ∈ loopRange :=
  SigQueue.mem_loopRange.mpr ⟨(of_decide_eq_true h.1).1, hi⟩

theorem Queued.eq_last (h : Queued i) (hi : ¬ i < 64) : i = 64 := by
  have hle : i ≤ ((64 : Nat) : Int) := (of_decide_eq_true h.1).2
  omega

theorem Account.refl (t : TaskRef) (slave : Task) : Account t [] slave slave :=
  ⟨fun _ _ _ => rfl, fun _ _ _ => rfl, rfl, rfl⟩

/-- Real-time signals add up. -/
theorem sent_64_add (es : List Event) (n a : Nat) : sent t 64 es (n + a) = sent t 64 es n + a := by
  induction es generalizing n with
  | nil => rfl
  | cons e es ih =>
    cases e with
    | send u sig =>
      show sent t 64 es (if u = t ∧ sig = 64 then enqueue 64 (n + a) else n + a) = _
      have harrive : (if u = t ∧ sig = 64 then enqueue 64 (n + a) else n + a) =
          (if u = t ∧ sig = 64 then enqueue 64 n else n) + a := by
        split
        · exact Nat.add_right_comm n a 1
        · rfl
      rw [harrive, ih]
      rfl
    | signal | dies | syscall | resume => exact ih n

theorem Account.trans {es es' : List Event} {slave₁ slave₂ : Task} (h : Account t es slave slave₁)
    (h' : Account t es' slave₁ slave₂) : Account t (es ++ es') slave slave₂ := by
  refine ⟨fun i hq hi => ?_, fun i hq hi => ?_, h'.resent64.trans h.resent64, ?_⟩
  · rw [h'.kept i hq hi, h.kept i hq hi, sent_append]
  · rw [h'.owed i hq hi, h.owed i hq hi, arrivals_append, Nat.add_assoc]
  · have h₁ := h.pending64
    have h₂ := h'.pending64
    rw [sent_append, ← h₁, sent_64_add, arrivals_append]
    omega

/-- An event that is not about signals of the task. -/
theorem account_same (hsent : ∀ i n, Queued i → sent t i [e] n = n)
    (harrivals : ∀ i, Queued i → arrivals t i [e] = 0)
    (hslave : slave'.pending = slave.pending ∧ slave'.resent = slave.resent ∧
      slave'.sigpendingMask = slave.sigpendingMask) : Account t [e] slave slave' := by
  obtain ⟨hpending, hresent, hmask⟩ := hslave
  refine ⟨fun i hq _ => ?_, fun i hq _ => ?_, by rw [hresent], ?_⟩
  · rw [hsent i _ hq, Task.kept, Task.kept, hpending, hmask]
  · rw [harrivals i hq, Task.owed, Task.owed, hresent, hmask]
    rfl
  · rw [hsent 64 _ queued_64, harrivals 64 queued_64, hpending]
    rfl

theorem account_kill (t : TaskRef) (slave : Task) (sig : Int) :
    Account t [.send t sig] slave (slave.kill sig) := by
  have hsent : ∀ i n, sent t i [.send t sig] n = if i = sig then enqueue i n else n := by
    intro i n
    show (if t = t ∧ sig = i then enqueue i n else n) = _
    simp only [true_and, eq_comm]
  refine ⟨fun i _ _ => ?_, fun i _ _ => rfl, rfl, ?_⟩
  · rw [hsent, Task.kill_kept]
  · rw [hsent, Task.kill_pending]
    rfl

/-- A report for a stopped task. -/
theorem account_signal {slave₁ : Task} (h : Sound none t slave)
    (hdeq : slave.dequeue sig = some slave₁) (hstop : stoppedTask slave.state = true)
    (hcont : sig ≠ SIGCONT) :
    Account t [.signal t sig] slave (slave₁.processSignal sig).1 := by
  obtain ⟨hstate, hmask, hresent, -, hpending⟩ := Task.dequeue_frame hdeq
  have hdrained : Drained slave := h.drained (Or.inr fun _ hc => by cases hc)
  have harrivals : ∀ i, arrivals t i [.signal t sig] = if i = sig then 1 else 0 := by
    intro i
    show (if t = t ∧ sig = i then 1 else 0) + 0 = _
    simp only [true_and, eq_comm, Nat.add_zero]
  -- one instance is taken from what is pending
  have htaken : ∀ i, Queued i → i = sig →
      slave₁.pending i + 1 = slave.pending i ∧ enqueue i (slave₁.pending i) = slave.pending i := by
    rintro i hq rfl
    have hpos : 0 < slave.pending i := (Task.dequeue_pos hdeq).resolve_left (by rw [hq.2.1]; simp)
    have htake : slave₁.pending i = slave.pending i - 1 := by rw [hpending, Function.update_self]
    rw [enqueue, htake]
    split
    · rename_i hi
      have := h.pending i hi
      omega
    · omega
  have hother : ∀ i, i ≠ sig → slave₁.pending i = slave.pending i := fun i his => by
    rw [hpending, Function.update_of_ne his]
  rw [Task.processSignal_stopped (hstate ▸ hstop) hcont]
  by_cases hqueue : sig ≠ SIGUNPAUSE ∧ stoppingSig sig = false
  · rw [if_pos hqueue]
    have hadd : ∀ i, (slave₁.sigaddset sig).sigpendingMask i =
        if i = sig then true else slave.sigpendingMask i := by
      intro i
      rw [Task.sigaddset_mask, hmask]
    refine ⟨fun i hq hi => ?_, fun i hq hi => ?_, congrFun hresent 64, ?_⟩
    · rw [(hdrained.kept_eq (hq.mem_loopRange hi)).1, Task.kept, hadd]
      by_cases his : i = sig
      · rw [if_pos his, if_pos rfl]
        exact (htaken i hq his).2
      · rw [if_neg his, hdrained i (hq.mem_loopRange hi)]
        exact hother i his
    · rw [(hdrained.kept_eq (hq.mem_loopRange hi)).2, Task.owed, hadd, harrivals]
      by_cases his : i = sig
      · rw [if_pos his, if_pos rfl, if_pos his]
        exact congrArg (· + 1) (congrFun hresent i)
      · rw [if_neg his, hdrained i (hq.mem_loopRange hi), if_neg his]
        exact congrFun hresent i
    · rw [harrivals]
      by_cases his : (64 : Int) = sig
      · rw [if_pos his]
        exact (htaken 64 queued_64 his).1
      · rw [if_neg his]
        exact hother 64 his
  · rw [if_neg hqueue]
    have hnot : ∀ i, Queued i → i ≠ sig := by
      rintro i hq rfl
      exact hqueue ⟨hq.2.2.1, hq.2.1⟩
    refine ⟨fun i hq hi => ?_, fun i hq hi => ?_, congrFun hresent 64, ?_⟩
    · rw [Task.kept, Task.kept, hmask, hother i (hnot i hq)]
      rfl
    · rw [harrivals, if_neg (hnot i hq), Task.owed, Task.owed, hmask, hresent]
      rfl
    · rw [harrivals, if_neg (hnot 64 queued_64)]
      exact hother 64 (hnot 64 queued_64)

theorem account_cont {slave₁ : Task} (hdeq : slave.dequeue SIGCONT = some slave₁)
    (hstop : stoppedTask slave.state = true) :
    Account t [.signal t SIGCONT] slave (slave₁.processSignal SIGCONT).1 := by
  obtain ⟨hstate, hmask, hresent, -, hpending⟩ := Task.dequeue_frame hdeq
  rw [Task.processSignal_cont (hstate ▸ hstop)]
  have hother : ∀ i, Queued i → slave₁.pending i = slave.pending i := fun i hq => by
    rw [hpending, Function.update_of_ne hq.2.2.2]
  have harrivals : ∀ i, Queued i → arrivals t i [.signal t SIGCONT] = 0 := by
    intro i hq
    show (if t = t ∧ SIGCONT = i then 1 else 0) + 0 = 0
    rw [if_neg fun hc => hq.2.2.2 hc.2.symm]
  refine ⟨fun i hq hi => ?_, fun i hq hi => ?_, congrFun hresent 64, ?_⟩
  · show (if slave₁.sigpendingMask i then enqueue i (slave₁.pending i) else slave₁.pending i) = _
    rw [hmask, hother i hq]
    rfl
  · rw [harrivals i hq]
    show (if slave₁.sigpendingMask i then slave₁.resent i + 1 else slave₁.resent i) = _
    rw [hmask, hresent]
    rfl
  · rw [harrivals 64 queued_64]
    exact hother 64 queued_64

theorem account_deliver (t : TaskRef) (slave : Task) (sig : Int) :
    Account t [.resume] slave ((deliverPendingSignals slave).resume sig) := by
  obtain ⟨-, hpending, hresent, hmask⟩ := Task.resume_frame (deliverPendingSignals slave) sig
  refine ⟨fun i _ _ => ?_, fun i _ _ => ?_, ?_, ?_⟩
  · rw [Task.kept, hmask, hpending]
    exact (deliverPendingSignals_kept slave i).1
  · rw [Task.owed, hmask, hresent]
    exact (deliverPendingSignals_kept slave i).2
  · rw [hresent]
    exact (deliverPendingSignals_64 slave).2
  · rw [hpending, (deliverPendingSignals_64 slave).1]
    rfl

-- ---------------------------------------------------------------------------
-- A stopped task
-- ---------------------------------------------------------------------------

/-- The event does not wake up the task, end it or remove it. -/
def Quiet (t : TaskRef) : Event → Prop
  | .signal u sig => u = t → sig ≠ SIGCONT
  | .dies u _ => u ≠ t
  | .syscall _ (.reaped child) => child ≠ t
  | .send .. | .syscall .. | .resume => True

/-- The task is stopped, and if it is about to be resumed no signal is passed on. -/
structure Sleeps (s : State) (t : TaskRef) (slave : Task) : Prop where
  task : s.tasks t = some slave
  stopped : stoppedTask slave.state = true
  silent : ∀ sig, s.turn = some (t, sig) → sig = 0

/-- What an event leaves of a stopped task. -/
def Slept (s' : State) (t : TaskRef) (es : List Event) (slave : Task) : Prop :=
  ∃ slave', Sleeps s' t slave' ∧ slave'.passed = slave.passed ∧ Account t es slave slave'

theorem sent_other (hsend : ∀ sig, e ≠ .send t sig) (i : Int) (n : Nat) : sent t i [e] n = n := by
  cases e with
  | send u sig =>
    have hut : u ≠ t := fun hc => hsend sig (hc ▸ rfl)
    exact if_neg fun hc => hut hc.1
  | signal | dies | syscall | resume => rfl

theorem arrivals_other (hsignal : ∀ sig, e ≠ .signal t sig) (i : Int) : arrivals t i [e] = 0 := by
  cases e with
  | signal u sig =>
    have hut : u ≠ t := fun hc => hsignal sig (hc ▸ rfl)
    exact if_neg fun hc => hut hc.1
  | send | dies | syscall | resume => rfl

/-- A step that changes the state of the task at most, and the actions. -/
theorem Sleeps.changed (hsend : ∀ sig, e ≠ .send t sig) (hsignal : ∀ sig, e ≠ .signal t sig)
    (hslept : Sleeps s' t slave') (hpassed : slave'.passed = slave.passed)
    (hslave : slave'.pending = slave.pending ∧ slave'.resent = slave.resent ∧
      slave'.sigpendingMask = slave.sigpendingMask) : Slept s' t [e] slave :=
  ⟨slave', hslept, hpassed,
    account_same (fun i n _ => sent_other hsend i n) (fun i _ => arrivals_other hsignal i) hslave⟩

/-- A step that leaves the task alone. -/
theorem Sleeps.same (h : Sleeps s t slave) (hsend : ∀ sig, e ≠ .send t sig)
    (hsignal : ∀ sig, e ≠ .signal t sig) (htask : s'.tasks t = s.tasks t)
    (hturn : ∀ sig, s'.turn = some (t, sig) → sig = 0) : Slept s' t [e] slave :=
  Sleeps.changed hsend hsignal ⟨htask.trans h.task, h.stopped, hturn⟩ rfl ⟨rfl, rfl, rfl⟩

theorem Sleeps.syscall {effect : SyscallEffect} (h : Sleeps s t slave)
    (hquiet : Quiet t (.syscall u effect)) (hs' : step s (.syscall u effect) = some s') :
    Slept s' t [.syscall u effect] slave := by
  obtain ⟨caller, s₁, hu, -, hs₁, rfl⟩ := step_syscall hs'
  have hturn : ∀ sig, some (u, (0 : Int)) = some (t, sig) → sig = 0 := fun sig hc =>
    (Prod.mk.inj (Option.some.inj hc)).2.symm
  cases effect with
  | nothing =>
    obtain rfl := Option.some.inj hs₁
    exact h.same (by simp) (by simp) rfl hturn
  | sigaction sighandler =>
    obtain rfl := Option.some.inj hs₁
    by_cases hut : t = u
    · subst hut
      obtain rfl := Option.some.inj (h.task.symm.trans hu)
      exact Sleeps.changed (by simp) (by simp) ⟨State.put_tasks_self .., h.stopped, hturn⟩ rfl
        ⟨rfl, rfl, rfl⟩
    · exact h.same (by simp) (by simp) (State.put_tasks_of_ne s _ hut) hturn
  | fork child =>
    obtain ⟨hfree, rfl⟩ := syscallStep_fork hs₁
    have hct : t ≠ child := by
      rintro rfl
      rw [h.task] at hfree
      cases hfree
    exact h.same (by simp) (by simp) (State.put_tasks_of_ne s _ hct) hturn
  | notified child =>
    obtain ⟨c, hc, heq⟩ := Option.bind_eq_some_iff.mp hs₁
    obtain rfl := Option.some.inj heq
    by_cases hct : t = child
    · subst hct
      obtain rfl := Option.some.inj (h.task.symm.trans hc)
      exact Sleeps.changed (by simp) (by simp) ⟨State.put_tasks_self .., rfl, hturn⟩ rfl
        ⟨rfl, rfl, rfl⟩
    · exact h.same (by simp) (by simp) (State.put_tasks_of_ne s _ hct) hturn
  | reaped child =>
    obtain rfl := Option.some.inj hs₁
    have hct : t ≠ child := Ne.symm hquiet
    exact h.same (by simp) (by simp) (State.remove_tasks_of_ne s hct) hturn

theorem Sleeps.signal (h : Sleeps s t slave) (hall : AllSound s)
    (hquiet : Quiet t (.signal u sig)) (hs' : step s (.signal u sig) = some s') :
    Slept s' t [.signal u sig] slave := by
  obtain ⟨tp, tp₁, hu, hdeq, hturn, -, rfl⟩ := step_signal hs'
  by_cases hut : u = t
  · subst hut
    obtain rfl := Option.some.inj (h.task.symm.trans hu)
    have hsound : Sound none u slave := hturn ▸ hall u slave h.task
    obtain ⟨hstate, -, -, hpassed, -⟩ := Task.dequeue_frame hdeq
    have hstop : stoppedTask tp₁.state = true := hstate ▸ h.stopped
    have hspec := Task.processSignal_stopped hstop (hquiet rfl)
    have hpass : (tp₁.processSignal sig).2 = 0 := by rw [hspec]
    have htask : (tp₁.processSignal sig).1.state = tp₁.state ∧
        (tp₁.processSignal sig).1.passed = tp₁.passed := by
      rw [hspec]
      split <;> exact ⟨rfl, rfl⟩
    refine ⟨_, ⟨State.put_tasks_self .., ?_, ?_⟩, htask.2.trans hpassed,
      account_signal hsound hdeq h.stopped (hquiet rfl)⟩
    · rw [htask.1]
      exact hstop
    · intro sig' hc
      exact (Prod.mk.inj (Option.some.inj hc)).2.symm.trans hpass
  · have hsignal : ∀ sig', Event.signal u sig ≠ .signal t sig' := fun _ hc =>
      hut (Event.signal.inj hc).1
    refine h.same (by simp) hsignal (State.put_tasks_of_ne s _ (Ne.symm hut)) ?_
    intro sig' hc
    exact absurd (Prod.mk.inj (Option.some.inj hc)).1 hut

theorem Sleeps.resume (h : Sleeps s t slave) (hs' : step s .resume = some s') :
    Slept s' t [.resume] slave := by
  obtain ⟨u, sig, hturn, heq⟩ := step_resume hs'
  have hnone : ∀ sig', (none : Option (TaskRef × Int)) = some (t, sig') → sig' = 0 := fun _ hc => by
    cases hc
  have hspec := resumeStep_spec s u sig
  rw [← heq] at hspec
  cases hspec with
  | gone hgone => exact h.same (by simp) (by simp) rfl hnone
  | zombie tp hu hz => exact h.same (by simp) (by simp) rfl hnone
  | runs tp hu hz =>
    by_cases hut : t = u
    · subst hut
      obtain rfl := Option.some.inj (h.task.symm.trans hu)
      obtain rfl := h.silent sig hturn
      obtain ⟨hstate, hpassed⟩ := deliverPendingSignals_frame slave
      refine ⟨_, ⟨State.put_tasks_self .., ?_, hnone⟩, ?_, account_deliver t slave 0⟩
      · rw [(Task.resume_frame _ 0).1, hstate]
        exact h.stopped
      · rw [Task.resume, if_pos rfl, hpassed]
    · exact h.same (by simp) (by simp) (State.put_tasks_of_ne s _ hut) hnone

theorem Sleeps.slept (h : Sleeps s t slave) (hall : AllSound s) (hquiet : Quiet t e)
    (hs' : step s e = some s') : Slept s' t [e] slave := by
  cases e with
  | send u sig =>
    obtain ⟨tp, hu, rfl⟩ := step_send hs'
    by_cases hut : t = u
    · subst hut
      obtain rfl := Option.some.inj (h.task.symm.trans hu)
      exact ⟨_, ⟨State.put_tasks_self .., h.stopped, h.silent⟩, rfl, account_kill t slave sig⟩
    · have hsend : ∀ sig', Event.send u sig ≠ .send t sig' := fun _ hc =>
        hut (Event.send.inj hc).1.symm
      exact h.same hsend (by simp) (State.put_tasks_of_ne s _ hut) h.silent
  | signal u sig => exact h.signal hall hquiet hs'
  | dies u orphan =>
    obtain ⟨tp, hu, hturn, rfl⟩ := step_dies hs'
    have hut : t ≠ u := Ne.symm hquiet
    cases orphan with
    | true =>
      exact h.same (by simp) (by simp) (State.remove_tasks_of_ne s hut) h.silent
    | false =>
      refine h.same (by simp) (by simp) (State.put_tasks_of_ne s _ hut) ?_
      intro sig hc
      exact (Prod.mk.inj (Option.some.inj hc)).2.symm
  | syscall u effect => exact h.syscall hquiet hs'
  | resume => exact h.resume hs'

/-- Signals are neither lost nor doubled while the task is stopped, and none is passed on. -/
theorem slept_run {es : List Event} (h : Sleeps s t slave) (hall : AllSound s)
    (hquiet : ∀ e ∈ es, Quiet t e) (hrun : Runs.exec step s es = some s') :
    Slept s' t es slave := by
  induction es generalizing s slave with
  | nil => exact ⟨slave, Option.some.inj hrun ▸ h, rfl, Account.refl t slave⟩
  | cons e es ih =>
    obtain ⟨s₁, hs₁, hrest⟩ := Option.bind_eq_some_iff.mp hrun
    obtain ⟨slave₁, h₁, hpassed₁, hacc₁⟩ := h.slept hall (hquiet e List.mem_cons_self) hs₁
    obtain ⟨slave', h', hpassed', hacc'⟩ := ih h₁ (hall.step hs₁)
      (fun e he => hquiet e (List.mem_cons_of_mem _ he)) hrest
    exact ⟨slave', h', hpassed'.trans hpassed₁, hacc₁.trans hacc'⟩

-- ---------------------------------------------------------------------------
-- The wake-up
-- ---------------------------------------------------------------------------

def Event.isSend : Event → Bool
  | .send .. => true
  | .signal .. | .dies .. | .syscall .. | .resume => false

/-- A task that has been woken up and is about to be resumed with `SIGCONT`. -/
structure Wakes (s : State) (t : TaskRef) (slave : Task) : Prop where
  task : s.tasks t = some slave
  running : slave.state = .running
  turn : s.turn = some (t, SIGCONT)

theorem Sleeps.wake (h : Sleeps s t slave) (hs' : step s (.signal t SIGCONT) = some s') :
    ∃ slave', Wakes s' t slave' ∧ slave'.passed = slave.passed ∧
      Account t [.signal t SIGCONT] slave slave' := by
  obtain ⟨tp, slave₁, ht, hdeq, -, -, rfl⟩ := step_signal hs'
  obtain rfl := Option.some.inj (h.task.symm.trans ht)
  obtain ⟨hstate, -, -, hpassed, -⟩ := Task.dequeue_frame hdeq
  have hspec := Task.processSignal_cont (hstate ▸ h.stopped)
  refine ⟨_, ⟨State.put_tasks_self .., ?_, ?_⟩, ?_, account_cont hdeq h.stopped⟩
  · rw [hspec]
  · rw [hspec]
  · rw [hspec]
    exact hpassed

theorem Wakes.sends {es : List Event} (h : Wakes s t slave) (hsends : ∀ e ∈ es, e.isSend = true)
    (hrun : Runs.exec step s es = some s') :
    ∃ slave', Wakes s' t slave' ∧ slave'.passed = slave.passed ∧ Account t es slave slave' := by
  induction es generalizing s slave with
  | nil => exact ⟨slave, Option.some.inj hrun ▸ h, rfl, Account.refl t slave⟩
  | cons e es ih =>
    obtain ⟨s₁, hs₁, hrest⟩ := Option.bind_eq_some_iff.mp hrun
    have hstep : ∃ slave₁, Wakes s₁ t slave₁ ∧ slave₁.passed = slave.passed ∧
        Account t [e] slave slave₁ := by
      cases e with
      | send u sig =>
        obtain ⟨tp, hu, rfl⟩ := step_send hs₁
        by_cases hut : t = u
        · subst hut
          obtain rfl := Option.some.inj (h.task.symm.trans hu)
          exact ⟨_, ⟨State.put_tasks_self .., h.running, h.turn⟩, rfl, account_kill t slave sig⟩
        · have hsend : ∀ sig', Event.send u sig ≠ .send t sig' := fun _ hc =>
            hut (Event.send.inj hc).1.symm
          exact ⟨slave, ⟨(State.put_tasks_of_ne s _ hut).trans h.task, h.running, h.turn⟩, rfl,
            account_same (fun i n _ => sent_other hsend i n)
              (fun i _ => arrivals_other (by simp) i) ⟨rfl, rfl, rfl⟩⟩
      | signal | dies | syscall | resume => exact absurd (hsends _ List.mem_cons_self) (by simp [Event.isSend])
    obtain ⟨slave₁, h₁, hpassed₁, hacc₁⟩ := hstep
    obtain ⟨slave', h', hpassed', hacc'⟩ := ih h₁
      (fun e he => hsends e (List.mem_cons_of_mem _ he)) hrest
    exact ⟨slave', h', hpassed'.trans hpassed₁, hacc₁.trans hacc'⟩

theorem Wakes.resume (h : Wakes s t slave) (hs' : step s .resume = some s') :
    ∃ slave', s'.tasks t = some slave' ∧ slave'.passed = slave.passed ++ [SIGCONT] ∧
      Drained slave' ∧ Account t [.resume] slave slave' := by
  obtain ⟨u, sig, hturn, heq⟩ := step_resume hs'
  obtain ⟨rfl, rfl⟩ := Prod.mk.inj (Option.some.inj (h.turn.symm.trans hturn))
  have hz : slave.state ≠ .zombie := by
    rw [h.running]
    simp
  have hresumed : s' = { s.put t ((deliverPendingSignals slave).resume SIGCONT) with turn := none } := by
    rw [heq, resumeStep, h.task]
    exact if_neg hz
  refine ⟨(deliverPendingSignals slave).resume SIGCONT, ?_, ?_, ?_, account_deliver t slave SIGCONT⟩
  · rw [hresumed]
    exact State.put_tasks_self ..
  · rw [Task.resume, if_neg (by decide), (deliverPendingSignals_frame slave).2]
  · intro i hi
    rw [(Task.resume_frame _ _).2.2.2]
    exact deliverPendingSignals_drained slave i hi

-- ---------------------------------------------------------------------------
-- From the stop to the wake-up
-- ---------------------------------------------------------------------------

/-- What the tracee finds after the wake-up: only `SIGCONT` has been passed on. Every signal
that was reported has been sent again once, and what is pending is what would be if OKFS
had done nothing. -/
structure Redelivered (t : TaskRef) (es : List Event) (slave slave' : Task) : Prop where
  passed : slave'.passed = slave.passed ++ [SIGCONT]
  resent : ∀ i, Queued i → slave'.resent i = slave.resent i + arrivals t i es
  pending : ∀ i, Queued i → slave'.pending i = sent t i es (slave.pending i)

/-- The events from a stop to the wake-up: the other signals of the time when the task is
stopped, `SIGCONT`, and what is sent before the task is resumed. -/
def window (t : TaskRef) (es sends : List Event) : List Event :=
  es ++ (.signal t SIGCONT :: (sends ++ [.resume]))

theorem arrivals_window {es sends : List Event} (hsends : ∀ e ∈ sends, e.isSend = true) :
    arrivals t 64 (window t es sends) = arrivals t 64 es := by
  have htail : arrivals t 64 (.signal t SIGCONT :: (sends ++ [.resume])) = 0 := by
    refine arrivals_eq_zero.mpr fun e he => ?_
    rcases List.mem_cons.mp he with rfl | he
    · intro hc
      exact absurd (Event.signal.inj hc).2 (by decide)
    · rcases List.mem_append.mp he with he | he
      · rintro rfl
        exact absurd (hsends _ he) (by simp [Event.isSend])
      · rw [List.mem_singleton.mp he]
        simp
  rw [window, arrivals_append, htail, Nat.add_zero]

/-- Everything but the fate of signal 64. -/
theorem window_account {es sends : List Event} (h : Sleeps s t slave) (hall : AllSound s)
    (hquiet : ∀ e ∈ es, Quiet t e) (hsends : ∀ e ∈ sends, e.isSend = true)
    (hrun : Runs.exec step s (window t es sends) = some s') :
    ∃ slave', s'.tasks t = some slave' ∧ slave'.passed = slave.passed ++ [SIGCONT] ∧
      Drained slave' ∧ Account t (window t es sends) slave slave' := by
  rw [window, Runs.exec_append] at hrun
  obtain ⟨s₁, hs₁, hrun⟩ := Option.bind_eq_some_iff.mp hrun
  obtain ⟨s₂, hs₂, hrun⟩ := Option.bind_eq_some_iff.mp hrun
  rw [Runs.exec_append] at hrun
  obtain ⟨s₃, hs₃, hrun⟩ := Option.bind_eq_some_iff.mp hrun
  obtain ⟨s₄, hs₄, hrun⟩ := Option.bind_eq_some_iff.mp hrun
  obtain rfl : s₄ = s' := Option.some.inj hrun
  obtain ⟨slave₁, h₁, hpassed₁, hacc₁⟩ := slept_run h hall hquiet hs₁
  obtain ⟨slave₂, h₂, hpassed₂, hacc₂⟩ := h₁.wake hs₂
  obtain ⟨slave₃, h₃, hpassed₃, hacc₃⟩ := h₂.sends hsends hs₃
  obtain ⟨slave₄, ht₄, hpassed₄, hdrained, hacc₄⟩ := h₃.resume hs₄
  refine ⟨slave₄, ht₄, ?_, hdrained, hacc₁.trans (hacc₂.trans (hacc₃.trans hacc₄))⟩
  rw [hpassed₄, hpassed₃, hpassed₂, hpassed₁]

/-- **Signals of a stopped task.** While the task is stopped only `SIGCONT` is passed on, and
when it has been woken up every other signal that was reported meanwhile has been sent to
it again exactly once, exactly if none of them was signal 64. -/
theorem resent_once_iff {es₀ : List Event} (hreach : Runs.exec step start es₀ = some s)
    (hturn : s.turn = none) (ht : s.tasks t = some slave) (hstop : stoppedTask slave.state = true)
    {es sends : List Event} (hquiet : ∀ e ∈ es, Quiet t e)
    (hsends : ∀ e ∈ sends, e.isSend = true)
    (hrun : Runs.exec step s (window t es sends) = some s') :
    (∃ slave', s'.tasks t = some slave' ∧ Redelivered t (window t es sends) slave slave') ↔
      ∀ e ∈ es, e ≠ .signal t 64 := by
  have hall : AllSound s := allSound_of_exec allSound_start hreach
  have hdrained : Drained slave := hall.waiting hturn ht
  have hsleeps : Sleeps s t slave := ⟨ht, hstop, fun sig hc => by rw [hturn] at hc; cases hc⟩
  obtain ⟨slave', ht', hpassed, hdrained', hacc⟩ := window_account hsleeps hall hquiet hsends hrun
  rw [← arrivals_eq_zero, ← arrivals_window hsends]
  constructor
  · rintro ⟨slave'', ht'', hre⟩
    obtain rfl := Option.some.inj (ht'.symm.trans ht'')
    have hresent := hre.resent 64 queued_64
    rw [hacc.resent64] at hresent
    omega
  · intro hnone
    refine ⟨slave', ht', hpassed, fun i hq => ?_, fun i hq => ?_⟩
    · by_cases hi : i < 64
      · have hmem := hq.mem_loopRange hi
        rw [← (hdrained'.kept_eq hmem).2, ← (hdrained.kept_eq hmem).2]
        exact hacc.owed i hq hi
      · rw [hq.eq_last hi, hacc.resent64, hnone, Nat.add_zero]
    · by_cases hi : i < 64
      · have hmem := hq.mem_loopRange hi
        rw [← (hdrained'.kept_eq hmem).1, ← (hdrained.kept_eq hmem).1]
        exact hacc.kept i hq hi
      · have hpending := hacc.pending64
        rw [hnone, Nat.add_zero] at hpending
        rw [hq.eq_last hi]
        exact hpending

/-- The first task forks, and its child is stopped by `SIGTSTP`. -/
def stopRun : List Event :=
  [.syscall 0 (.fork 1), .resume, .send 1 SIGTSTP, .signal 1 SIGTSTP, .resume]

/-- A signal arrives for the child, goes through the mask, and `SIGCONT` is sent. -/
def queueRun (sig : Int) : List Event := [.send 1 sig, .signal 1 sig, .resume, .send 1 SIGCONT]

set_option maxRecDepth 4000 in
/-- `SIGTERM` arrives while the child is stopped. -/
theorem resent_once_iff_sigterm :
    ∃ s slave s' slave', Runs.exec step start stopRun = some s ∧ s.tasks 1 = some slave ∧
      Runs.exec step s (window 1 (queueRun 15) []) = some s' ∧ s'.tasks 1 = some slave' ∧
      Redelivered 1 (window 1 (queueRun 15) []) slave slave' := by
  have hquiet : ∀ e ∈ queueRun 15, Quiet 1 e := by
    intro e he
    simp only [queueRun, List.mem_cons, List.not_mem_nil, or_false] at he
    rcases he with rfl | rfl | rfl | rfl
    · trivial
    · exact fun _ => by decide
    · trivial
    · trivial
  have hnone : ∀ e ∈ queueRun 15, e ≠ .signal 1 64 := by
    simp [queueRun]
  have hreach : Runs.exec step start stopRun = some _ := rfl
  obtain ⟨slave', ht', hre⟩ := (resent_once_iff (t := 1) hreach rfl rfl rfl hquiet
    (fun _ he => absurd he List.not_mem_nil) rfl).mpr hnone
  exact ⟨_, _, _, slave', rfl, rfl, rfl, ht', hre⟩

set_option maxRecDepth 4000 in
/-- Signal 64 arrives, and is lost in the mask. -/
theorem lost_64 :
    ∃ s slave s' slave', Runs.exec step start stopRun = some s ∧ s.tasks 1 = some slave ∧
      Runs.exec step s (window 1 (queueRun 64) []) = some s' ∧ s'.tasks 1 = some slave' ∧
      slave'.resent 64 = 0 ∧ slave'.pending 64 = 0 ∧
      ¬ Redelivered 1 (window 1 (queueRun 64) []) slave slave' := by
  refine ⟨_, _, _, _, rfl, rfl, rfl, rfl, by decide, by decide, ?_⟩
  intro hre
  have h64 := hre.resent 64 queued_64
  revert h64
  decide

end SigQueue

end Okfs
