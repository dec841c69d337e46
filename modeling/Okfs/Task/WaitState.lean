import Okfs.Task.WaitTree

/-!
# OKFS — the recorded states

A task that is on record as stopped executes the code that `stop_slave` has installed, and one
that has ended is on record as a zombie. The return from a wait call can break this: where
`before_wait` has found a stopped child, `after_wait_isstopped` records it as
`SLAVE_STOPPED_AND_NOTIFIED`, whatever has happened to it since. `StillStopped` is the
condition that nothing has.
-/

namespace Okfs

namespace Wait

open ByteMemory Signal

variable {s s' k : State} {tree tree' tree'' : Tree} {t u c : TaskRef} {slave task child : Task}
  {p : Proc} {pid arg : Pid} {options : Options} {ret : Int} {status : Option Int} {e : Event}
  {f : Task → Task}

-- ---------------------------------------------------------------------------
-- Records whose states stay
-- ---------------------------------------------------------------------------

/-- Every record of the second tree is one of the first, in the same state. -/
def SameStates (tree tree' : Tree) : Prop :=
  ∀ t task', Listed tree' t task' →
    ∃ task, Listed tree t task ∧ task'.state = task.state ∧ task'.patched = task.patched

theorem SameStates.refl (tree : Tree) : SameStates tree tree :=
  fun _ task ht => ⟨task, ht, rfl, rfl⟩

theorem SameStates.trans (h : SameStates tree tree') (h' : SameStates tree' tree'') :
    SameStates tree tree'' := by
  intro t task'' ht
  obtain ⟨task', ht', hstate', hpatched'⟩ := h' t task'' ht
  obtain ⟨task, ht, hstate, hpatched⟩ := h t task' ht'
  exact ⟨task, ht, hstate'.trans hstate, hpatched'.trans hpatched⟩

theorem Shrinks.sameStates (h : Shrinks tree tree') : SameStates tree tree' := by
  intro t task' ht
  obtain ⟨task, ht, hleft⟩ := h.listed ht
  refine ⟨task, ht, hleft.state_eq, ?_⟩
  rcases hleft with rfl | rfl <;> rfl

theorem sameStates_modify (tree : Tree) (t : TaskRef)
    (hf : ∀ task, (f task).state = task.state ∧ (f task).patched = task.patched) :
    SameStates tree (tree.modify t f) := by
  intro u task' hu
  obtain ⟨task, hold, rfl⟩ := listed_modify.mp hu
  refine ⟨task, hold, ?_⟩
  split
  · exact hf task
  · exact ⟨rfl, rfl⟩

theorem sameStates_removeChild (h : removeChild tree t pid = some tree') : SameStates tree tree' := by
  obtain ⟨slave, c, -, -, -, rfl⟩ := removeChild_spec h
  exact (sameStates_modify tree t (f := fun slave => { slave with childp := slave.childp.erase c })
    fun _ => ⟨rfl, rfl⟩).trans
    (sameStates_modify _ c (f := fun child => { child with ppid := 1 }) fun _ => ⟨rfl, rfl⟩)

/-- The states that are recorded, and the tasks that have ended. -/
structure Steady (s s' : State) : Prop where
  states : SameStates s.toTree s'.toTree
  ended : s'.ended = s.ended

theorem Steady.refl (s : State) : Steady s s := ⟨.refl _, rfl⟩

theorem steady_change (s : State) (t : TaskRef)
    (hf : ∀ task, (f task).state = task.state ∧ (f task).patched = task.patched) :
    Steady s (s.change t f) :=
  ⟨sameStates_modify s.toTree t hf, rfl⟩

-- ---------------------------------------------------------------------------
-- The recorded state
-- ---------------------------------------------------------------------------

/-- A stopped task has the patch, and one that has ended is a zombie. -/
structure StateOk (ended : Bool) (task : Task) : Prop where
  patched : stoppedTask task.state = true → task.patched = true
  zombie : ended = true → task.state = .zombie

def StatesOk (s : State) : Prop := ∀ t task, Listed s.toTree t task → StateOk (s.ended t) task

theorem Steady.statesOk (h : Steady s s') (hok : StatesOk s) : StatesOk s' := by
  intro t task' ht
  obtain ⟨task, ht, hstate, hpatched⟩ := h.states t task' ht
  obtain ⟨hstopped, hzombie⟩ := hok t task ht
  refine ⟨fun hs => hpatched.trans (hstopped (hstate ▸ hs)), fun hend => hstate.trans (hzombie ?_)⟩
  exact h.ended ▸ hend

/-- One record changes, and it is right afterwards. -/
theorem StatesOk.change (hok : ∀ u task, Listed s.toTree u task → u ≠ t → StateOk (s.ended u) task)
    (hf : ∀ task, Listed s.toTree t task → StateOk (s.ended t) (f task)) : StatesOk (s.change t f) := by
  intro u task' hu
  obtain ⟨task, hold, rfl⟩ := listed_modify.mp hu
  split
  · rename_i hut
    subst hut
    exact hf task hold
  · exact hok u task hold ‹_›

-- ---------------------------------------------------------------------------
-- The turns of OKFS
-- ---------------------------------------------------------------------------

/-- Signals set the state of the task, and remove no record. -/
theorem changeSlaveState_steady {state : SlaveState} {st : Int} (hstate : state ≠ .zombie)
    (h : changeSlaveState s t slave state st = some s') :
    Steady (s.change t (setState state st)) s' := by
  unfold changeSlaveState at h
  split at h
  · split at h
    · exact Option.some.inj h ▸ ⟨.refl _, rfl⟩
    · exact Option.some.inj h ▸ ⟨.refl _, rfl⟩
  · exact Option.some.inj h ▸ ⟨.refl _, rfl⟩

/-- A task that ends becomes a zombie, and its record may be removed then. -/
theorem changeSlaveState_zombie {st : Int} (hapart : Apart s.toTree [])
    (h : changeSlaveState s t slave .zombie st = some s') :
    Steady (s.change t (setState .zombie st)) s' := by
  unfold changeSlaveState at h
  split at h
  · exact Option.some.inj h ▸ ⟨.refl _, rfl⟩
  · obtain ⟨tree, htree, h⟩ := Option.bind_eq_some_iff.mp h
    obtain rfl := Option.some.inj h
    obtain ⟨-, hshrinks⟩ := removeSlave_apart htree (hapart.modify (setState_neutral .zombie st) t)
    exact ⟨hshrinks.sameStates, rfl⟩

theorem StatesOk.processSignal {sig st : Int} (hok : StatesOk s)
    (hlive : s.ended t = false) (h : processSignal s t slave sig st = some s') : StatesOk s' := by
  have hset : ∀ (patched : Bool) (state : SlaveState) (st : Int) (s' : State), state ≠ .zombie →
      (stoppedTask state = true → patched = true) →
      changeSlaveState (s.change t fun slave => { slave with patched }) t slave state st = some s' →
      StatesOk s' := by
    intro patched state st s' hstate hpatch hs'
    refine (changeSlaveState_steady hstate hs').statesOk (StatesOk.change ?_ ?_)
    · intro u task' hu hut
      obtain ⟨task, hold, rfl⟩ := listed_modify.mp hu
      rw [if_neg hut]
      exact hok u task hold
    · intro task' ht'
      obtain ⟨task, -, rfl⟩ := listed_modify.mp ht'
      rw [if_pos rfl]
      exact ⟨hpatch, fun hend => absurd (hlive.symm.trans hend) Bool.false_ne_true⟩
  unfold Wait.processSignal at h
  split at h
  · exact Option.some.inj h ▸ hok
  · exact Option.some.inj h ▸ hok
  · unfold wakeupSlave at h
    split at h
    · exact hset false .running 0 s' (by simp) (by simp [stoppedTask]) h
    · exact Option.some.inj h ▸ hok
  · unfold stopSlave at h
    split at h
    · exact Option.some.inj h ▸ hok
    · obtain ⟨s₁, hs₁, h⟩ := Option.bind_eq_some_iff.mp h
      have h₁ : StatesOk s₁ := hset true .stopped st s₁ (by simp) (fun _ => rfl) hs₁
      split at h
      · exact Option.some.inj h ▸ h₁
      · exact Option.some.inj h ▸ h₁

theorem iszombie_steady (hapart : Apart s.toTree []) (ht : t ∈ s.firstTask)
    (h : afterWaitIszombie s t ret = some s') : Steady s s' := by
  obtain ⟨tree, htree, h⟩ := Option.bind_eq_some_iff.mp h
  obtain ⟨tree', htree', h⟩ := Option.bind_eq_some_iff.mp h
  obtain rfl := Option.some.inj h
  obtain ⟨-, hshrinks⟩ := removeSlave_apart htree' (removeChild_apart hapart ht htree)
  exact ⟨(sameStates_removeChild htree).trans hshrinks.sameStates, rfl⟩

/-- The child that `before_wait` has found to be stopped still is. -/
def StoppedStill (s : State) (slave : Task) (ret : Int) (status : Option Int) : Prop :=
  slave.nextCall = .isstopped → status ≠ none → (ret = 0 ∨ ret = -ECHILD) →
    ∀ c child, slave.stoppedChild = some c → s.tasks c = some child → stoppedTask child.state = true

theorem StatesOk.callNext (hok : StatesOk s) (hapart : Apart s.toTree []) (ht : t ∈ s.firstTask)
    (hstill : StoppedStill s slave ret status) (h : callNext s t slave ret status = some s') :
    StatesOk s' := by
  unfold Wait.callNext at h
  split at h
  · exact Option.some.inj h ▸ hok
  · unfold afterWaitWnohang at h
    split at h
    · obtain ⟨tree, htree, h⟩ := Option.bind_eq_some_iff.mp h
      obtain rfl := Option.some.inj h
      exact Steady.statesOk ⟨sameStates_removeChild htree, rfl⟩ hok
    · exact Option.some.inj h ▸ hok
  · exact (iszombie_steady hapart ht h).statesOk hok
  · rename_i hnext
    cases status with
    | none => exact Option.some.inj h ▸ hok
    | some st =>
      unfold afterWaitIsstopped at h
      simp only at h
      split at h
      · split at h
        · exact (iszombie_steady hapart ht h).statesOk hok
        · exact Option.some.inj h ▸ hok
      · rename_i hret
        obtain ⟨c, hc, h⟩ := Option.bind_eq_some_iff.mp h
        obtain ⟨child, hchild, h⟩ := Option.bind_eq_some_iff.mp h
        obtain rfl := Option.some.inj h
        have hret' : ret = 0 ∨ ret = -ECHILD := by
          by_contra hno
          exact hret ⟨fun h0 => hno (Or.inl h0), fun h10 => hno (Or.inr h10)⟩
        have hstopped := hstill hnext (by simp) hret' c child hc hchild
        refine StatesOk.change (fun u task hu _ => hok u task hu) fun task hlisted => ?_
        obtain rfl := Option.some.inj (hchild.symm.trans hlisted.2)
        obtain ⟨hpatched, hzombie⟩ := hok c child hlisted
        refine ⟨fun _ => hpatched hstopped, fun hend => ?_⟩
        -- a stopped task has not ended
        rw [hzombie hend] at hstopped
        cases hstopped

theorem StatesOk.leaveCall (hok : StatesOk s) (hapart : Apart s.toTree []) (ht : t ∈ s.firstTask)
    (hstill : slave.restartCall = none → StoppedStill s slave ret status)
    (h : leaveCall s t slave ret status = some s') : StatesOk s' := by
  by_cases hcall : slave.restartCall.isSome
  · have hres := (if_pos hcall).symm.trans h
    obtain rfl := Option.some.inj hres
    exact (steady_change s t (f := fun slave => { slave with restartCall := none, nextCall := .nothing })
      fun _ => ⟨rfl, rfl⟩).statesOk hok
  · have hno : slave.restartCall = none := by simpa using hcall
    obtain ⟨s₁, hnext, hlast⟩ := leaveCall_next hno h
    have h₁ := hok.callNext hapart ht (hstill hno) hnext
    rcases hlast with ⟨-, rfl⟩ | ⟨-, -, rfl⟩
    · exact h₁
    · exact (steady_change s₁ t (f := fun slave => { slave with nextCall := .nothing })
        fun _ => ⟨rfl, rfl⟩).statesOk h₁

theorem Entered.steady {inside : Inside} (h : Entered s t slave arg options s' inside) :
    Steady s s' := by
  cases h with
  | passed => exact .refl s
  | stopped c hc =>
    exact steady_change s t (f := fun slave =>
      { slave with nextCall := .isstopped, stoppedChild := some c }) fun _ => ⟨rfl, rfl⟩
  | other next hnext =>
    exact steady_change s t (f := fun slave => { slave with nextCall := next }) fun _ => ⟨rfl, rfl⟩
  | suspended hunready =>
    exact steady_change s t (f := fun slave => { slave with restartCall := some (arg, options) })
      fun _ => ⟨rfl, rfl⟩

-- ---------------------------------------------------------------------------
-- Steps and runs
-- ---------------------------------------------------------------------------

/-- A return from a call that was to report a stopped child finds it stopped. -/
def StillStopped (s : State) (e : Event) : Prop := AtLeave (StoppedStill s) s e

/-- A turn of OKFS, for a task that is found. -/
theorem StatesOk.turn {handle : TaskRef → Task → Option State} (hok : StatesOk s)
    (hhandle : ∀ t slave s', findSlave s.toTree pid = some t → Listed s.toTree t slave →
      handle t slave = some s' → StatesOk s') : StatesOk (Wait.turn s pid handle) := by
  rcases turn_cases s pid handle with ⟨-, heq⟩ | ⟨t, slave, hfind, hslave, -, heq⟩
  · rw [heq]
    exact hok
  · rw [heq]
    cases hres : handle t slave with
    | none => exact hok
    | some s' => exact hhandle t slave s' hfind ⟨findSlave_mem hfind, hslave⟩ hres

theorem StatesOk.step (hok : StatesOk s) (h : Linked s none) (hs' : Wait.step s e = some s')
    (hstill : StillStopped s e) : StatesOk s' := by
  obtain ⟨-, k, hk, rfl⟩ := step_spec hs'
  cases e with
  | dies pid =>
    obtain ⟨p, -, -, rfl⟩ := kernel_dies hk
    exact hok
  | reaped pid =>
    obtain ⟨p, -, -, rfl⟩ := kernel_reaped hk
    exact hok
  | answers pid child =>
    obtain ⟨p, c, -, -, -, -, -, -, -, rfl⟩ := kernel_answers hk
    exact hok
  | fork pid child =>
    obtain ⟨p, hp, -, -, -, -, rfl⟩ := kernel_fork hk
    refine StatesOk.turn hok fun t slave s' _ ht hs' => ?_
    obtain rfl := Option.some.inj hs'
    intro u task hu
    rcases (forkTree_listed h.apart.fresh ht.1 slave child).mp hu with ⟨rfl, rfl⟩ | ⟨task₀, hold, rfl⟩
    · -- the new record's
      refine ⟨fun hstopped => ?_, fun hend => ?_⟩
      · cases hstopped
      · exact absurd (h.fresh s.nextTask (Or.inl hend)) (Nat.lt_irrefl _)
    · obtain ⟨hpatched, hzombie⟩ := hok u task₀ hold
      split <;> exact ⟨hpatched, hzombie⟩
  | waitEnter pid arg options =>
    obtain ⟨p, -, -, -, rfl⟩ := kernel_waitEnter hk
    refine hok.turn fun t slave s' _ ht hs' => ?_
    obtain ⟨r, hr, rfl⟩ := Option.map_eq_some_iff.mp hs'
    exact Steady.statesOk ⟨(beforeWait_entered hr).steady.states, (beforeWait_entered hr).steady.ended⟩ hok
  | leave pid ret status =>
    obtain ⟨p, -, -, -, hkeq⟩ := kernel_leave hk
    have hk' : k.toTree = s.toTree ∧ k.ended = s.ended := by
      rw [hkeq]
      exact ⟨rfl, rfl⟩
    have hokk : StatesOk k := Steady.statesOk ⟨hk'.1 ▸ .refl _, hk'.2⟩ hok
    refine hokk.turn fun t slave s' hfind ht hs' => ?_
    refine hokk.leaveCall (hk'.1 ▸ h.apart) ht.1 (fun hno => ?_) hs'
    rw [hk'.1] at hfind ht
    have hstopped := hstill t slave hfind ht.2 hno
    rw [StoppedStill, hk'.1]
    exact hstopped
  | signal pid sig st =>
    obtain ⟨p, hp, halive, -, hkeq⟩ := kernel_signal hk
    have hk' : k.toTree = s.toTree ∧ k.ended = s.ended := by
      rw [hkeq]
      split <;> exact ⟨rfl, rfl⟩
    have hokk : StatesOk k := Steady.statesOk ⟨hk'.1 ▸ .refl _, hk'.2⟩ hok
    refine hokk.turn fun t slave s' hfind ht hs' => ?_
    refine hokk.processSignal ?_ hs'
    obtain ⟨hfind', hend⟩ := h.live pid p hp (by simp [halive])
    rw [hk'.1] at hfind
    rw [hk'.2]
    exact Option.some.inj (hfind'.symm.trans hfind) ▸ hend
  | exit pid st =>
    obtain ⟨hlinked, p, hp, hdying, htree, hended⟩ := h.exits hk
    have hfind' := (h.live pid p hp (by simp [hdying])).1
    rcases turn_cases k pid fun t slave => changeSlaveState k t slave .zombie st with
      ⟨hno, -⟩ | ⟨t, slave, hfind, hslave, -, heq⟩
    · rw [htree, hfind'] at hno
      cases hno
    · have hpt : p.task = t := Option.some.inj (hfind'.symm.trans (htree ▸ hfind))
      have hokk : StatesOk (k.change t (setState .zombie st)) := by
        refine StatesOk.change (fun u task hu hut => ?_) fun task _ => ?_
        · rw [hended, Function.update_of_ne fun huc => hut (huc.trans hpt)]
          rw [htree] at hu
          exact hok u task hu
        · refine ⟨fun hstopped => ?_, fun _ => rfl⟩
          cases hstopped
      have hmem : t ∈ k.firstTask := findSlave_mem hfind
      show StatesOk (Wait.turn k pid _)
      rw [heq]
      have hrun : k.status = .running := by
        obtain ⟨p, -, -, rfl⟩ := kernel_exit hk
        exact (step_spec hs').1
      have hfind₁ : findSlave k.toTree slave.pid = some t := by
        obtain ⟨slave', hslave', hpid⟩ := findSlave_task hfind
        obtain rfl := Option.some.inj (hslave.symm.trans hslave')
        rw [hpid]
        exact hfind
      have hhandles : Handles (changeSlaveState k t slave .zombie st) :=
        hlinked.changeSlaveState hrun ⟨hmem, hslave⟩ rfl
          (fun _ => by rw [hended, ← hpt, Function.update_self]) hfind₁
      obtain ⟨s', hs', -⟩ := hhandles
      rw [hs']
      exact (changeSlaveState_zombie hlinked.apart hs').statesOk hokk

/-- **The recorded states.** In every state of a run in which forks return new pids, and a
child that a wait is to report as stopped still is when the call returns, a task on record as
stopped has the patch of `stop_slave`, and one that has ended is on record as a zombie. -/
theorem states_recorded {first : Pid} (hfirst : 1 < first) {gid : Int} {es : List Event}
    (hkeeps : Runs.Along Wait.step (fun s e => NewPid s e ∧ StillStopped s e) (start first gid) es)
    (hrun : Runs.exec Wait.step (start first gid) es = some s) (ht : Listed s.toTree t task) :
    (task.state = .stopped ∨ task.state = .stoppedAndNotified → task.patched = true) ∧
      (s.ended t = true → task.state = .zombie) := by
  have hstart : StatesOk (start first gid) := by
    intro t task ht
    rw [(start_listed ht).2]
    refine ⟨fun hstopped => ?_, fun hend => ?_⟩
    · cases hstopped
    · cases hend
  have hinv : Linked s none ∧ StatesOk s := by
    refine Runs.inv_of_exec (I := fun s => Linked s none ∧ StatesOk s) ?_
      ⟨start_linked hfirst gid, hstart⟩ hkeeps hrun
    rintro s e s' ⟨h, hok⟩ ⟨hnew, hstill⟩ hs'
    exact ⟨(h.step hs' hnew).1, hok.step h hs' hstill⟩
  obtain ⟨hpatched, hzombie⟩ := hinv.2 t task ht
  refine ⟨fun hstopped => hpatched ?_, hzombie⟩
  rcases hstopped with hs | hs
  · rw [hs]
    rfl
  · rw [hs]
    rfl

/-- A child is stopped, and its parent told. -/
def stopAndWait : List Event :=
  [.fork 100 101, .signal 101 SIGTSTP 0x147f, .waitEnter 100 (-1) WUNTRACED, .leave 100 0 (some 0)]

theorem states_recorded_stopAndWait :
    ∃ s task, Runs.exec Wait.step (start 100 1) stopAndWait = some s ∧ Listed s.toTree 1 task ∧
      task.state = .stoppedAndNotified ∧ task.patched = true := by
  have hfork : NewPid (start 100 1) (.fork 100 101) := by
    intro t task ht hpid
    rw [(start_listed ht).2] at hpid
    exact absurd hpid (by decide)
  have hkeeps : Runs.Along Wait.step (fun s e => NewPid s e ∧ StillStopped s e) (start 100 1)
      stopAndWait := by
    refine ⟨⟨hfork, trivial⟩, fun s₁ hs₁ => ⟨⟨trivial, trivial⟩, fun s₂ hs₂ =>
      ⟨⟨trivial, trivial⟩, fun s₃ hs₃ => ⟨⟨trivial, ?_⟩, fun _ _ => trivial⟩⟩⟩⟩
    obtain rfl := Option.some.inj hs₁
    obtain rfl := Option.some.inj hs₂
    obtain rfl := Option.some.inj hs₃
    intro t slave hfind hslave _ _ _ _ c child hc hchild
    obtain rfl : 0 = t := Option.some.inj hfind
    obtain rfl := Option.some.inj hslave
    obtain rfl : 1 = c := Option.some.inj hc
    obtain rfl := Option.some.inj hchild
    rfl
  have hfirst : (1 : Pid) < 100 := by decide
  have hrun : Runs.exec Wait.step (start 100 1) stopAndWait = some _ := rfl
  refine ⟨_, _, hrun, ⟨List.mem_cons_self, rfl⟩, rfl, ?_⟩
  exact (states_recorded (t := 1) hfirst hkeeps hrun ⟨List.mem_cons_self, rfl⟩).1 (Or.inr rfl)

/-- The child that the parent is to be told of is killed before the parent's call returns: it
is on record as stopped then. -/
theorem zombie_recorded_stopped :
    ∃ s task, Runs.exec Wait.step (start 100 1)
        [.fork 100 101, .signal 101 SIGTSTP 0x147f, .waitEnter 100 (-1) WUNTRACED, .dies 101,
          .exit 101 9, .leave 100 (-ECHILD) (some 0)] = some s ∧
      Listed s.toTree 1 task ∧
      ¬ ((task.state = .stopped ∨ task.state = .stoppedAndNotified → task.patched = true) ∧
        (s.ended 1 = true → task.state = .zombie)) := by
  refine ⟨_, _, rfl, ⟨List.mem_cons_self, rfl⟩, fun hok => ?_⟩
  have hzombie : SlaveState.stoppedAndNotified = SlaveState.zombie := hok.2 rfl
  cases hzombie

end Wait

end Okfs
