import Okfs.Task.WaitState
import Okfs.Task.WaitWakeup

/-!
# OKFS — records are removed

A task that wait has returned to its parent, or that has exited without a parent on record,
needs no record any more. Which function completes the wait depends on what OKFS knew when
the call was entered, and two of the four do not remove the record: `Completed` is the
condition that one of the others completes every wait that returns a pid.

The last removal leaves the list of tasks empty, and OKFS ends with `exit(0)` then.
-/

namespace Okfs

namespace Wait

open ByteMemory Signal

variable {s s' k : State} {tree tree' : Tree} {t u c r : TaskRef} {slave task child : Task}
  {p : Proc} {pid arg : Pid} {options : Options} {ret : Int} {status : Option Int} {e : Event}
  {f : Task → Task}

-- ---------------------------------------------------------------------------
-- Records that are no longer needed
-- ---------------------------------------------------------------------------

/-- The record is still needed. -/
structure Needed (returned ended : Bool) (task : Task) : Prop where
  awaited : returned = false
  owned : ended = true → task.ppid ≠ 1

def Clean (s : State) : Prop :=
  ∀ t task, Listed s.toTree t task → Needed (s.returned t) (s.ended t) task

/-- A change that makes no orphans. -/
def SameParents (tree tree' : Tree) : Prop :=
  ∀ t task', Listed tree' t task' → ∃ task, Listed tree t task ∧ task'.ppid = task.ppid

theorem SameParents.refl (tree : Tree) : SameParents tree tree := fun _ task ht => ⟨task, ht, rfl⟩

theorem sameParents_modify (tree : Tree) (t : TaskRef) (hf : Neutral f) :
    SameParents tree (tree.modify t f) := by
  intro u task' hu
  obtain ⟨task, hu, -, hppid, -⟩ := hf.listed hu
  exact ⟨task, hu, hppid⟩

/-- What stays of a state in which no task comes to its end. -/
structure Quiet (s s' : State) : Prop where
  parents : SameParents s.toTree s'.toTree
  ended : s'.ended = s.ended
  returned : s'.returned = s.returned

theorem Quiet.refl (s : State) : Quiet s s := ⟨.refl _, rfl, rfl⟩

theorem Quiet.trans {s'' : State} (h : Quiet s s') (h' : Quiet s' s'') : Quiet s s'' := by
  refine ⟨fun t task'' ht => ?_, h'.ended.trans h.ended, h'.returned.trans h.returned⟩
  obtain ⟨task', ht', hppid'⟩ := h'.parents t task'' ht
  obtain ⟨task, ht, hppid⟩ := h.parents t task' ht'
  exact ⟨task, ht, hppid'.trans hppid⟩

theorem quiet_change (s : State) (t : TaskRef) (hf : Neutral f) : Quiet s (s.change t f) :=
  ⟨sameParents_modify s.toTree t hf, rfl, rfl⟩

theorem Quiet.clean (h : Quiet s s') (hclean : Clean s) : Clean s' := by
  intro t task' ht
  obtain ⟨task, hold, hppid⟩ := h.parents t task' ht
  rw [h.ended, h.returned]
  obtain ⟨hawaited, howned⟩ := hclean t task hold
  exact ⟨hawaited, fun hend => hppid ▸ howned hend⟩

/-- A removal: the one record that is not needed is gone, and no zombie has become an
orphan. -/
theorem clean_removed (hshrinks : Shrinks tree s'.toTree) (hspares : Spares tree s'.toTree)
    (hgone : r ∉ s'.firstTask) (hok : StatesOk s')
    (hold : ∀ u task, Listed tree u task → u ≠ r → Needed (s'.returned u) (s'.ended u) task) :
    Clean s' := by
  intro u task' hu
  have hur : u ≠ r := fun heq => hgone (heq ▸ hu.1)
  obtain ⟨task, hu₀, -⟩ := hshrinks.listed hu
  refine ⟨(hold u task hu₀ hur).awaited, fun hend hone => ?_⟩
  -- a task that has ended is a zombie, which was an orphan before
  obtain ⟨task₁, hu₁, hone₁⟩ := hspares u task' hu hone ((hok u task' hu).zombie hend)
  exact (hold u task₁ hu₁ hur).owned hend hone₁

-- ---------------------------------------------------------------------------
-- The turns of OKFS
-- ---------------------------------------------------------------------------

theorem changeSlaveState_quiet {state : SlaveState} {st : Int}
    (hkept : state = .zombie → slave.ppid ≠ 1)
    (h : changeSlaveState s t slave state st = some s') : Quiet s s' := by
  have h₁ : Quiet s (s.change t (setState state st)) := quiet_change s t (setState_neutral state st)
  unfold changeSlaveState at h
  split at h
  · split at h
    · exact Option.some.inj h ▸ ⟨h₁.parents, rfl, rfl⟩
    · exact Option.some.inj h ▸ h₁
  · rename_i hone
    split at h
    · exact absurd (hkept ‹_›) hone
    · exact Option.some.inj h ▸ h₁

theorem processSignal_quiet {sig st : Int} (h : processSignal s t slave sig st = some s') :
    Quiet s s' := by
  have hset : ∀ (patched : Bool) (state : SlaveState) (st : Int) (s' : State), state ≠ .zombie →
      changeSlaveState (s.change t fun slave => { slave with patched }) t slave state st = some s' →
      Quiet s s' := by
    intro patched state st s' hstate hs'
    exact (quiet_change s t (patched_neutral patched)).trans
      (changeSlaveState_quiet (fun hz => absurd hz hstate) hs')
  have hquit : ∀ k : State, Quiet s k → Quiet s k.quit := fun k hk => ⟨hk.parents, hk.ended, hk.returned⟩
  unfold processSignal at h
  split at h
  · exact Option.some.inj h ▸ .refl s
  · exact Option.some.inj h ▸ .refl s
  · unfold wakeupSlave at h
    split at h
    · exact hset false .running 0 s' (by simp) h
    · exact Option.some.inj h ▸ hquit s (.refl s)
  · unfold stopSlave at h
    split at h
    · exact Option.some.inj h ▸ hquit s (.refl s)
    · obtain ⟨s₁, hs₁, h⟩ := Option.bind_eq_some_iff.mp h
      have h₁ := hset true .stopped st s₁ (by simp) hs₁
      split at h
      · exact Option.some.inj h ▸ hquit s₁ h₁
      · exact Option.some.inj h ▸ h₁

theorem Entered.quiet {inside : Inside} (h : Entered s t slave arg options s' inside) :
    Quiet s s' := by
  cases h with
  | passed => exact .refl s
  | stopped c hc =>
    exact quiet_change s t (f := fun slave =>
      { slave with nextCall := .isstopped, stoppedChild := some c })
      ⟨fun _ => rfl, fun _ => rfl, fun _ => rfl⟩
  | other next hnext => exact quiet_change s t (nextCall_neutral next)
  | suspended hunready =>
    exact quiet_change s t (f := fun slave => { slave with restartCall := some (arg, options) })
      ⟨fun _ => rfl, fun _ => rfl, fun _ => rfl⟩

/-- Where wait returns no pid, no record is removed. -/
theorem callNext_quiet (hlinked : Linked s none) (ht : Listed s.toTree t slave) (hret : ret ≤ 0)
    (h : callNext s t slave ret status = some s') : Quiet s s' := by
  unfold callNext at h
  split at h
  · exact Option.some.inj h ▸ .refl s
  · unfold afterWaitWnohang at h
    rw [if_neg (by omega)] at h
    exact Option.some.inj h ▸ .refl s
  · rw [hlinked.iszombie_none ht hret] at h
    cases h
  · cases status with
    | none => exact Option.some.inj h ▸ ⟨.refl _, rfl, rfl⟩
    | some st =>
      unfold afterWaitIsstopped at h
      simp only at h
      split at h
      · rw [if_neg (by omega)] at h
        exact Option.some.inj h ▸ .refl s
      · obtain ⟨c, -, h⟩ := Option.bind_eq_some_iff.mp h
        obtain ⟨child, -, h⟩ := Option.bind_eq_some_iff.mp h
        obtain rfl := Option.some.inj h
        exact quiet_change s c (f := fun child => { child with state := .stoppedAndNotified })
          ⟨fun _ => rfl, fun _ => rfl, fun _ => rfl⟩

/-- A wait that returns a pid is completed by a function that removes the record. -/
def CompletedBy (slave : Task) (ret : Int) (status : Option Int) : Prop :=
  0 < ret → slave.nextCall = .iszombie ∨ (slave.nextCall = .isstopped ∧ status ≠ none)

theorem callNext_iszombie (hby : CompletedBy slave ret status) (hret : 0 < ret)
    (hstatus : ∀ st, status = some st → wifstopped st = false) :
    callNext s t slave ret status = afterWaitIszombie s t ret := by
  rcases hby hret with hnext | ⟨hnext, hst⟩
  · rw [callNext, hnext]
  · obtain ⟨st, rfl⟩ := Option.ne_none_iff_exists'.mp hst
    rw [callNext, hnext]
    unfold afterWaitIsstopped
    simp only
    rw [if_pos ⟨by omega, by unfold ECHILD; omega⟩, if_pos ⟨hret, hstatus st rfl⟩]

/-- Wait returns a child, and its record is removed. -/
theorem Clean.iszombie (hclean : Clean s) (hok : StatesOk s) (h : Linked k none)
    (htree : k.toTree = s.toTree) (hended : k.ended = s.ended)
    (hreturned : k.returned = fun u => s.returned u || (some r == some u))
    (ht : Listed k.toTree t slave) (hr : Returned k t slave ret r)
    (hidle : ∀ q p, k.procs q = some p → p.phase = .alive → p.task = t → p.answer = none) :
    ∃ tree, afterWaitIszombie k t ret = some (k.removed tree) ∧ Clean (k.removed tree) := by
  obtain ⟨tree, heq, hlinked, hshrinks, hgone, hspares⟩ := h.iszombie ht hr hidle
  have hokk : StatesOk k := Steady.statesOk ⟨htree ▸ .refl _, hended⟩ hok
  have hok' : StatesOk (k.removed tree) := (iszombie_steady h.apart ht.1 heq).statesOk hokk
  refine ⟨tree, heq, clean_removed hshrinks hspares hgone hok' fun u task hu hur => ?_⟩
  obtain ⟨task₁, hu₁, rfl⟩ := listed_orphan.mp hu
  obtain ⟨task₀, hu₀, rfl⟩ := listed_modify.mp hu₁
  rw [htree] at hu₀
  obtain ⟨hawaited, howned⟩ := hclean u task₀ hu₀
  rw [if_neg hur]
  refine ⟨?_, fun hend => ?_⟩
  · show k.returned u = false
    have hne : (some r == some u) = false := by simpa using fun heq => hur heq.symm
    rw [hreturned]
    simp only [hawaited, hne, Bool.or_self]
  · have hend' : s.ended u = true := hended ▸ hend
    split <;> exact howned hend'

theorem Clean.leave (hclean : Clean s) (hok : StatesOk s) (h : Linked s none) (hsound : Sound s)
    (hrun : s.status = .running) (hk : kernel s (.leave pid ret status) = some k)
    (hby : AtLeave CompletedBy s (.leave pid ret status)) :
    Clean (turn k pid fun t slave => leaveCall k t slave ret status) := by
  obtain ⟨p, hp, halive, hreturns, hkeq⟩ := kernel_leave hk
  have hlive := h.live pid p hp (by simp [halive])
  have htree : k.toTree = s.toTree ∧ k.ended = s.ended ∧ k.status = s.status := by
    rw [hkeq]
    exact ⟨rfl, rfl, rfl⟩
  have hlinked := h.leaves hk
  obtain ⟨p', slave, hp', ht, heq, hres⟩ := h.leaveCall hrun hk
  obtain rfl := Option.some.inj (hp.symm.trans hp')
  have hfind : findSlave k.toTree pid = some p.task := htree.1 ▸ hlive.1
  rw [heq]
  by_cases hret : 0 < ret
  · obtain ⟨⟨r, hr, hreturned⟩, hst⟩ := h.returned hk ht hfind hret
    have hno : slave.restartCall = none := by
      -- the task is inside a wait call, so it has none to restart
      rw [htree.1] at ht
      obtain ⟨-, p', hp', hpt', -, hawaited⟩ := hsound.followed p.task slave ht hlive.2
      obtain ⟨task', htask', hpid⟩ := findSlave_task hlive.1
      obtain rfl := Option.some.inj (ht.2.symm.trans htask')
      rw [hpid, hp] at hp'
      obtain rfl := Option.some.inj hp'
      obtain ⟨r', hans, -⟩ := Proc.returns_pos hreturns hret
      have hwait := (h.answered pid p hp halive ret r' hans).inside
      by_contra hne
      have hpause := hawaited.waits.mpr hne
      rw [hwait] at hpause
      cases hpause
    have hcompleted : CompletedBy slave ret status :=
      hby p.task slave hlive.1 (htree.1 ▸ ht.2) hno
    obtain ⟨tree, hiszombie, hclean'⟩ :=
      hclean.iszombie hok hlinked htree.1 htree.2.1 hreturned ht hr (h.idle hk hfind)
    have hnext : callNext k p.task slave ret status = some (k.removed tree) :=
      (callNext_iszombie hcompleted hret hst).trans hiszombie
    rcases hres with ⟨s', hres, -⟩ | ⟨-, -, -, hle⟩
    · rw [hres]
      obtain ⟨s₁, hnext', hlast⟩ := leaveCall_next hno hres
      obtain rfl := Option.some.inj (hnext.symm.trans hnext')
      rcases hlast with ⟨-, rfl⟩ | ⟨-, -, rfl⟩
      · exact hclean'
      · exact (quiet_change _ _ (nextCall_neutral .nothing)).clean hclean'
    · exact absurd hle (by omega)
  · have hidle : p.answer = none := by
      by_contra hans
      obtain ⟨⟨c, r⟩, hans⟩ := Option.ne_none_iff_exists'.mp hans
      obtain ⟨hwait, -, hrpid, owner, howner, hmem⟩ := h.answered pid p hp halive c r hans
      rw [Proc.returns, hwait, hans] at hreturns
      have hc : ret = c := eq_of_beq ((Bool.and_eq_true _ _).mp hreturns).1
      have hrmem := h.whole.childListed _ owner howner r hmem
      obtain ⟨child, hchild⟩ := h.whole.alloc r hrmem
      have hpos := h.pidPos r child ⟨hrmem, hchild⟩
      rw [Tree.pidOf, hchild] at hrpid
      obtain rfl := Option.some.inj hrpid
      exact hret (hc ▸ Int.lt_trans Int.zero_lt_one hpos)
    have hquiet : Quiet s k := by
      refine ⟨htree.1 ▸ .refl _, htree.2.1, ?_⟩
      rw [hkeq, hidle]
      funext u
      exact Bool.or_false _
    cases hres : leaveCall k p.task slave ret status with
    | none => exact (hquiet.clean hclean :)
    | some s' =>
      refine Quiet.clean ?_ hclean
      by_cases hcall : slave.restartCall.isSome
      · have heq' := (if_pos hcall).symm.trans hres
        obtain rfl := Option.some.inj heq'
        exact hquiet.trans (quiet_change k p.task
          (f := fun slave => { slave with restartCall := none, nextCall := .nothing })
          ⟨fun _ => rfl, fun _ => rfl, fun _ => rfl⟩)
      · obtain ⟨s₁, hnext, hlast⟩ := leaveCall_next (by simpa using hcall) hres
        have h₁ := hquiet.trans (callNext_quiet hlinked ht (by omega) hnext)
        rcases hlast with ⟨-, rfl⟩ | ⟨-, -, rfl⟩
        · exact h₁
        · exact h₁.trans (quiet_change _ _ (nextCall_neutral .nothing))

/-- A task ends. -/
theorem Clean.exit {st : Int} (hclean : Clean s) (h : Linked s none) (hrun : s.status = .running)
    (hk : kernel s (.exit pid st) = some k)
    (hok' : StatesOk (turn k pid fun t slave => changeSlaveState k t slave .zombie st)) :
    Clean (turn k pid fun t slave => changeSlaveState k t slave .zombie st) := by
  obtain ⟨hlinked, p, hp, hdying, htree, hended⟩ := h.exits hk
  have hkret : k.returned = s.returned ∧ k.status = .running := by
    obtain ⟨p, -, -, rfl⟩ := kernel_exit hk
    exact ⟨rfl, hrun⟩
  obtain ⟨slave, ht, hpid, hfind, -⟩ := h.turn (fun _ _ => none) hp (by simp [hdying])
  rw [← htree] at ht hfind
  have hturn : turn k pid (fun t slave => changeSlaveState k t slave .zombie st) =
      (changeSlaveState k p.task slave .zombie st).getD { k with status := .crashed } := by
    rw [turn, hfind]
    simp only [ht.2]
    rfl
  -- of the other tasks nothing changes
  have hother : ∀ u task, Listed k.toTree u task → u ≠ p.task →
      Needed (k.returned u) (k.ended u) task := by
    intro u task hu hut
    rw [htree] at hu
    rw [hkret.1, hended, Function.update_of_ne hut]
    exact hclean u task hu
  have hhandles : Handles (changeSlaveState k p.task slave .zombie st) :=
    hlinked.changeSlaveState hkret.2 ht rfl (fun _ => by rw [hended, Function.update_self])
      (hpid ▸ hfind)
  obtain ⟨s', hres, -⟩ := hhandles
  rw [hturn, hres] at hok'
  rw [hturn, hres]
  by_cases hone : slave.ppid = 1
  · have hinv := hres
    unfold changeSlaveState at hinv
    rw [if_neg (by simp [hone])] at hinv
    obtain ⟨tree, hremove, hinv⟩ := Option.bind_eq_some_iff.mp hinv
    obtain rfl := Option.some.inj hinv
    have h₁ : Linked (k.change p.task (setState .zombie st)) none :=
      hlinked.setState fun _ => by rw [hended, Function.update_self]
    have ht₁ : Listed (k.change p.task (setState .zombie st)).toTree p.task
        (setState .zombie st slave) := listed_modify.mpr ⟨slave, ht, (if_pos rfl).symm⟩
    have hfind₁ : findSlave (k.change p.task (setState .zombie st)).toTree slave.pid = some p.task :=
      ((setState_neutral .zombie st).findSlave k.toTree _ _).trans (hpid ▸ hfind)
    obtain ⟨tree', htree', -, -, hgone, hspares⟩ :=
      removeSlave_whole h₁.apart h₁.whole hfind₁ ht₁ hone
    obtain rfl := Option.some.inj (hremove.symm.trans htree')
    obtain ⟨-, hshrinks⟩ := removeSlave_apart htree' h₁.apart
    refine clean_removed hshrinks hspares hgone hok' fun u task hu hut => ?_
    obtain ⟨task₀, hu₀, rfl⟩ := listed_modify.mp hu
    rw [if_neg hut]
    exact hother u task₀ hu₀ hut
  · refine (changeSlaveState_quiet (fun _ => hone) hres).clean fun u task hu => ?_
    by_cases hut : u = p.task
    · subst hut
      obtain rfl := Option.some.inj (ht.2.symm.trans hu.2)
      refine ⟨?_, fun _ => hone⟩
      rw [hkret.1]
      rw [htree] at hu
      exact (hclean _ _ hu).awaited
    · exact hother u task hu hut

theorem Clean.turn {handle : TaskRef → Task → Option State} (hclean : Clean s)
    (hhandle : ∀ t slave s', Listed s.toTree t slave → handle t slave = some s' → Clean s') :
    Clean (Wait.turn s pid handle) := by
  rcases turn_cases s pid handle with ⟨-, heq⟩ | ⟨t, slave, hfind, hslave, -, heq⟩
  · rw [heq]
    exact (hclean :)
  · rw [heq]
    cases hres : handle t slave with
    | none => exact (hclean :)
    | some s' => exact hhandle t slave s' ⟨findSlave_mem hfind, hslave⟩ hres

-- ---------------------------------------------------------------------------
-- Steps
-- ---------------------------------------------------------------------------

/-- A function that removes the record completes every wait that returns a pid. -/
def Completed : State → Event → Prop := AtLeave CompletedBy

/-- The conditions for the three invariants together. -/
structure Reaping (s : State) (e : Event) : Prop where
  newPid : NewPid s e
  zombieReturned : ZombieReturned s e
  stillStopped : StillStopped s e
  completed : Completed s e

theorem Clean.step (hclean : Clean s) (hok : StatesOk s) (h : Linked s none) (hsound : Sound s)
    (hs' : Wait.step s e = some s') (hby : Completed s e) (hok' : StatesOk s') : Clean s' := by
  obtain ⟨hrun, k, hk, rfl⟩ := step_spec hs'
  cases e with
  | dies pid =>
    obtain ⟨p, -, -, rfl⟩ := kernel_dies hk
    exact hclean
  | reaped pid =>
    obtain ⟨p, -, -, rfl⟩ := kernel_reaped hk
    exact hclean
  | answers pid child =>
    obtain ⟨p, c, -, -, -, -, -, -, -, rfl⟩ := kernel_answers hk
    exact hclean
  | fork pid child =>
    obtain ⟨p, hp, -, -, -, -, rfl⟩ := kernel_fork hk
    refine Clean.turn hclean fun t slave s' ht hs' => ?_
    obtain rfl := Option.some.inj hs'
    intro u task hu
    rcases (forkTree_listed h.apart.fresh ht.1 slave child).mp hu with
      ⟨rfl, rfl⟩ | ⟨task₀, hold, rfl⟩
    · refine ⟨?_, fun _ => h.whole.pidNe t slave ht⟩
      by_contra hret
      exact Nat.lt_irrefl _ (h.fresh s.nextTask (Or.inr (by simpa using hret)))
    · obtain ⟨hawaited, howned⟩ := hclean u task₀ hold
      split <;> exact ⟨hawaited, howned⟩
  | waitEnter pid arg options =>
    obtain ⟨p, -, -, -, rfl⟩ := kernel_waitEnter hk
    refine hclean.turn fun t slave s' _ hs' => ?_
    obtain ⟨r, hr, rfl⟩ := Option.map_eq_some_iff.mp hs'
    have hquiet := (beforeWait_entered hr).quiet
    exact Quiet.clean ⟨hquiet.parents, hquiet.ended, hquiet.returned⟩ hclean
  | leave pid ret status => exact hclean.leave hok h hsound hrun hk hby
  | signal pid sig st =>
    obtain ⟨p, hp, halive, -, hkeq⟩ := kernel_signal hk
    have hquiet : Quiet s k := by
      rw [hkeq]
      split <;> exact ⟨.refl _, rfl, rfl⟩
    have hcleank := hquiet.clean hclean
    exact hcleank.turn fun t slave s' _ hs' => (processSignal_quiet hs').clean hcleank
  | exit pid st => exact hclean.exit h hrun hk hok'

-- ---------------------------------------------------------------------------
-- The end of OKFS
-- ---------------------------------------------------------------------------

/-- The handlers of a task leave the processes as they are, but for the signal. -/
def KeepsPhases (s s' : State) : Prop :=
  ∀ q p, s.procs q = some p → ∃ p', s'.procs q = some p' ∧ p'.phase = p.phase

theorem KeepsPhases.refl (s : State) : KeepsPhases s s := fun _ p hp => ⟨p, hp, rfl⟩

theorem keepsPhases_changeProc (s : State) (pid : Pid) {f : Proc → Proc}
    (hf : ∀ p, (f p).phase = p.phase) : KeepsPhases s (s.changeProc pid f) := by
  intro q p hp
  by_cases hq : q = pid
  · subst hq
    exact ⟨f p, (s.changeProc_self q f).trans (by rw [hp]; rfl), hf p⟩
  · exact ⟨p, (s.changeProc_of_ne f hq).trans hp, rfl⟩

theorem changeSlaveState_phases {state : SlaveState} {st : Int}
    (h : changeSlaveState s t slave state st = some s') :
    KeepsPhases s s' ∧ (s'.status = s.status ∨ s'.status = .exited) := by
  unfold changeSlaveState at h
  split at h
  · split at h
    · obtain rfl := Option.some.inj h
      exact ⟨keepsPhases_changeProc _ slave.ppid (f := fun p => { p with unpause := true })
        fun _ => rfl, Or.inl rfl⟩
    · exact Option.some.inj h ▸ ⟨.refl _, Or.inl rfl⟩
  · split at h
    · obtain ⟨tree, -, h⟩ := Option.bind_eq_some_iff.mp h
      obtain rfl := Option.some.inj h
      refine ⟨.refl _, ?_⟩
      unfold State.removed
      split
      · exact Or.inr rfl
      · exact Or.inl rfl
    · exact Option.some.inj h ▸ ⟨.refl _, Or.inl rfl⟩

theorem processSignal_phases {sig st : Int} (h : processSignal s t slave sig st = some s') :
    KeepsPhases s s' := by
  unfold processSignal at h
  split at h
  · exact Option.some.inj h ▸ .refl s
  · exact Option.some.inj h ▸ .refl s
  · unfold wakeupSlave at h
    split at h
    · exact (changeSlaveState_phases h).1
    · exact Option.some.inj h ▸ .refl s
  · unfold stopSlave at h
    split at h
    · exact Option.some.inj h ▸ .refl s
    · obtain ⟨s₁, hs₁, h⟩ := Option.bind_eq_some_iff.mp h
      have h₁ := (changeSlaveState_phases hs₁).1
      split at h
      · exact Option.some.inj h ▸ h₁
      · exact Option.some.inj h ▸ h₁

theorem callNext_procs (h : callNext s t slave ret status = some s') : s'.procs = s.procs := by
  have hzombie : ∀ s', afterWaitIszombie s t ret = some s' → s'.procs = s.procs := by
    intro s' h
    obtain ⟨tree, -, h⟩ := Option.bind_eq_some_iff.mp h
    obtain ⟨tree', -, h⟩ := Option.bind_eq_some_iff.mp h
    exact Option.some.inj h ▸ rfl
  unfold callNext at h
  split at h
  · exact Option.some.inj h ▸ rfl
  · unfold afterWaitWnohang at h
    split at h
    · obtain ⟨tree, -, h⟩ := Option.bind_eq_some_iff.mp h
      exact Option.some.inj h ▸ rfl
    · exact Option.some.inj h ▸ rfl
  · exact hzombie s' h
  · cases status with
    | none => exact Option.some.inj h ▸ rfl
    | some st =>
      unfold afterWaitIsstopped at h
      simp only at h
      split at h
      · split at h
        · exact hzombie s' h
        · exact Option.some.inj h ▸ rfl
      · obtain ⟨c, -, h⟩ := Option.bind_eq_some_iff.mp h
        obtain ⟨child, -, h⟩ := Option.bind_eq_some_iff.mp h
        exact Option.some.inj h ▸ rfl

theorem leaveCall_procs (h : leaveCall s t slave ret status = some s') : s'.procs = s.procs := by
  by_cases hcall : slave.restartCall.isSome
  · exact Option.some.inj ((if_pos hcall).symm.trans h) ▸ rfl
  · obtain ⟨s₁, hnext, hlast⟩ := leaveCall_next (by simpa using hcall) h
    have h₁ := callNext_procs hnext
    rcases hlast with ⟨-, rfl⟩ | ⟨-, -, rfl⟩
    · exact h₁
    · exact h₁

/-- If OKFS ends with an error a process is left. -/
def Leaves (s : State) : Prop := s.status = .quit → ∃ q p, s.procs q = some p ∧ p.phase ≠ .zombie

theorem Linked.leavesProcess (h : Linked s none) (hs' : Wait.step s e = some s') : Leaves s' := by
  obtain ⟨hrun, k, hk, rfl⟩ := step_spec hs'
  have hrunning : ∀ k : State, k.status = .running → Leaves k := by
    intro k hrun hquit
    rw [hrun] at hquit
    cases hquit
  -- a turn for a process that is alive, which stays
  have hturn : ∀ (k : State) (pid : Pid) (p : Proc) (handle : TaskRef → Task → Option State),
      k.procs pid = some p → p.phase = .alive →
      (∀ t slave s', handle t slave = some s' → KeepsPhases k s') → Leaves (Wait.turn k pid handle) := by
    intro k pid p handle hp halive hkeeps _
    rcases turn_cases k pid handle with ⟨-, heq⟩ | ⟨t, slave, -, -, -, heq⟩
    · exact ⟨pid, p, heq ▸ hp, by simp [halive]⟩
    · rw [heq]
      cases hres : handle t slave with
      | none => exact ⟨pid, p, hp, by simp [halive]⟩
      | some s' =>
        obtain ⟨p', hp', hphase⟩ := hkeeps t slave s' hres pid p hp
        exact ⟨pid, p', hp', by simp [hphase, halive]⟩
  cases e with
  | dies pid =>
    obtain ⟨p, -, -, rfl⟩ := kernel_dies hk
    exact hrunning _ hrun
  | reaped pid =>
    obtain ⟨p, -, -, rfl⟩ := kernel_reaped hk
    exact hrunning _ hrun
  | answers pid child =>
    obtain ⟨p, c, -, -, -, -, -, -, -, rfl⟩ := kernel_answers hk
    exact hrunning _ hrun
  | fork pid child =>
    obtain ⟨p, hp, halive, -, hfree, -, rfl⟩ := kernel_fork hk
    have hne : pid ≠ child := by
      rintro rfl
      rw [hp] at hfree
      cases hfree
    refine hturn _ pid p _ ((Function.update_of_ne hne ..).trans hp) halive fun t slave s' hs' => ?_
    obtain rfl := Option.some.inj hs'
    exact .refl _
  | waitEnter pid arg options =>
    obtain ⟨p, hp, halive, -, rfl⟩ := kernel_waitEnter hk
    refine hturn k pid p _ hp halive fun t slave s' hs' => ?_
    obtain ⟨r, hr, rfl⟩ := Option.map_eq_some_iff.mp hs'
    have hprocs : r.1.procs = k.procs := by
      have hentered := beforeWait_entered hr
      exact hentered.procs
    intro q p hp
    exact keepsPhases_changeProc r.1 pid (f := fun p => { p with inside := r.2 }) (fun _ => rfl) q p
      (hprocs ▸ hp)
  | leave pid ret status =>
    obtain ⟨p, hp, halive, -, rfl⟩ := kernel_leave hk
    refine hturn _ pid { p with inside := .user, answer := none } _
      ((s.changeProc_self _ _).trans (by rw [hp]; rfl)) halive fun t slave s' hs' q p hp => ?_
    exact ⟨p, leaveCall_procs hs' ▸ hp, rfl⟩
  | signal pid sig st =>
    obtain ⟨p, hp, halive, -, hkeq⟩ := kernel_signal hk
    have hp' : ∃ p', k.procs pid = some p' ∧ p'.phase = .alive := by
      rw [hkeq]
      split
      · exact ⟨{ p with unpause := false }, (s.changeProc_self _ _).trans (by rw [hp]; rfl), halive⟩
      · exact ⟨p, hp, halive⟩
    obtain ⟨p', hp', halive'⟩ := hp'
    exact hturn k pid p' _ hp' halive' fun t slave s' hs' => processSignal_phases hs'
  | exit pid st =>
    obtain ⟨-, p, hp, hdying, htree, -⟩ := h.exits hk
    have hrun' : k.status = .running := by
      obtain ⟨p, -, -, rfl⟩ := kernel_exit hk
      exact hrun
    have hfound := (h.live pid p hp (by simp [hdying])).1
    rcases turn_cases k pid fun t slave => Wait.changeSlaveState k t slave .zombie st with
      ⟨hno, -⟩ | ⟨t, slave, -, -, -, heq⟩
    · rw [htree, hfound] at hno
      cases hno
    · intro hquit
      have hquit' : (Wait.turn k pid fun t slave => Wait.changeSlaveState k t slave .zombie st).status =
          .quit := hquit
      rw [heq] at hquit'
      cases hres : Wait.changeSlaveState k t slave .zombie st with
      | none =>
        rw [hres] at hquit'
        cases hquit'
      | some s' =>
        rw [hres] at hquit'
        rcases (changeSlaveState_phases hres).2 with hs | hs
        · rw [Option.getD_some, hs, hrun'] at hquit'
          cases hquit'
        · rw [Option.getD_some, hs] at hquit'
          cases hquit'

/-- Where every process has ended, no record is left. -/
theorem Clean.empty (hclean : Clean s) (h : Linked s none) (hsound : Sound s)
    (hgone : ∀ q p, s.procs q = some p → p.phase = .zombie) : s.firstTask = [] := by
  have hnone : ∀ t task, ¬ Listed s.toTree t task := by
    intro t
    -- a record that is left has its parent's before it
    induction t using Nat.strongRecOn with
    | _ t ih =>
      intro task ht
      have hend : s.ended t = true := by
        by_contra hlive
        obtain ⟨-, p, hp, -, hphase, -⟩ := hsound.followed t task ht (by simpa using hlive)
        exact hphase (hgone _ p hp)
      rcases h.whole.owned t task ht ((hclean t task ht).owned hend) with hrest | ⟨u, owner, hu, hmem⟩
      · cases hrest
      · exact ih u (h.older u owner hu t hmem) owner hu
  refine List.eq_nil_iff_forall_not_mem.mpr fun t ht => ?_
  obtain ⟨task, htask⟩ := h.whole.alloc t ht
  exact hnone t task ⟨ht, htask⟩

-- ---------------------------------------------------------------------------
-- Runs
-- ---------------------------------------------------------------------------

/-- **Removed records.** In every state of a run that meets the conditions, no task is on record
whose pid wait has returned, or that has exited and has no parent; and where every process
has ended the list is empty and OKFS has ended with `exit(0)`. -/
theorem records_removed {first : Pid} (hfirst : 1 < first) {gid : Int} {es : List Event}
    (hkeeps : Runs.Along Wait.step Reaping (start first gid) es)
    (hrun : Runs.exec Wait.step (start first gid) es = some s) :
    (∀ t task, Listed s.toTree t task →
      s.returned t = false ∧ ¬ (s.ended t = true ∧ task.ppid = 1)) ∧
    ((∀ q p, s.procs q = some p → p.phase = .zombie) → s.firstTask = [] ∧ s.status = .exited) := by
  have hstart : StatesOk (start first gid) ∧ Clean (start first gid) := by
    refine ⟨fun t task ht => ?_, fun t task ht => ⟨rfl, fun hend => ?_⟩⟩
    · rw [(start_listed ht).2]
      refine ⟨fun hstopped => ?_, fun hend => ?_⟩
      · cases hstopped
      · cases hend
    · cases hend
  have hinv : (Linked s none ∧ Stands s) ∧ StatesOk s ∧ Clean s ∧ Sound s ∧ Leaves s := by
    refine Runs.inv_of_exec
      (I := fun s => (Linked s none ∧ Stands s) ∧ StatesOk s ∧ Clean s ∧ Sound s ∧ Leaves s) ?_
      ⟨⟨start_linked hfirst gid, List.cons_ne_nil _ _⟩, hstart.1, hstart.2,
        start_sound hfirst gid, fun hquit => ?_⟩ hkeeps hrun
    · rintro s e s' ⟨⟨h, hstands⟩, hok, hclean, hsound, -⟩ hC hs'
      obtain ⟨h', hstands'⟩ := h.step hs' hC.newPid
      have hok' := hok.step h hs' hC.stillStopped
      exact ⟨⟨h', hstands' hstands hC.zombieReturned⟩, hok',
        hclean.step hok h hsound hs' hC.completed hok', hsound.step hs', h.leavesProcess hs'⟩
    · cases hquit
  obtain ⟨⟨h, hstands⟩, -, hclean, hsound, hleaves⟩ := hinv
  refine ⟨fun t task ht => ⟨(hclean t task ht).awaited, fun hboth => ?_⟩, fun hgone => ?_⟩
  · exact (hclean t task ht).owned hboth.1 hboth.2
  · have hempty := hclean.empty h hsound hgone
    refine ⟨hempty, ?_⟩
    unfold Stands at hstands
    split at hstands
    · exact absurd hempty hstands
    · assumption
    · rename_i hquit
      obtain ⟨q, p, hp, hphase⟩ := hleaves hquit
      exact absurd (hgone q p hp) hphase
    · exact hstands.elim

/-- A child that its parent has waited for, and the parent's end. -/
def waitAndExit : List Event :=
  [.fork 100 101, .dies 101, .exit 101 0, .waitEnter 100 (-1) 0, .answers 100 101,
    .leave 100 101 (some 0), .dies 100, .exit 100 0]

theorem records_removed_waitAndExit :
    ∃ s, Runs.exec Wait.step (start 100 1) waitAndExit = some s ∧ s.firstTask = [] ∧
      s.status = .exited := by
  have hfork : NewPid (start 100 1) (.fork 100 101) := by
    intro t task ht hpid
    rw [(start_listed ht).2] at hpid
    exact absurd hpid (by decide)
  have hother : ∀ s e, NewPid s e → (∀ P, AtLeave P s e) → Reaping s e :=
    fun s e hnew hleave => ⟨hnew, hleave _, hleave _, hleave _⟩
  have hkeeps : Runs.Along Wait.step Reaping (start 100 1) waitAndExit := by
    refine ⟨hother _ _ hfork fun _ => trivial, fun s₁ hs₁ => ⟨hother _ _ trivial fun _ => trivial,
      fun s₂ hs₂ => ⟨hother _ _ trivial fun _ => trivial, fun s₃ hs₃ =>
      ⟨hother _ _ trivial fun _ => trivial, fun s₄ hs₄ => ⟨hother _ _ trivial fun _ => trivial,
      fun s₅ hs₅ => ⟨⟨trivial, fun _ _ _ _ _ _ => by decide, fun t slave _ _ _ _ _ hret => ?_,
        fun t slave hfind hslave _ _ => Or.inl ?_⟩, fun _ _ => ⟨hother _ _ trivial fun _ => trivial,
      fun _ _ => ⟨hother _ _ trivial fun _ => trivial, fun _ _ => trivial⟩⟩⟩⟩⟩⟩⟩⟩
    · exact absurd hret (by decide)
    · obtain rfl := Option.some.inj hs₁
      obtain rfl := Option.some.inj hs₂
      obtain rfl := Option.some.inj hs₃
      obtain rfl := Option.some.inj hs₄
      obtain rfl := Option.some.inj hs₅
      obtain rfl : 0 = t := Option.some.inj hfind
      obtain rfl := Option.some.inj hslave
      rfl
  have hfirst : (1 : Pid) < 100 := by decide
  have hrun : Runs.exec Wait.step (start 100 1) waitAndExit = some _ := rfl
  refine ⟨_, hrun, (records_removed hfirst hkeeps hrun).2 ?_⟩
  intro q p hp
  by_contra hphase
  -- a process that has not ended is on record
  have hlinked := Runs.inv_of_exec (I := fun s => Linked s none)
    (fun s e s' h hC hs' => (h.step hs' hC.newPid).1) (start_linked hfirst 1) hkeeps hrun
  exact List.not_mem_nil (findSlave_mem (hlinked.live q p hp hphase).1)

/-- The child exits while its parent's wait with `WNOHANG` is on the way: the record stays. -/
theorem record_left_by_wnohang :
    ∃ s task, Runs.exec Wait.step (start 100 1)
        [.fork 100 101, .waitEnter 100 (-1) WNOHANG, .dies 101, .exit 101 0, .answers 100 101,
          .leave 100 101 (some 0)] = some s ∧
      Listed s.toTree 1 task ∧ s.returned 1 = true ∧ s.ended 1 = true ∧ task.ppid = 1 :=
  ⟨_, _, rfl, ⟨List.mem_cons_self, rfl⟩, rfl, rfl, rfl⟩

end Wait

end Okfs
