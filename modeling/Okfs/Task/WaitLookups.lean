import Okfs.Task.WaitTree

/-!
# OKFS — lookups of the event loop

`find_slave` does not return if no record has the pid: it ends OKFS, and with it every task.
`guard_slaves` looks up the pid of every report of the kernel, and `stop_slave` the parent
of the task that it stops.

A `Session` adds to the state of the wait modules the processes that `shfs_mount` has
forked to run its connections. They are children of OKFS that nobody traces, so that
`wait` reports their exits too. `lookups_find_iff`: in a run in which pids are not given
twice, every lookup finds a task exactly as long as no such process exits and no task
without a parent on record is stopped by default.
-/

namespace Okfs

namespace Wait

open ByteMemory Signal

variable {s s' k : State} {tree tree' : Tree} {t u : TaskRef} {slave task : Task} {p : Proc}
  {pid arg : Pid} {options : Options} {ret : Int} {status : Option Int} {e : Event}
  {f : Task → Task}

-- ---------------------------------------------------------------------------
-- Sessions
-- ---------------------------------------------------------------------------

structure Session where
  state : State
  /-- The processes that `create_socket_sh` has forked, as long as they have not exited. -/
  helpers : Pid → Bool

/-- What `wait` reports to the event loop. -/
inductive Report
  | traced (e : Event)
  | helperExit (pid : Pid) (status : Int)

/-- What the kernel does before the report, as long as OKFS runs; it gives no task the pid of a
living process. -/
def Session.kernel (s : Session) (r : Report) : Option State :=
  if s.state.status = .running then
    match r with
    | .traced (.fork pid child) =>
      if s.helpers child then none else Wait.kernel s.state (.fork pid child)
    | .traced e => Wait.kernel s.state e
    | .helperExit pid _ => if s.helpers pid then some s.state else none
  else none

/-- The turn of `guard_slaves`. -/
def Session.okfs (k : State) : Report → State
  | .traced e => Wait.okfs k e
  | .helperExit pid status => turn k pid fun t slave => changeSlaveState k t slave .zombie status

def Session.step (s : Session) (r : Report) : Option Session :=
  (s.kernel r).map fun k =>
    { state := Session.okfs k r
      helpers := fun pid =>
        match r with
        | .traced _ => s.helpers pid
        | .helperExit q _ => s.helpers pid && pid != q }

/-- The first task has been started, after the mounts. -/
def Session.start (first : Pid) (gid : Int) (helpers : Pid → Bool) : Session :=
  ⟨Wait.start first gid, helpers⟩

/-- The pid that `guard_slaves` looks up. -/
def Report.waited : Report → Option Pid
  | .traced (.fork pid _) | .traced (.waitEnter pid _ _) | .traced (.leave pid _ _)
  | .traced (.signal pid _ _) | .traced (.exit pid _) | .helperExit pid _ => some pid
  | .traced (.dies _) | .traced (.reaped _) | .traced (.answers _ _) => none

/-- A signal for which `process_signal` calls `stop_slave`. -/
def StopsByDefault (slave : Task) (sig : Int) : Prop :=
  (Signal.processSignal slave.state slave.sighandler sig).1 = .stopSlave

/-- The lookups that are made for a report find a task: that of `guard_slaves`, and that of
`stop_slave`, if it gets that far. -/
structure LookupsFind (s : Session) (r : Report) : Prop where
  guard : ∀ k, s.kernel r = some k → ∀ pid, r.waited = some pid → findSlave k.toTree pid ≠ none
  stop : ∀ k pid sig st, r = .traced (.signal pid sig st) → s.kernel r = some k →
    ∀ t slave, findSlave k.toTree pid = some t → k.tasks t = some slave → StopsByDefault slave sig →
      slave.patched = false → ∀ s',
        changeSlaveState (k.change t fun slave => { slave with patched := true }) t slave .stopped st =
          some s' → findSlave s'.toTree slave.ppid ≠ none

/-- No helper exits, and a task that is stopped by default has a parent on record. -/
def ParentsListed (s : Session) (r : Report) : Prop :=
  s.kernel r ≠ none →
    match r with
    | .helperExit _ _ => False
    | .traced (.signal pid sig _) =>
      ∀ t slave, findSlave s.state.toTree pid = some t → s.state.tasks t = some slave →
        StopsByDefault slave sig → slave.patched = false → slave.ppid ≠ 1
    | .traced _ => True

/-- A fork returns no pid that is on record, unless it is an orphan's. -/
def NewPids (s : Session) : Report → Prop
  | .traced e => NewPid s.state e
  | .helperExit _ _ => True

-- ---------------------------------------------------------------------------
-- Pids are given by forks
-- ---------------------------------------------------------------------------

/-- Every pid on record was on record before. -/
def OldPids (tree tree' : Tree) : Prop :=
  ∀ t task', Listed tree' t task' → ∃ u task, Listed tree u task ∧ task.pid = task'.pid

theorem OldPids.refl (tree : Tree) : OldPids tree tree := fun t task ht => ⟨t, task, ht, rfl⟩

theorem OldPids.trans {tree'' : Tree} (h : OldPids tree tree') (h' : OldPids tree' tree'') :
    OldPids tree tree'' := by
  intro t task'' ht
  obtain ⟨u, task', hu, hpid'⟩ := h' t task'' ht
  obtain ⟨v, task, hv, hpid⟩ := h u task' hu
  exact ⟨v, task, hv, hpid.trans hpid'⟩

theorem Neutral.oldPids (hf : Neutral f) (tree : Tree) (t : TaskRef) : OldPids tree (tree.modify t f) := by
  intro u task' hu
  obtain ⟨task, hu, hpid, -⟩ := hf.listed hu
  exact ⟨u, task, hu, hpid.symm⟩

theorem Shrinks.oldPids (h : Shrinks tree tree') : OldPids tree tree' := by
  intro t task' ht
  obtain ⟨task, ht, hleft⟩ := h.listed ht
  exact ⟨t, task, ht, hleft.pid_eq.symm⟩

theorem removeChild_oldPids (h : removeChild tree t pid = some tree') : OldPids tree tree' := by
  obtain ⟨slave, c, -, -, -, rfl⟩ := removeChild_spec h
  intro u task' hu
  obtain ⟨task₁, hu₁, rfl⟩ := listed_orphan.mp hu
  obtain ⟨task₀, hu₀, rfl⟩ := listed_modify.mp hu₁
  refine ⟨u, task₀, hu₀, ?_⟩
  split <;> split <;> rfl

theorem changeSlaveState_oldPids {state : SlaveState} {st : Int} (hapart : Apart s.toTree [])
    (h : changeSlaveState s t slave state st = some s') : OldPids s.toTree s'.toTree := by
  have h₁ := (setState_neutral state st).oldPids s.toTree t
  unfold changeSlaveState at h
  split at h
  · split at h
    · exact Option.some.inj h ▸ h₁
    · exact Option.some.inj h ▸ h₁
  · split at h
    · obtain ⟨tree, htree, h⟩ := Option.bind_eq_some_iff.mp h
      obtain rfl := Option.some.inj h
      have hapart₁ := hapart.modify (setState_neutral state st) t
      exact h₁.trans (removeSlave_apart htree hapart₁).2.oldPids
    · exact Option.some.inj h ▸ h₁

theorem processSignal_oldPids {sig st : Int} (hapart : Apart s.toTree [])
    (h : processSignal s t slave sig st = some s') : OldPids s.toTree s'.toTree := by
  have hset : ∀ (patched : Bool) (state : SlaveState) (st : Int) (s' : State),
      changeSlaveState (s.change t fun slave => { slave with patched }) t slave state st = some s' →
      OldPids s.toTree s'.toTree := fun patched state st s' hs' =>
    ((patched_neutral patched).oldPids s.toTree t).trans
      (changeSlaveState_oldPids (hapart.modify (patched_neutral patched) t) hs')
  unfold processSignal at h
  split at h
  · exact Option.some.inj h ▸ .refl _
  · exact Option.some.inj h ▸ .refl _
  · unfold wakeupSlave at h
    split at h
    · exact hset false .running 0 s' h
    · exact Option.some.inj h ▸ .refl _
  · unfold stopSlave at h
    split at h
    · exact Option.some.inj h ▸ .refl _
    · obtain ⟨s₁, hs₁, h⟩ := Option.bind_eq_some_iff.mp h
      have h₁ := hset true .stopped st s₁ hs₁
      split at h
      · exact Option.some.inj h ▸ h₁
      · exact Option.some.inj h ▸ h₁

theorem iszombie_oldPids (hapart : Apart s.toTree []) (ht : t ∈ s.firstTask)
    (h : afterWaitIszombie s t ret = some s') : OldPids s.toTree s'.toTree := by
  obtain ⟨tree, htree, h⟩ := Option.bind_eq_some_iff.mp h
  obtain ⟨tree', htree', h⟩ := Option.bind_eq_some_iff.mp h
  obtain rfl := Option.some.inj h
  have hshrinks := (removeSlave_apart htree' (removeChild_apart hapart ht htree)).2
  exact (removeChild_oldPids htree).trans hshrinks.oldPids

theorem callNext_oldPids (hapart : Apart s.toTree []) (ht : t ∈ s.firstTask)
    (h : callNext s t slave ret status = some s') : OldPids s.toTree s'.toTree := by
  unfold callNext at h
  split at h
  · exact Option.some.inj h ▸ .refl _
  · unfold afterWaitWnohang at h
    split at h
    · obtain ⟨tree, htree, h⟩ := Option.bind_eq_some_iff.mp h
      exact Option.some.inj h ▸ removeChild_oldPids htree
    · exact Option.some.inj h ▸ .refl _
  · exact iszombie_oldPids hapart ht h
  · cases status with
    | none => exact Option.some.inj h ▸ .refl _
    | some st =>
      unfold afterWaitIsstopped at h
      simp only at h
      split at h
      · split at h
        · exact iszombie_oldPids hapart ht h
        · exact Option.some.inj h ▸ .refl _
      · obtain ⟨c, -, h⟩ := Option.bind_eq_some_iff.mp h
        obtain ⟨child, -, h⟩ := Option.bind_eq_some_iff.mp h
        obtain rfl := Option.some.inj h
        have hf : Neutral fun child : Task => { child with state := .stoppedAndNotified } :=
          ⟨fun _ => rfl, fun _ => rfl, fun _ => rfl⟩
        exact hf.oldPids s.toTree c

theorem leaveCall_oldPids (hapart : Apart s.toTree []) (ht : t ∈ s.firstTask)
    (h : leaveCall s t slave ret status = some s') : OldPids s.toTree s'.toTree := by
  by_cases hcall : slave.restartCall.isSome
  · have heq := (if_pos hcall).symm.trans h
    obtain rfl := Option.some.inj heq
    have hf : Neutral fun slave : Task => { slave with restartCall := none, nextCall := .nothing } :=
      ⟨fun _ => rfl, fun _ => rfl, fun _ => rfl⟩
    exact hf.oldPids s.toTree t
  · obtain ⟨s₁, hnext, hlast⟩ := leaveCall_next (by simpa using hcall) h
    have h₁ := callNext_oldPids hapart ht hnext
    rcases hlast with ⟨-, rfl⟩ | ⟨-, -, rfl⟩
    · exact h₁
    · exact h₁.trans ((nextCall_neutral .nothing).oldPids s₁.toTree t)

/-- A turn of the event loop, by what the handler leaves. -/
theorem turn_oldPids {handle : TaskRef → Task → Option State}
    (h : ∀ t slave s', Listed k.toTree t slave → handle t slave = some s' →
      OldPids k.toTree s'.toTree) : OldPids k.toTree (turn k pid handle).toTree := by
  rcases turn_cases k pid handle with ⟨-, heq⟩ | ⟨t, slave, hfind, hslave, -, heq⟩
  · rw [heq]
    exact .refl _
  · rw [heq]
    cases hres : handle t slave with
    | none => exact .refl _
    | some s' => exact h t slave s' ⟨findSlave_mem hfind, hslave⟩ hres

/-- The kernel changes no record. -/
theorem kernel_toTree (hk : kernel s e = some k) : k.toTree = s.toTree := by
  cases e with
  | dies pid =>
    obtain ⟨p, -, -, rfl⟩ := kernel_dies hk
    rfl
  | reaped pid =>
    obtain ⟨p, -, -, rfl⟩ := kernel_reaped hk
    rfl
  | answers pid child =>
    obtain ⟨p, c, -, -, -, -, -, -, -, rfl⟩ := kernel_answers hk
    rfl
  | fork pid child =>
    obtain ⟨p, -, -, -, -, -, rfl⟩ := kernel_fork hk
    rfl
  | waitEnter pid arg options =>
    obtain ⟨p, -, -, -, rfl⟩ := kernel_waitEnter hk
    rfl
  | leave pid ret status =>
    obtain ⟨p, -, -, -, rfl⟩ := kernel_leave hk
    rfl
  | signal pid sig st =>
    obtain ⟨p, -, -, -, rfl⟩ := kernel_signal hk
    split <;> rfl
  | exit pid st =>
    obtain ⟨p, -, -, rfl⟩ := kernel_exit hk
    rfl

theorem Entered.oldPids {inside : Inside} (h : Entered s t slave arg options s' inside) :
    OldPids s.toTree s'.toTree := by
  cases h with
  | passed => exact .refl _
  | stopped c hc =>
    have hf : Neutral fun slave : Task =>
        { slave with nextCall := .isstopped, stoppedChild := some c } :=
      ⟨fun _ => rfl, fun _ => rfl, fun _ => rfl⟩
    exact hf.oldPids s.toTree t
  | other next hnext => exact (nextCall_neutral next).oldPids s.toTree t
  | suspended hunready =>
    have hf : Neutral fun slave : Task => { slave with restartCall := some (arg, options) } :=
      ⟨fun _ => rfl, fun _ => rfl, fun _ => rfl⟩
    exact hf.oldPids s.toTree t

/-- A pid is on record after a step because it was before, or because a fork has returned it. -/
theorem step_pids (h : Linked s none) (hs' : Wait.step s e = some s') (ht : Listed s'.toTree t task) :
    (∃ u task', Listed s.toTree u task' ∧ task'.pid = task.pid) ∨ ∃ pid, e = .fork pid task.pid := by
  obtain ⟨-, k, hk, rfl⟩ := step_spec hs'
  have htree := kernel_toTree hk
  have hapart : Apart k.toTree [] := htree ▸ h.apart
  have hold : OldPids k.toTree (Wait.okfs k e).toTree →
      (∃ u task', Listed s.toTree u task' ∧ task'.pid = task.pid) ∨ ∃ pid, e = .fork pid task.pid :=
    fun hpids => Or.inl (htree ▸ hpids t task ht)
  cases e with
  | dies pid => exact hold (.refl _)
  | reaped pid => exact hold (.refl _)
  | answers pid child => exact hold (.refl _)
  | fork pid child =>
    rcases turn_cases k pid (fun t slave => some { k with toTree := forkTree k.toTree t slave child })
      with ⟨-, heq⟩ | ⟨u, slave, hfind, hslave, -, heq⟩
    · refine hold ?_
      show OldPids k.toTree (Wait.turn k pid _).toTree
      rw [heq]
      exact .refl _
    · have ht' : Listed (forkTree k.toTree u slave child) t task := by
        change Listed (Wait.turn k pid _).toTree t task at ht
        rw [heq] at ht
        exact ht
      rcases (forkTree_listed hapart.fresh (findSlave_mem hfind) slave child).mp ht' with
        ⟨-, rfl⟩ | ⟨task₀, hu, rfl⟩
      · exact Or.inr ⟨pid, rfl⟩
      · refine Or.inl ⟨t, task₀, htree ▸ hu, ?_⟩
        split <;> rfl
  | waitEnter pid arg options =>
    refine hold (turn_oldPids fun u slave s' _ hs' => ?_)
    obtain ⟨r, hr, rfl⟩ := Option.map_eq_some_iff.mp hs'
    exact (beforeWait_entered hr).oldPids
  | leave pid ret status =>
    exact hold (turn_oldPids fun u slave s' hu hs' => leaveCall_oldPids hapart hu.1 hs')
  | signal pid sig st =>
    exact hold (turn_oldPids fun u slave s' _ hs' => processSignal_oldPids hapart hs')
  | exit pid st =>
    exact hold (turn_oldPids fun u slave s' _ hs' => changeSlaveState_oldPids hapart hs')

-- ---------------------------------------------------------------------------
-- The invariant of a session
-- ---------------------------------------------------------------------------

variable {S S' : Session} {report : Report}

structure SessionOk (S : Session) : Prop where
  linked : Linked S.state none
  /-- No task has the pid of a helper. -/
  helpers : ∀ pid, S.helpers pid = true → ∀ t task, Listed S.state.toTree t task → task.pid ≠ pid

theorem Session.kernel_traced (h : S.kernel (.traced e) = some k) :
    S.state.status = .running ∧ Wait.kernel S.state e = some k ∧
      ∀ pid child, e = .fork pid child → S.helpers child = false := by
  unfold Session.kernel at h
  split at h
  · refine ⟨‹_›, ?_⟩
    cases e with
    | fork pid child =>
      by_cases hhelper : S.helpers child = true
      · simp only [hhelper] at h
        cases h
      · refine ⟨(if_neg hhelper).symm.trans h, fun _ c heq => ?_⟩
        cases heq
        simpa using hhelper
    | _ => exact ⟨h, fun _ _ heq => by cases heq⟩
  · cases h

theorem Session.kernel_helperExit {st : Int} (h : S.kernel (.helperExit pid st) = some k) :
    S.helpers pid = true ∧ k = S.state := by
  unfold Session.kernel at h
  split at h
  · simp only at h
    split at h
    · exact ⟨‹_›, (Option.some.inj h).symm⟩
    · cases h
  · cases h

theorem SessionOk.helper_none (h : SessionOk S) (hpid : S.helpers pid = true) :
    findSlave S.state.toTree pid = none := by
  by_contra hfind
  obtain ⟨t, hfind⟩ := Option.ne_none_iff_exists'.mp hfind
  obtain ⟨task, htask, htpid⟩ := findSlave_task hfind
  exact h.helpers pid hpid t task ⟨findSlave_mem hfind, htask⟩ htpid

theorem SessionOk.start {first : Pid} (hfirst : 1 < first) (gid : Int) {helpers : Pid → Bool}
    (hself : helpers first = false) : SessionOk (Session.start first gid helpers) := by
  refine ⟨start_linked hfirst gid, fun pid hpid t task ht heq => ?_⟩
  rw [(start_listed ht).2] at heq
  obtain rfl : first = pid := heq
  exact Bool.false_ne_true (hself.symm.trans hpid)

/-- A step of a session. -/
theorem SessionOk.step (h : SessionOk S) (hnew : NewPids S report)
    (hS' : Session.step S report = some S') : SessionOk S' := by
  obtain ⟨k, hk, rfl⟩ := Option.map_eq_some_iff.mp hS'
  cases report with
  | helperExit pid st =>
    obtain ⟨hpid, rfl⟩ := Session.kernel_helperExit hk
    have hquit : Session.okfs S.state (.helperExit pid st) = S.state.quit := by
      show Wait.turn S.state pid _ = _
      rw [Wait.turn, h.helper_none hpid]
    show SessionOk ⟨Session.okfs S.state (.helperExit pid st), _⟩
    rw [hquit]
    exact ⟨h.linked.withStatus .quit, fun q hq t task ht =>
      h.helpers q ((Bool.and_eq_true _ _).mp hq).1 t task ht⟩
  | traced e =>
    obtain ⟨hrun, hk, hfork⟩ := Session.kernel_traced hk
    have hs' : Wait.step S.state e = some (Wait.okfs k e) := by
      rw [Wait.step, if_pos hrun, hk]
      rfl
    refine ⟨(h.linked.step hs' hnew).1, fun q hq t task ht heq => ?_⟩
    rcases step_pids h.linked hs' ht with ⟨u, task', hu, hpid⟩ | ⟨pid, rfl⟩
    · exact h.helpers q hq u task' hu (hpid.trans heq)
    · exact Bool.false_ne_true ((hfork pid task.pid rfl).symm.trans (heq ▸ hq))

-- ---------------------------------------------------------------------------
-- The lookups
-- ---------------------------------------------------------------------------

/-- A task that stops keeps its record. -/
theorem changeSlaveState_stopped (s : State) (t : TaskRef) (slave : Task) (st : Int) :
    ∃ s', changeSlaveState s t slave .stopped st = some s' ∧
      s'.toTree = s.toTree.modify t (setState .stopped st) := by
  unfold changeSlaveState
  split
  · exact ⟨_, if_pos (Or.inr rfl), rfl⟩
  · exact ⟨_, if_neg (by simp), rfl⟩

theorem stopped_findSlave {st : Int}
    (h : changeSlaveState (s.change t fun slave => { slave with patched := true }) t slave .stopped st =
      some s') (q : Pid) : findSlave s'.toTree q = findSlave s.toTree q := by
  obtain ⟨s₁, hs₁, htree⟩ := changeSlaveState_stopped
    (s.change t fun slave => { slave with patched := true }) t slave st
  obtain rfl := Option.some.inj (hs₁.symm.trans h)
  rw [htree, (setState_neutral .stopped st).findSlave]
  exact (patched_neutral true).findSlave s.toTree t q

theorem Listed.findSlave_ne (ht : Listed tree t task) : findSlave tree task.pid ≠ none := by
  intro hnone
  have hno := List.find?_eq_none.mp hnone t ht.1
  refine hno ?_
  rw [Tree.pidOf, ht.2]
  exact beq_self_eq_true (some task.pid)

/-- `find_slave` finds the parent of a task, unless it is 1. -/
theorem Linked.parent (h : Linked s none) (ht : Listed s.toTree t slave) :
    findSlave s.toTree slave.ppid ≠ none ↔ slave.ppid ≠ 1 := by
  constructor
  · rintro hfind hone
    obtain ⟨u, hfind⟩ := Option.ne_none_iff_exists'.mp hfind
    obtain ⟨owner, howner, hpid⟩ := findSlave_task hfind
    have hpos := h.pidPos u owner ⟨findSlave_mem hfind, howner⟩
    rw [hpid, hone] at hpos
    exact Int.lt_irrefl _ hpos
  · intro hne
    rcases h.whole.owned t slave ht hne with hrest | ⟨u, owner, howner, hmem⟩
    · cases hrest
    · rw [h.apart.ppid u owner howner t hmem slave ht.2]
      exact howner.findSlave_ne

/-- The task of a report is found. -/
theorem Linked.guard (h : Linked s none) (hk : Wait.kernel s e = some k)
    (hpid : (Report.traced e).waited = some pid) : findSlave k.toTree pid ≠ none := by
  rw [kernel_toTree hk]
  have hfound : ∀ p, s.procs pid = some p → p.phase ≠ .zombie → findSlave s.toTree pid ≠ none := by
    intro p hp hphase
    rw [(h.live pid p hp hphase).1]
    exact Option.some_ne_none _
  cases e with
  | dies q => cases hpid
  | reaped q => cases hpid
  | answers q child => cases hpid
  | fork q child =>
    cases hpid
    obtain ⟨p, hp, halive, -⟩ := kernel_fork hk
    exact hfound p hp (by simp [halive])
  | waitEnter q arg options =>
    cases hpid
    obtain ⟨p, hp, halive, -⟩ := kernel_waitEnter hk
    exact hfound p hp (by simp [halive])
  | leave q ret status =>
    cases hpid
    obtain ⟨p, hp, halive, -⟩ := kernel_leave hk
    exact hfound p hp (by simp [halive])
  | signal q sig st =>
    cases hpid
    obtain ⟨p, hp, halive, -⟩ := kernel_signal hk
    exact hfound p hp (by simp [halive])
  | exit q st =>
    cases hpid
    obtain ⟨p, hp, hdying, -⟩ := kernel_exit hk
    exact hfound p hp (by simp [hdying])

/-- The lookups of one report. -/
theorem SessionOk.lookups (h : SessionOk S) (report : Report) :
    LookupsFind S report ↔ ParentsListed S report := by
  cases report with
  | helperExit pid st =>
    constructor
    · intro hfind hk
      obtain ⟨k, hk⟩ := Option.ne_none_iff_exists'.mp hk
      obtain ⟨hpid, rfl⟩ := Session.kernel_helperExit hk
      exact hfind.guard S.state hk pid rfl (h.helper_none hpid)
    · intro hno
      have hnone : ∀ k, S.kernel (.helperExit pid st) ≠ some k := by
        intro k hk
        exact hno (by rw [hk]; exact Option.some_ne_none k)
      refine ⟨fun k hk => absurd hk (hnone k), fun k q sig st' heq => ?_⟩
      cases heq
  | traced e =>
    have hguard : ∀ k, S.kernel (.traced e) = some k → ∀ pid, (Report.traced e).waited = some pid →
        findSlave k.toTree pid ≠ none := fun k hk pid hpid =>
      h.linked.guard (Session.kernel_traced hk).2.1 hpid
    constructor
    · intro hfind hk
      obtain ⟨k, hk⟩ := Option.ne_none_iff_exists'.mp hk
      have htree := kernel_toTree (Session.kernel_traced hk).2.1
      cases e with
      | signal pid sig st =>
        intro t slave hslave htask hstops hpatched
        obtain ⟨s', hs', -⟩ := changeSlaveState_stopped
          (k.change t fun slave => { slave with patched := true }) t slave st
        have hparent := hfind.stop k pid sig st rfl hk t slave (htree ▸ hslave) (by rw [htree, htask])
          hstops hpatched s' hs'
        rw [stopped_findSlave hs', htree] at hparent
        exact (h.linked.parent ⟨findSlave_mem hslave, htask⟩).mp hparent
      | _ => trivial
    · intro hparents
      refine ⟨hguard, ?_⟩
      rintro k pid sig st heq hk t slave hslave htask hstops hpatched s' hs'
      obtain rfl : e = .signal pid sig st := Report.traced.inj heq
      have htree := kernel_toTree (Session.kernel_traced hk).2.1
      rw [stopped_findSlave hs', htree]
      rw [htree] at hslave htask
      have hne := hparents (by rw [hk]; exact Option.some_ne_none k) t slave hslave htask hstops hpatched
      exact (h.linked.parent ⟨findSlave_mem hslave, htask⟩).mpr hne

/-- **Lookups.** In a run in which forks return new pids, every lookup of the event loop finds
a task if and only if no helper exits and no task is stopped by default that has no parent
on record. -/
theorem lookups_find_iff {first : Pid} (hfirst : 1 < first) {gid : Int} {helpers : Pid → Bool}
    (hself : helpers first = false) {rs : List Report}
    (hnew : Runs.Along Session.step NewPids (Session.start first gid helpers) rs) :
    Runs.Along Session.step LookupsFind (Session.start first gid helpers) rs ↔
      Runs.Along Session.step ParentsListed (Session.start first gid helpers) rs :=
  Runs.Along.congr (I := SessionOk) (fun _ _ _ h hn _ hS' => h.step hn hS')
    (fun _ report h _ => h.lookups report) (SessionOk.start hfirst gid hself) hnew

/-- A child is stopped and continued. -/
def continuedChild : List Report :=
  [.traced (.fork 100 101), .traced (.signal 101 SIGTSTP 0x147f),
    .traced (.signal 101 SIGCONT 0x127f)]

theorem lookups_find_iff_stopAndContinue :
    Runs.Along Session.step LookupsFind (Session.start 100 1 fun _ => false) continuedChild := by
  have hfork : NewPids (Session.start 100 1 fun _ => false) (.traced (.fork 100 101)) := by
    intro t task ht hpid
    rw [(start_listed ht).2] at hpid
    exact absurd hpid (by decide)
  have hnew : Runs.Along Session.step NewPids (Session.start 100 1 fun _ => false) continuedChild :=
    ⟨hfork, fun _ _ => ⟨trivial, fun _ _ => ⟨trivial, fun _ _ => trivial⟩⟩⟩
  refine (lookups_find_iff (by decide) rfl hnew).mpr ⟨fun _ => trivial, fun S hS => ?_⟩
  cases hS
  refine ⟨fun _ t slave ht htask _ _ => ?_, fun S' hS' => ?_⟩
  · cases ht
    cases htask
    decide
  · cases hS'
    refine ⟨fun _ t slave ht htask _ _ => ?_, fun _ _ => trivial⟩
    cases ht
    cases htask
    decide

/-- The terminal's stop signal for the first task ends OKFS, and so does the exit of a helper. -/
theorem not_lookups_find :
    (¬ Runs.Along Session.step LookupsFind (Session.start 100 1 fun _ => false)
        [.traced (.signal 100 SIGTSTP 0x147f)]) ∧
      ¬ Runs.Along Session.step LookupsFind (Session.start 100 1 fun pid => pid == 99)
        [.helperExit 99 0] := by
  constructor
  · intro hfind
    have hok : SessionOk (Session.start 100 1 fun _ => false) := .start (by decide) 1 rfl
    exact (hok.lookups _).mp hfind.1 (Option.some_ne_none _) 0 _ rfl rfl rfl rfl rfl
  · intro hfind
    have hok : SessionOk (Session.start 100 1 fun pid => pid == 99) := .start (by decide) 1 rfl
    exact (hok.lookups _).mp hfind.1 (Option.some_ne_none _)

end Wait

end Okfs
