import Okfs.Task.Wait

/-!
# OKFS — no wake-up is lost

A parent that waits for a child that is not ready executes `pause`. It must be woken up when
a child becomes a zombie, or is stopped and the parent asked for that: OKFS sends
`SIGUNPAUSE` then, and the kernel keeps it pending while the parent is inside the call.

`Sound` is what holds in every reachable state: every task that has not ended has its process
and is the one that is found by its pid, and a task that is inside the `pause` has no
child that is ready without the signal pending.
-/

namespace Okfs

namespace Wait

open ByteMemory Signal

variable {s s' k : State} {tree tree' : Tree} {t u c : TaskRef} {slave task child : Task}
  {p : Proc} {pid arg : Pid} {options : Options} {ret : Int} {status : Option Int} {e : Event}
  {f : Task → Task}

-- ---------------------------------------------------------------------------
-- Changes that make no child ready
-- ---------------------------------------------------------------------------

/-- The record is the same task's: it may have lost children, but it has not become ready. -/
structure Fades (task task' : Task) : Prop where
  pid : task'.pid = task.pid
  gid : task'.gid = task.gid
  restartCall : task'.restartCall = task.restartCall
  childp : ∀ c ∈ task'.childp, c ∈ task.childp
  ready : ∀ options, Ready options task'.state → Ready options task.state

theorem Fades.refl (task : Task) : Fades task task :=
  ⟨rfl, rfl, rfl, fun _ hc => hc, fun _ h => h⟩

theorem Fades.trans {task task' task'' : Task} (h : Fades task task') (h' : Fades task' task'') :
    Fades task task'' :=
  ⟨h'.pid.trans h.pid, h'.gid.trans h.gid, h'.restartCall.trans h.restartCall,
    fun c hc => h.childp c (h'.childp c hc), fun options hr => h.ready options (h'.ready options hr)⟩

theorem Left.fades {task task' : Task} (h : Left task task') : Fades task task' := by
  rcases h with rfl | rfl
  · exact .refl _
  · exact ⟨rfl, rfl, rfl, fun _ hc => hc, fun _ h => h⟩

/-- The records of a tree that comes from another. -/
structure Follows (tree tree' : Tree) : Prop where
  found : ∀ t ∈ tree'.firstTask, ∀ pid, findSlave tree pid = some t → findSlave tree' pid = some t
  mem : ∀ t ∈ tree'.firstTask, t ∈ tree.firstTask
  tasks : ∀ t task', tree'.tasks t = some task' → ∃ task, tree.tasks t = some task ∧ Fades task task'

theorem Follows.refl (tree : Tree) : Follows tree tree :=
  ⟨fun _ _ _ h => h, fun _ h => h, fun _ task h => ⟨task, h, .refl task⟩⟩

theorem Follows.trans {tree'' : Tree} (h : Follows tree tree') (h' : Follows tree' tree'') :
    Follows tree tree'' := by
  refine ⟨fun t ht pid hfind => h'.found t ht pid (h.found t (h'.mem t ht) pid hfind),
    fun t ht => h.mem t (h'.mem t ht), fun t task'' htask'' => ?_⟩
  obtain ⟨task', htask', hfades'⟩ := h'.tasks t task'' htask''
  obtain ⟨task, htask, hfades⟩ := h.tasks t task' htask'
  exact ⟨task, htask, hfades.trans hfades'⟩

theorem Follows.listed (h : Follows tree tree') (ht : Listed tree' t slave) :
    ∃ task, Listed tree t task ∧ Fades task slave := by
  obtain ⟨task, htask, hfades⟩ := h.tasks t slave ht.2
  exact ⟨task, ⟨h.mem t ht.1, htask⟩, hfades⟩

theorem Shrinks.follows (h : Shrinks tree tree') (hnodup : tree.firstTask.Nodup) :
    Follows tree tree' := by
  refine ⟨fun t ht pid hfind => h.findSlave hnodup hfind ht, fun t ht => h.sublist.subset ht,
    fun t task' htask' => ?_⟩
  obtain ⟨task, htask, hleft⟩ := h.back t task' htask'
  exact ⟨task, htask, hleft.fades⟩

theorem follows_modify (hf : ∀ task, tree.tasks t = some task → Fades task (f task)) :
    Follows tree (tree.modify t f) := by
  have htasks : ∀ u task', (tree.modify t f).tasks u = some task' →
      ∃ task, tree.tasks u = some task ∧ Fades task task' := by
    intro u task' hu
    by_cases hut : u = t
    · subst hut
      rw [Tree.modify_self] at hu
      obtain ⟨task, htask, rfl⟩ := Option.map_eq_some_iff.mp hu
      exact ⟨task, htask, hf task htask⟩
    · rw [Tree.modify_of_ne tree f hut] at hu
      exact ⟨task', hu, .refl task'⟩
  have hpidOf : ∀ u, (tree.modify t f).pidOf u = tree.pidOf u := by
    intro u
    rw [Tree.pidOf, Tree.pidOf]
    by_cases hut : u = t
    · subst hut
      rw [Tree.modify_self]
      cases htask : tree.tasks u with
      | none => rfl
      | some task => exact congrArg some (hf task htask).pid
    · rw [Tree.modify_of_ne tree f hut]
  refine ⟨fun u hu pid hfind => ?_, fun u hu => hu, htasks⟩
  have hsame : findSlave (tree.modify t f) pid = findSlave tree pid := by
    refine findSlave_congr ?_ ?_ pid
    · rfl
    · exact fun u _ => hpidOf u
  exact hsame.trans hfind

theorem follows_removeChild (h : removeChild tree t pid = some tree') : Follows tree tree' := by
  obtain ⟨slave, c, -, -, -, rfl⟩ := removeChild_spec h
  refine (follows_modify fun task _ => ?_).trans (follows_modify fun task _ => ?_)
  · exact ⟨rfl, rfl, rfl, fun d hd => List.mem_of_mem_erase hd, fun _ h => h⟩
  · exact ⟨rfl, rfl, rfl, fun _ hd => hd, fun _ h => h⟩

-- ---------------------------------------------------------------------------
-- Reachable states
-- ---------------------------------------------------------------------------

/-- The task is told of every child that it waits for and that is ready. -/
def Told (tree : Tree) (p : Proc) (task : Task) : Prop :=
  ∀ arg options, task.restartCall = some (arg, options) →
    ∀ c ∈ task.childp, ∀ child, tree.tasks c = some child → accepts arg task.gid child = true →
      Ready options child.state → p.unpause = true

/-- A task that is to restart a call is inside the `pause` that is executed instead. -/
structure Awaited (tree : Tree) (p : Proc) (task : Task) : Prop where
  waits : p.inside = .pause ↔ task.restartCall ≠ none
  told : Told tree p task

/-- What is known of a task that has not ended. -/
def Followed (s : State) (t : TaskRef) (task : Task) : Prop :=
  findSlave s.toTree task.pid = some t ∧
    ∃ p, s.procs task.pid = some p ∧ p.task = t ∧ p.phase ≠ .zombie ∧ Awaited s.toTree p task

structure Sound (s : State) : Prop where
  apart : Apart s.toTree []
  pidNe : ∀ t task, Listed s.toTree t task → task.pid ≠ 1
  followed : ∀ t task, Listed s.toTree t task → s.ended t = false → Followed s t task

/-- What may change of a process: a task that waits goes on to wait. -/
def Goes (p p' : Proc) (task : Task) : Prop :=
  (p'.inside = p.inside ∧ (p.unpause = true → p'.unpause = true)) ∨
    (p'.inside ≠ .pause ∧ task.restartCall = none)

theorem Goes.refl (p : Proc) (task : Task) : Goes p p task := Or.inl ⟨rfl, fun h => h⟩

/-- A change that makes no child ready, and leaves the processes of the waiting tasks. -/
theorem Sound.next (h : Sound s) (hapart : Apart s'.toTree []) (hfollows : Follows s.toTree s'.toTree)
    (hended : ∀ t, s'.ended t = false → s.ended t = false)
    (hprocs : ∀ t task task', Listed s.toTree t task → Listed s'.toTree t task' →
      s'.ended t = false → ∀ p, s.procs task.pid = some p → p.task = t → p.phase ≠ .zombie →
      Awaited s.toTree p task → ∃ p', s'.procs task.pid = some p' ∧ p'.task = t ∧
        p'.phase ≠ .zombie ∧ Goes p p' task) :
    Sound s' := by
  refine ⟨hapart, fun t task' ht => ?_, fun t task' ht hend => ?_⟩
  · obtain ⟨task, ht, hfades⟩ := hfollows.listed ht
    exact hfades.pid ▸ h.pidNe t task ht
  · obtain ⟨task, hold, hfades⟩ := hfollows.listed ht
    obtain ⟨hfind, p, hp, hpt, hphase, hawaited⟩ := h.followed t task hold (hended t hend)
    obtain ⟨p', hp', hpt', hphase', hgoes⟩ :=
      hprocs t task task' hold ht hend p hp hpt hphase hawaited
    rw [Followed, hfades.pid]
    refine ⟨hfollows.found t ht.1 _ hfind, p', hp', hpt', hphase', ?_, fun arg options hcall => ?_⟩
    · rw [hfades.restartCall]
      rcases hgoes with ⟨hinside, -⟩ | ⟨hinside, hcall⟩
      · rw [hinside]
        exact hawaited.waits
      · exact ⟨fun h => absurd h hinside, fun h => absurd hcall h⟩
    · rw [hfades.restartCall] at hcall
      rcases hgoes with ⟨-, hunpause⟩ | ⟨-, hnone⟩
      · intro c hc child' hchild' haccepts hr
        obtain ⟨child, hchild, hfadesc⟩ := hfollows.tasks c child' hchild'
        rw [accepts, hfadesc.pid, hfadesc.gid, hfades.gid] at haccepts
        exact hunpause (hawaited.told arg options hcall c (hfades.childp c hc) child hchild haccepts
          (hfadesc.ready options hr))
      · rw [hnone] at hcall
        cases hcall

/-- A change of the tree that makes no child ready. -/
theorem Sound.ofTree (h : Sound s) (hapart : Apart s'.toTree []) (hfollows : Follows s.toTree s'.toTree)
    (hended : s'.ended = s.ended) (hprocs : s'.procs = s.procs) : Sound s' := by
  refine h.next hapart hfollows (fun t ht => hended ▸ ht) ?_
  intro t task task' _ _ _ p hp hpt hphase _
  exact ⟨p, hprocs ▸ hp, hpt, hphase, .refl p task⟩

/-- The records are not touched. -/
theorem Sound.ofProcs (h : Sound s) (htree : s'.toTree = s.toTree)
    (hended : ∀ t, s'.ended t = false → s.ended t = false)
    (hprocs : ∀ t task, Listed s.toTree t task → s'.ended t = false → ∀ p,
      s.procs task.pid = some p → p.task = t → p.phase ≠ .zombie → Awaited s.toTree p task →
      ∃ p', s'.procs task.pid = some p' ∧ p'.task = t ∧ p'.phase ≠ .zombie ∧ Goes p p' task) :
    Sound s' := by
  refine h.next (htree ▸ h.apart) (htree ▸ .refl _) hended ?_
  intro t task task' ht ht' hend p hp hpt hphase hawaited
  exact hprocs t task ht hend p hp hpt hphase hawaited

theorem Sound.withStatus (h : Sound s) (status : Status) : Sound { s with status } :=
  ⟨h.apart, h.pidNe, h.followed⟩

-- ---------------------------------------------------------------------------
-- The kernel
-- ---------------------------------------------------------------------------

/-- A process of which neither the call nor the signal changes. -/
theorem Sound.changeProc (h : Sound s) {f : Proc → Proc} (pid : Pid)
    (hf : ∀ p, (f p).task = p.task ∧ (p.phase ≠ .zombie → (f p).phase ≠ .zombie) ∧
      (f p).inside = p.inside ∧ (p.unpause = true → (f p).unpause = true)) :
    Sound (s.changeProc pid f) := by
  refine h.ofProcs rfl (fun _ h => h) ?_
  intro t task _ _ p hp hpt hphase _
  by_cases hpid : task.pid = pid
  · obtain ⟨htask, hphase', hinside, hunpause⟩ := hf p
    refine ⟨f p, ?_, htask.trans hpt, hphase' hphase, Or.inl ⟨hinside, hunpause⟩⟩
    rw [hpid, State.changeProc_self, ← hpid, hp]
    rfl
  · exact ⟨p, (s.changeProc_of_ne f hpid).trans hp, hpt, hphase, .refl p task⟩

/-- The kernel's part of every event but the return from a wait call. -/
theorem Sound.kernel (h : Sound s) (hk : Wait.kernel s e = some k)
    (hleave : ∀ pid ret status, e ≠ .leave pid ret status) : Sound k := by
  cases e with
  | dies pid =>
    obtain ⟨p₀, hp₀, halive, rfl⟩ := kernel_dies hk
    have h₁ : Sound (s.changeProc pid fun p => { p with phase := .dying }) :=
      h.changeProc pid fun p => ⟨rfl, fun _ => by simp, rfl, fun h => h⟩
    refine h₁.ofProcs rfl (fun _ h => h) ?_
    intro t task _ _ p hp hpt hphase _
    refine ⟨p.reparent pid, ?_, ?_⟩
    · show Option.map (Proc.reparent pid) _ = some _
      rw [hp]
      rfl
    · rw [Proc.reparent_spec]
      exact ⟨hpt, hphase, Or.inl ⟨rfl, fun h => h⟩⟩
  | reaped pid =>
    obtain ⟨p₀, hp₀, hzombie, rfl⟩ := kernel_reaped hk
    refine h.ofProcs rfl (fun _ h => h) ?_
    intro t task _ _ p hp hpt hphase _
    have hpid : task.pid ≠ pid := by
      rintro rfl
      obtain rfl := Option.some.inj (hp₀.symm.trans hp)
      exact hphase hzombie
    exact ⟨p, (Function.update_of_ne hpid ..).trans hp, hpt, hphase, .refl p task⟩
  | answers pid child =>
    obtain ⟨p₀, c₀, hp₀, hc₀, -, -, -, hzombie, -, rfl⟩ := kernel_answers hk
    have h₁ : Sound (s.changeProc pid fun p => { p with answer := some (child, c₀.task) }) :=
      h.changeProc pid fun p => ⟨rfl, fun h => h, rfl, fun h => h⟩
    refine h₁.ofProcs rfl (fun _ h => h) ?_
    intro t task _ _ p hp hpt hphase _
    have hpid : task.pid ≠ child := by
      rintro rfl
      by_cases hcp : task.pid = pid
      · subst hcp
        rw [State.changeProc_self, hc₀] at hp
        obtain rfl := Option.some.inj hp
        exact hphase hzombie
      · rw [State.changeProc_of_ne s _ hcp, hc₀] at hp
        obtain rfl := Option.some.inj hp
        exact hphase hzombie
    exact ⟨p, (Function.update_of_ne hpid ..).trans hp, hpt, hphase, .refl p task⟩
  | fork pid child =>
    obtain ⟨p₀, hp₀, -, -, hnew, -, rfl⟩ := kernel_fork hk
    refine h.ofProcs rfl (fun _ h => h) ?_
    intro t task _ _ p hp hpt hphase _
    have hpid : task.pid ≠ child := by
      rintro rfl
      rw [hnew] at hp
      cases hp
    exact ⟨p, (Function.update_of_ne hpid ..).trans hp, hpt, hphase, .refl p task⟩
  | waitEnter pid arg options =>
    obtain ⟨p₀, -, -, -, rfl⟩ := kernel_waitEnter hk
    exact h
  | leave pid ret status => exact absurd rfl (hleave pid ret status)
  | signal pid sig st =>
    obtain ⟨p₀, hp₀, -, huser, rfl⟩ := kernel_signal hk
    split
    · refine h.ofProcs rfl (fun _ h => h) ?_
      intro t task _ _ p hp hpt hphase hawaited
      by_cases hpid : task.pid = pid
      · subst hpid
        obtain rfl := Option.some.inj (hp₀.symm.trans hp)
        -- a signal is reported in user mode only, where no task waits
        have huser' : p₀.inside ≠ .pause := by simp [huser]
        refine ⟨{ p₀ with unpause := false }, ?_, hpt, hphase, Or.inr ⟨huser', ?_⟩⟩
        · rw [State.changeProc_self, hp]
          rfl
        · exact not_not.mp fun hne => huser' (hawaited.waits.mpr hne)
      · exact ⟨p, (s.changeProc_of_ne _ hpid).trans hp, hpt, hphase, .refl p task⟩
    · exact h
  | exit pid st =>
    obtain ⟨p₀, hp₀, -, rfl⟩ := kernel_exit hk
    have hold : ∀ t, Function.update s.ended p₀.task true t = false →
        t ≠ p₀.task ∧ s.ended t = false := by
      intro t ht
      by_cases htp : t = p₀.task
      · rw [htp, Function.update_self] at ht
        cases ht
      · rw [Function.update_of_ne htp] at ht
        exact ⟨htp, ht⟩
    refine h.ofProcs rfl (fun t ht => (hold t ht).2) ?_
    intro t task _ hend p hp hpt hphase _
    have hpid : task.pid ≠ pid := by
      rintro rfl
      obtain rfl := Option.some.inj (hp₀.symm.trans hp)
      exact (hold t hend).1 hpt.symm
    exact ⟨p, (s.changeProc_of_ne _ hpid).trans hp, hpt, hphase, .refl p task⟩

-- ---------------------------------------------------------------------------
-- The turns of OKFS
-- ---------------------------------------------------------------------------

theorem Sound.turn {handle : TaskRef → Task → Option State} (h : Sound s)
    (hhandle : ∀ t slave s', findSlave s.toTree pid = some t → Listed s.toTree t slave →
      slave.pid = pid → handle t slave = some s' → Sound s') : Sound (Wait.turn s pid handle) := by
  rcases turn_cases s pid handle with ⟨-, heq⟩ | ⟨t, slave, hfind, hslave, hpid, heq⟩
  · rw [heq]
    exact h.withStatus .quit
  · rw [heq]
    cases hres : handle t slave with
    | none => exact h.withStatus .crashed
    | some s' => exact hhandle t slave s' hfind ⟨findSlave_mem hfind, hslave⟩ hpid hres

theorem Sound.change (h : Sound s) (hf : Neutral f) (hfades : ∀ task, Fades task (f task))
    (t : TaskRef) : Sound (s.change t f) :=
  h.ofTree (h.apart.modify hf t) (follows_modify fun task _ => hfades task) rfl rfl

/-- A task becomes ready, and its parent is told. -/
theorem Sound.ready (h : Sound s) (ht : s.tasks t = some slave) (state : SlaveState) (st : Int)
    (htree : s'.toTree = (s.change t (setState state st)).toTree) (hended : s'.ended = s.ended)
    (hprocs : ∀ q p, s.procs q = some p → ∃ p', s'.procs q = some p' ∧ p'.task = p.task ∧
      p'.phase = p.phase ∧ p'.inside = p.inside ∧ (p.unpause = true → p'.unpause = true) ∧
      (q = slave.ppid → slave.ppid ≠ 1 → p'.unpause = true)) : Sound s' := by
  have hneutral := setState_neutral state st
  have hapart : Apart s'.toTree [] := htree ▸ h.apart.modify hneutral t
  have hlisted : ∀ u task', Listed s'.toTree u task' → ∃ task, Listed s.toTree u task ∧
      task'.pid = task.pid ∧ task'.gid = task.gid ∧ task'.restartCall = task.restartCall ∧
      task'.childp = task.childp := by
    intro u task' hu
    rw [htree] at hu
    obtain ⟨task, hold, rfl⟩ := listed_modify.mp hu
    refine ⟨task, hold, ?_⟩
    split <;> exact ⟨rfl, rfl, rfl, rfl⟩
  refine ⟨hapart, fun u task' hu => ?_, fun u task' hu hend => ?_⟩
  · obtain ⟨task, hold, hpid, -⟩ := hlisted u task' hu
    exact hpid ▸ h.pidNe u task hold
  · obtain ⟨task, hold, hpid, hgid, hcall, hchildp⟩ := hlisted u task' hu
    obtain ⟨hfind, p, hp, hpt, hphase, hawaited⟩ := h.followed u task hold (hended ▸ hend)
    obtain ⟨p', hp', htask', hphase', hinside', hunpause', htold⟩ := hprocs _ p hp
    rw [Followed, hpid]
    refine ⟨?_, p', hp', htask'.trans hpt, hphase'.symm ▸ hphase, ?_, fun arg options hcall' => ?_⟩
    · rw [htree]
      exact (hneutral.findSlave s.toTree t _).trans hfind
    · rw [hinside', hcall]
      exact hawaited.waits
    intro c hc child' hchild' haccepts hr
    rw [hchildp] at hc
    rw [hgid] at haccepts
    by_cases hct : c = t
    · -- the task is a child of this one, which is told
      subst hct
      have hppid : slave.ppid = task.pid := h.apart.ppid u task hold c hc slave ht
      exact htold hppid.symm (hppid ▸ h.pidNe u task hold)
    · rw [htree] at hchild'
      have hchild : s.tasks c = some child' := (s.toTree.modify_of_ne _ hct).symm.trans hchild'
      exact hunpause' (hawaited.told arg options (hcall ▸ hcall') c hc child' hchild haccepts hr)

theorem Sound.changeSlaveState {state : SlaveState} {st : Int} (h : Sound s)
    (ht : s.tasks t = some task) (hppid : task.ppid = slave.ppid)
    (hs' : changeSlaveState s t slave state st = some s') : Sound s' := by
  unfold Wait.changeSlaveState at hs'
  by_cases hone : slave.ppid = 1
  · have hready : Sound (s.change t (setState state st)) :=
      h.ready ht state st rfl rfl fun q p hp =>
        ⟨p, hp, rfl, rfl, rfl, fun h => h, fun _ hne => absurd (hppid.trans hone) hne⟩
    simp only [hone, ne_eq, not_true_eq_false, if_false] at hs'
    split at hs'
    · obtain ⟨tree, htree, hs'⟩ := Option.bind_eq_some_iff.mp hs'
      obtain rfl := Option.some.inj hs'
      obtain ⟨hapart, hshrinks⟩ := removeSlave_apart htree hready.apart
      exact hready.ofTree hapart (hshrinks.follows hready.apart.nodup) rfl rfl
    · exact Option.some.inj hs' ▸ hready
  · simp only [ne_eq, hone, not_false_eq_true, if_true] at hs'
    split at hs'
    · obtain rfl := Option.some.inj hs'
      refine h.ready ht state st rfl rfl fun q p hp => ?_
      by_cases hq : q = slave.ppid
      · refine ⟨{ p with unpause := true }, ?_, rfl, rfl, rfl, fun _ => rfl, fun _ _ => rfl⟩
        subst hq
        exact (State.changeProc_self _ _ _).trans (by rw [State.change_procs, hp]; rfl)
      · refine ⟨p, (State.changeProc_of_ne _ _ hq).trans hp, rfl, rfl, rfl, fun h => h, ?_⟩
        exact fun heq => absurd (heq.trans hppid) hq
    · rename_i hquiet
      obtain rfl := Option.some.inj hs'
      refine h.change (setState_neutral state st) (fun task => ?_) t
      have hnot : ∀ options, ¬ Ready options state := fun options hr =>
        hquiet (hr.imp id And.left)
      exact ⟨rfl, rfl, rfl, fun _ hc => hc, fun options hr => absurd hr (hnot options)⟩

theorem Sound.setPatched (h : Sound s) (t : TaskRef) (patched : Bool) :
    Sound (s.change t fun slave => { slave with patched }) :=
  h.change (patched_neutral patched)
    (fun _ => ⟨rfl, rfl, rfl, fun _ hc => hc, fun _ h => h⟩) t

theorem Sound.processSignal {sig st : Int} (h : Sound s) (ht : Listed s.toTree t slave)
    (hs' : processSignal s t slave sig st = some s') : Sound s' := by
  have hpatched : ∀ patched : Bool, ∃ task,
      (s.change t fun slave => { slave with patched }).tasks t = some task ∧ task.ppid = slave.ppid := by
    intro patched
    exact ⟨{ slave with patched }, (s.toTree.modify_self t _).trans (by rw [ht.2]; rfl), rfl⟩
  unfold Wait.processSignal at hs'
  split at hs'
  · exact Option.some.inj hs' ▸ h
  · exact Option.some.inj hs' ▸ h
  · unfold wakeupSlave at hs'
    split at hs'
    · obtain ⟨task, htask, hppid⟩ := hpatched false
      exact (h.setPatched t false).changeSlaveState htask hppid hs'
    · exact Option.some.inj hs' ▸ h.withStatus .quit
  · unfold stopSlave at hs'
    split at hs'
    · exact Option.some.inj hs' ▸ h.withStatus .quit
    · obtain ⟨s₁, hs₁, hs'⟩ := Option.bind_eq_some_iff.mp hs'
      obtain ⟨task, htask, hppid⟩ := hpatched true
      have h₁ := (h.setPatched t true).changeSlaveState htask hppid hs₁
      split at hs'
      · exact Option.some.inj hs' ▸ h₁.withStatus .quit
      · exact Option.some.inj hs' ▸ h₁

theorem Sound.fork {child : Pid} {q : Proc} (h : Sound s) (ht : Listed s.toTree t slave)
    (hchild : s.procs child = some q) (hq : q.task = s.nextTask) (hphase : q.phase ≠ .zombie)
    (huser : q.inside = .user) (hne : child ≠ 1) :
    Sound { s with toTree := forkTree s.toTree t slave child } := by
  have hlisted : ∀ u task, Listed (forkTree s.toTree t slave child) u task ↔
      (u = s.nextTask ∧ task = newSlave child slave) ∨
        ∃ task₀, Listed s.toTree u task₀ ∧
          task = if u = t then withChild s.nextTask task₀ else task₀ :=
    fun _ _ => forkTree_listed h.apart.fresh ht.1 slave child
  have hnew := fun p => forkTree_findSlave h.apart.fresh ht.1 slave child p
  refine ⟨h.apart.fork ht child, fun u task hu => ?_, fun u task hu hend => ?_⟩
  · rcases (hlisted u task).mp hu with ⟨-, rfl⟩ | ⟨task₀, hold, rfl⟩
    · exact hne
    · have hpid := h.pidNe u task₀ hold
      split <;> exact hpid
  · rcases (hlisted u task).mp hu with ⟨rfl, rfl⟩ | ⟨task₀, hold, htask⟩
    · refine ⟨(hnew child).trans (if_pos rfl), q, hchild, hq, hphase, ?_, fun arg options hcall => ?_⟩
      · exact ⟨fun hpause => absurd (hpause.symm.trans huser) (by simp), fun hne => absurd rfl hne⟩
      · cases hcall
    · obtain ⟨hfind, p, hp, hpt, hphase', hawaited⟩ := h.followed u task₀ hold hend
      have hsame : task.pid = task₀.pid ∧ task.gid = task₀.gid ∧
          task.restartCall = task₀.restartCall ∧
          ∀ c ∈ task.childp, c = s.nextTask ∨ c ∈ task₀.childp := by
        rw [htask]
        split
        · exact ⟨rfl, rfl, rfl, fun c hc => List.mem_cons.mp hc⟩
        · exact ⟨rfl, rfl, rfl, fun c hc => Or.inr hc⟩
      obtain ⟨hpid, hgid, hcall₀, hchildp⟩ := hsame
      have hpidne : task₀.pid ≠ child := by
        intro heq
        -- the process of the pid is the new one
        rw [heq, hchild] at hp
        obtain rfl := Option.some.inj hp
        have hlt := h.apart.fresh u hold.1
        rw [← hpt, hq] at hlt
        exact Nat.lt_irrefl _ hlt
      rw [Followed, hpid]
      refine ⟨(hnew task₀.pid).trans ((if_neg hpidne).trans hfind), p, hp, hpt, hphase', ?_,
        fun arg options hcall => ?_⟩
      · rw [hcall₀]
        exact hawaited.waits
      intro c hc c' hc' haccepts hr
      have hready := hawaited.told arg options (hcall₀ ▸ hcall)
      have htn : t ≠ s.nextTask := Nat.ne_of_lt (h.apart.fresh t ht.1)
      by_cases hcn : c = s.nextTask
      · -- the new child runs
        subst hcn
        rw [show (forkTree s.toTree t slave child).tasks s.nextTask = _ from
          forkTree_tasks_new slave child htn] at hc'
        obtain rfl := Option.some.inj hc'
        rcases hr with hz | ⟨hs, -⟩
        · cases hz
        · cases hs
      · rw [show (forkTree s.toTree t slave child).tasks c = _ from
          forkTree_tasks_old slave child hcn] at hc'
        rw [hgid] at haccepts
        have hcmem := (hchildp c hc).resolve_left hcn
        by_cases hct : c = t
        · rw [if_pos hct, Option.map_eq_some_iff] at hc'
          obtain ⟨c₀, hc₀, rfl⟩ := hc'
          exact hready c hcmem c₀ hc₀ haccepts hr
        · rw [if_neg hct] at hc'
          exact hready c hcmem c' hc' haccepts hr

/-- A task enters a wait call. -/
theorem Sound.enter {inside : Inside} (h : Sound s) (hfind : findSlave s.toTree pid = some t)
    (ht : Listed s.toTree t slave) (hpid : slave.pid = pid) (hp : s.procs pid = some p)
    (huser : p.inside = .user) (hs' : Entered s t slave arg options s' inside) :
    Sound (s'.changeProc pid fun p => { p with inside }) := by
  -- the processes of the other tasks stay, and this one does not wait
  have hother : ∀ {k : State}, k.procs = s.procs → ∀ u task, Listed s.toTree u task →
      s.ended u = false → u ≠ t → ∀ q, s.procs task.pid = some q →
      (k.changeProc pid fun p => { p with inside }).procs task.pid = some q := by
    intro k hk u task hu hend hut q hq
    have hpne : task.pid ≠ pid := by
      intro heq
      have hfound := (h.followed u task hu hend).1
      rw [heq, hfind] at hfound
      exact hut (Option.some.inj hfound).symm
    rw [State.changeProc_of_ne _ _ hpne, hk]
    exact hq
  have hself : ∀ {k : State}, k.procs = s.procs →
      (k.changeProc pid fun p => { p with inside }).procs pid = some { p with inside } := by
    intro k hk
    rw [State.changeProc_self, hk, hp]
    rfl
  have hnotWaiting : ∀ u task, Listed s.toTree u task → u = t → Awaited s.toTree p task →
      task.restartCall = none := by
    rintro u task hu rfl hawaited
    by_contra hne
    have hinside := hawaited.waits.mpr hne
    rw [huser] at hinside
    cases hinside
  have hkeep : ∀ {k : State}, Apart k.toTree [] → Follows s.toTree k.toTree → k.ended = s.ended →
      k.procs = s.procs → inside ≠ .pause →
      Sound (k.changeProc pid fun p => { p with inside }) := by
    intro k hapart hfollows hended hprocs hinside
    refine h.next hapart hfollows (fun u hu => hended ▸ hu) ?_
    intro u task task' hu hu' hend q hq hqu hphase hawaited
    by_cases hut : u = t
    · subst hut
      have htask : task = slave := Option.some.inj (hu.2.symm.trans ht.2)
      subst htask
      subst hpid
      obtain rfl := Option.some.inj (hp.symm.trans hq)
      exact ⟨_, hself hprocs, hqu, hphase, Or.inr ⟨hinside, hnotWaiting u task hu rfl hawaited⟩⟩
    · exact ⟨q, hother hprocs u task hu (hended ▸ hend) hut q hq, hqu, hphase, .refl q task⟩
  -- a change of what the task does after the call
  have hchange : ∀ f : Task → Task, Neutral f → (∀ task, Fades task (f task)) → inside ≠ .pause →
      Sound ((s.change t f).changeProc pid fun p => { p with inside }) := by
    intro f hf hfades hinside
    exact hkeep (h.apart.modify hf t) (follows_modify fun task _ => hfades task) rfl rfl hinside
  cases hs' with
  | passed =>
    exact hkeep h.apart (.refl _) rfl rfl (by simp)
  | stopped c hc =>
    exact hchange (fun slave => { slave with nextCall := .isstopped, stoppedChild := some c })
      ⟨fun _ => rfl, fun _ => rfl, fun _ => rfl⟩
      (fun _ => ⟨rfl, rfl, rfl, fun _ hc => hc, fun _ h => h⟩) (by simp)
  | other next hnext =>
    exact hchange (fun slave => { slave with nextCall := next })
      ⟨fun _ => rfl, fun _ => rfl, fun _ => rfl⟩
      (fun _ => ⟨rfl, rfl, rfl, fun _ hc => hc, fun _ h => h⟩) (by simp)
  | suspended hunready =>
    have hneutral : Neutral fun slave => { slave with restartCall := some (arg, options) } :=
      ⟨fun _ => rfl, fun _ => rfl, fun _ => rfl⟩
    refine ⟨h.apart.modify hneutral t, fun u task' hu => ?_, fun u task' hu hend => ?_⟩
    · obtain ⟨task, hold, hpid', -⟩ := hneutral.listed hu
      exact hpid' ▸ h.pidNe u task hold
    · obtain ⟨task, hold, rfl⟩ := listed_modify.mp hu
      obtain ⟨hfound, q, hq, hqu, hphase, hawaited⟩ := h.followed u task hold hend
      -- the other records are as they were
      have hchild : ∀ c child', (s.change t fun slave =>
          { slave with restartCall := some (arg, options) }).tasks c = some child' →
          ∃ child, s.tasks c = some child ∧ child'.pid = child.pid ∧ child'.gid = child.gid ∧
            child'.state = child.state := by
        intro c child' hc
        by_cases hct : c = t
        · subst hct
          obtain ⟨child, hchild, rfl⟩ := Option.map_eq_some_iff.mp
            ((s.toTree.modify_self c _).symm.trans hc)
          exact ⟨child, hchild, rfl, rfl, rfl⟩
        · exact ⟨child', (s.toTree.modify_of_ne _ hct).symm.trans hc, rfl, rfl, rfl⟩
      by_cases hut : u = t
      · subst hut
        obtain rfl := Option.some.inj (ht.2.symm.trans hold.2)
        obtain rfl := Option.some.inj (hp.symm.trans (hpid ▸ hq))
        rw [if_pos rfl]
        subst hpid
        refine ⟨(hneutral.findSlave s.toTree u _).trans hfound, { p with inside := .pause },
          hself (k := s.change u _) rfl, hqu, hphase, ?_, ?_⟩
        · simp
        · intro arg' options' hcall c hc child' hc' haccepts hr
          obtain ⟨rfl, rfl⟩ := Prod.mk.inj (Option.some.inj hcall)
          obtain ⟨child, hchild₀, hpid', hgid', hstate'⟩ := hchild c child' hc'
          obtain ⟨child₁, hchild₁, hno⟩ := hunready c hc
          obtain rfl := Option.some.inj (hchild₀.symm.trans hchild₁)
          rw [accepts, hpid', hgid'] at haccepts
          exact absurd (hstate' ▸ hr) (hno haccepts)
      · rw [if_neg hut]
        refine ⟨(hneutral.findSlave s.toTree t _).trans hfound, q, ?_, hqu, hphase, hawaited.waits, ?_⟩
        · exact hother rfl u task hold hend hut q hq
        · intro arg' options' hcall c hc child' hc' haccepts hr
          obtain ⟨child, hchild₀, hpid', hgid', hstate'⟩ := hchild c child' hc'
          rw [accepts, hpid', hgid'] at haccepts
          exact hawaited.told arg' options' hcall c hc child hchild₀ haccepts (hstate' ▸ hr)

/-- The kernel's part of the return from a call, where the task does not wait. -/
theorem Sound.leave (h : Sound s) (hk : Wait.kernel s (.leave pid ret status) = some k)
    (hcall : ∀ t task, findSlave s.toTree pid = some t → Listed s.toTree t task →
      task.restartCall = none) : Sound k := by
  obtain ⟨p₀, hp₀, -, -, rfl⟩ := kernel_leave hk
  refine h.ofProcs rfl (fun _ h => h) ?_
  intro t task ht hend p hp hpt hphase _
  by_cases hpid : task.pid = pid
  · subst hpid
    refine ⟨{ p with inside := .user, answer := none }, ?_, hpt, hphase, Or.inr ⟨by simp, ?_⟩⟩
    · exact (State.changeProc_self _ _ _).trans (by rw [hp]; rfl)
    · exact hcall t task (h.followed t task ht hend).1 ht
  · exact ⟨p, (s.changeProc_of_ne _ hpid).trans hp, hpt, hphase, .refl p task⟩

/-- A call that is restarted. -/
theorem Sound.restart (h : Sound s) (hk : Wait.kernel s (.leave pid ret status) = some k)
    (hfind : findSlave s.toTree pid = some t) :
    Sound (k.change t fun slave => { slave with restartCall := none, nextCall := .nothing }) := by
  obtain ⟨p₀, hp₀, -, -, rfl⟩ := kernel_leave hk
  have hneutral : Neutral fun slave => { slave with restartCall := none, nextCall := .nothing } :=
    ⟨fun _ => rfl, fun _ => rfl, fun _ => rfl⟩
  refine ⟨h.apart.modify hneutral t, fun u task' hu => ?_, fun u task' hu hend => ?_⟩
  · obtain ⟨task, hold, hpid, -⟩ := hneutral.listed hu
    exact hpid ▸ h.pidNe u task hold
  · obtain ⟨task, hold, rfl⟩ := listed_modify.mp hu
    obtain ⟨hfound, q, hq, hqu, hphase, hawaited⟩ := h.followed u task hold hend
    by_cases hut : u = t
    · subst hut
      obtain ⟨task', htask', hpid⟩ := findSlave_task hfind
      obtain rfl := Option.some.inj (hold.2.symm.trans htask')
      subst hpid
      rw [if_pos rfl]
      refine ⟨(hneutral.findSlave s.toTree u _).trans hfound,
        { q with inside := .user, answer := none }, ?_, hqu, hphase, ?_, ?_⟩
      · exact (State.changeProc_self _ _ _).trans (by rw [hq]; rfl)
      · simp
      · intro arg options hcall
        cases hcall
    · have hpne : task.pid ≠ pid := by
        rintro rfl
        exact hut (Option.some.inj (hfound.symm.trans hfind))
      rw [if_neg hut]
      refine ⟨(hneutral.findSlave s.toTree t _).trans hfound, q,
        (s.changeProc_of_ne _ hpne).trans hq, hqu, hphase, hawaited.waits, ?_⟩
      intro arg options hcall c hc child' hc' haccepts hr
      by_cases hct : c = t
      · subst hct
        obtain ⟨child, hchild, rfl⟩ := Option.map_eq_some_iff.mp
          ((s.toTree.modify_self c _).symm.trans hc')
        exact hawaited.told arg options hcall c hc child hchild haccepts hr
      · have hchild : s.tasks c = some child' := (s.toTree.modify_of_ne _ hct).symm.trans hc'
        exact hawaited.told arg options hcall c hc child' hchild haccepts hr

theorem Sound.iszombie (h : Sound s) (ht : t ∈ s.firstTask)
    (hs' : afterWaitIszombie s t ret = some s') : Sound s' := by
  obtain ⟨tree, htree, hs'⟩ := Option.bind_eq_some_iff.mp hs'
  obtain ⟨tree', htree', hs'⟩ := Option.bind_eq_some_iff.mp hs'
  obtain rfl := Option.some.inj hs'
  have hapart := removeChild_apart h.apart ht htree
  obtain ⟨hapart', hshrinks⟩ := removeSlave_apart htree' hapart
  exact h.ofTree hapart' ((follows_removeChild htree).trans (hshrinks.follows hapart.nodup)) rfl rfl

theorem Sound.isstopped (h : Sound s) (ht : t ∈ s.firstTask)
    (hs' : afterWaitIsstopped s t slave ret status = some s') : Sound s' := by
  cases status with
  | none => exact Option.some.inj hs' ▸ h.withStatus .quit
  | some st =>
    unfold afterWaitIsstopped at hs'
    simp only at hs'
    split at hs'
    · split at hs'
      · exact h.iszombie ht hs'
      · exact Option.some.inj hs' ▸ h
    · obtain ⟨c, -, hs'⟩ := Option.bind_eq_some_iff.mp hs'
      obtain ⟨-, -, hs'⟩ := Option.bind_eq_some_iff.mp hs'
      obtain rfl := Option.some.inj hs'
      have hneutral : Neutral fun child => { child with state := .stoppedAndNotified } :=
        ⟨fun _ => rfl, fun _ => rfl, fun _ => rfl⟩
      refine h.change hneutral (fun task => ?_) c
      refine ⟨rfl, rfl, rfl, fun _ hc => hc, fun options hr => ?_⟩
      rcases hr with hz | ⟨hs, -⟩
      · cases hz
      · cases hs

theorem Sound.callNext (h : Sound s) (ht : t ∈ s.firstTask)
    (hs' : callNext s t slave ret status = some s') : Sound s' := by
  unfold Wait.callNext at hs'
  split at hs'
  · exact Option.some.inj hs' ▸ h
  · unfold afterWaitWnohang at hs'
    split at hs'
    · obtain ⟨tree, htree, hs'⟩ := Option.bind_eq_some_iff.mp hs'
      obtain rfl := Option.some.inj hs'
      exact h.ofTree (removeChild_apart h.apart ht htree) (follows_removeChild htree) rfl rfl
    · exact Option.some.inj hs' ▸ h
  · exact h.iszombie ht hs'
  · exact h.isstopped ht hs'

/-- A task returns from a call. -/
theorem Sound.leaveCall (h : Sound s) (hk : Wait.kernel s (.leave pid ret status) = some k) :
    Sound (Wait.turn k pid fun t slave => leaveCall k t slave ret status) := by
  have htree : k.toTree = s.toTree := by
    obtain ⟨p₀, -, -, -, rfl⟩ := kernel_leave hk
    rfl
  rcases turn_cases k pid fun t slave => Wait.leaveCall k t slave ret status with
    ⟨hfind, heq⟩ | ⟨t, slave, hfind, hslave, hpid, heq⟩
  · rw [heq]
    refine Sound.withStatus (h.leave hk fun t task ht => ?_) .quit
    rw [htree, ht] at hfind
    cases hfind
  · rw [heq]
    rw [htree] at hfind hslave
    by_cases hcall : slave.restartCall.isSome
    · have hres : Wait.leaveCall k t slave ret status =
          some (k.change t fun slave => { slave with restartCall := none, nextCall := .nothing }) :=
        if_pos hcall
      rw [hres]
      exact h.restart hk hfind
    · have hsound : Sound k := by
        refine h.leave hk fun u task hu hlisted => ?_
        obtain rfl := Option.some.inj (hfind.symm.trans hu)
        obtain rfl := Option.some.inj (hslave.symm.trans hlisted.2)
        simpa using hcall
      have hmem : t ∈ k.firstTask := htree ▸ findSlave_mem hfind
      cases hres : Wait.leaveCall k t slave ret status with
      | none => exact hsound.withStatus .crashed
      | some s' =>
        obtain ⟨s₁, hnext, hlast⟩ := leaveCall_next (by simpa using hcall) hres
        have h₁ := hsound.callNext hmem hnext
        rcases hlast with ⟨-, rfl⟩ | ⟨-, -, rfl⟩
        · exact h₁
        · exact h₁.change (nextCall_neutral .nothing) (fun _ => ⟨rfl, rfl, rfl, fun _ hc => hc, fun _ h => h⟩) t

-- ---------------------------------------------------------------------------
-- Steps and runs
-- ---------------------------------------------------------------------------

theorem Sound.step (h : Sound s) (hs' : Wait.step s e = some s') : Sound s' := by
  obtain ⟨-, k, hk, rfl⟩ := step_spec hs'
  cases e with
  | dies pid => exact h.kernel hk (by simp)
  | reaped pid => exact h.kernel hk (by simp)
  | answers pid child => exact h.kernel hk (by simp)
  | fork pid child =>
    have hsound := h.kernel hk (by simp)
    obtain ⟨p, -, -, -, -, hlt, rfl⟩ := kernel_fork hk
    refine hsound.turn fun t slave s' _ ht _ hs' => ?_
    obtain rfl := Option.some.inj hs'
    exact hsound.fork ht (Function.update_self ..) rfl (by simp) rfl (Int.ne_of_gt hlt)
  | waitEnter pid arg options =>
    obtain ⟨p, hp, -, huser, rfl⟩ := kernel_waitEnter hk
    refine h.turn fun t slave s' hfind ht hpid hs' => ?_
    obtain ⟨r, hr, rfl⟩ := Option.map_eq_some_iff.mp hs'
    exact h.enter hfind ht hpid hp huser (beforeWait_entered hr)
  | leave pid ret status => exact h.leaveCall hk
  | signal pid sig st =>
    have hsound := h.kernel hk (by simp)
    exact hsound.turn fun t slave s' _ ht _ hs' => hsound.processSignal ht hs'
  | exit pid st =>
    have hsound := h.kernel hk (by simp)
    exact hsound.turn fun t slave s' _ ht _ hs' => hsound.changeSlaveState ht.2 rfl hs'

theorem start_sound {first : Pid} (hfirst : 1 < first) (gid : Int) : Sound (start first gid) := by
  refine ⟨start_apart first gid, fun t task ht => ?_, fun t task ht _ => ?_⟩
  · obtain ⟨rfl, rfl⟩ := start_listed ht
    exact Int.ne_of_gt hfirst
  · obtain ⟨rfl, rfl⟩ := start_listed ht
    refine ⟨start_findSlave first gid, _, start_procs first gid, rfl, by simp, ?_, ?_⟩
    · simp [firstSlave]
    · intro arg options hcall
      cases hcall

/-- **No wake-up is lost.** In every state that a run reaches, a task that has not ended and
is inside the `pause` has a call to restart, and if a child that the call accepts is a
zombie, or is stopped and the call asks for that, `SIGUNPAUSE` is pending. -/
theorem no_wakeup_lost {first : Pid} (hfirst : 1 < first) {gid : Int} {es : List Event}
    (hrun : Runs.exec Wait.step (start first gid) es = some s) (ht : Listed s.toTree t task)
    (hend : s.ended t = false) :
    ∃ p, s.procs task.pid = some p ∧ p.task = t ∧
      (p.inside = .pause → ∃ arg options, task.restartCall = some (arg, options) ∧
        ∀ c ∈ task.childp, ∀ child, s.tasks c = some child →
          accepts arg task.gid child = true → Ready options child.state → p.unpause = true) := by
  have hsound : Sound s :=
    Runs.inv_of_steps (fun _ _ _ h hs' => h.step hs') (start_sound hfirst gid) hrun
  obtain ⟨-, p, hp, hpt, -, hawaited⟩ := hsound.followed t task ht hend
  refine ⟨p, hp, hpt, fun hpause => ?_⟩
  obtain ⟨⟨arg, options⟩, hcall⟩ := Option.ne_none_iff_exists'.mp (hawaited.waits.mp hpause)
  exact ⟨arg, options, hcall, hawaited.told arg options hcall⟩

/-- The child exits while its parent, the first task, waits for any child. -/
def waitForExit : List Event := [.fork 100 101, .waitEnter 100 (-1) 0, .dies 101, .exit 101 0]

theorem no_wakeup_lost_exit :
    ∃ s task p, Runs.exec Wait.step (start 100 1) waitForExit = some s ∧
      Listed s.toTree 0 task ∧ s.procs 100 = some p ∧ p.inside = .pause ∧ p.unpause = true := by
  have hfirst : (1 : Pid) < 100 := by decide
  have hrun : Runs.exec Wait.step (start 100 1) waitForExit = some _ := rfl
  refine ⟨_, _, _, hrun, ⟨List.mem_cons_of_mem _ List.mem_cons_self, rfl⟩, rfl, rfl, ?_⟩
  obtain ⟨p, hp, -, htold⟩ := no_wakeup_lost (t := 0) hfirst hrun
    ⟨List.mem_cons_of_mem _ List.mem_cons_self, rfl⟩ rfl
  obtain rfl := Option.some.inj hp
  obtain ⟨arg, options, hcall, hready⟩ := htold rfl
  obtain ⟨rfl, rfl⟩ := Prod.mk.inj (Option.some.inj hcall)
  exact hready 1 List.mem_cons_self _ rfl rfl (Or.inl rfl)

end Wait

end Okfs
