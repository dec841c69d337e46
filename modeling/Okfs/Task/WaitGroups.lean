import Okfs.Task.WaitLookups

/-!
# OKFS — process groups and wait

`before_wait` follows the kernel's `wait4`, which takes a pid below 1 for a process group. OKFS
does not know the groups of its tasks: it compares `gid`, the user group id of which
`add_slave` makes a note for the first task and gives a copy to every other.

`Jobs` adds to the state of the wait modules the groups and sessions that the kernel
keeps. A child is treated as the kernel would treat it in these cases, and no other
(`candidates_right_iff`): the pid is -1 or above 0; it is 0, and the children are in the group of
their parent; it is below -1, and the children are in its group or not, according to
whether it is the first task's `gid`.
-/

namespace Okfs

namespace Wait

open ByteMemory Signal

-- ---------------------------------------------------------------------------
-- Groups and sessions
-- ---------------------------------------------------------------------------

structure Jobs where
  state : State
  pgrp : Pid → Int
  session : Pid → Int

/-- The arguments of `setpgid` are those that the kernel has put for zeros. OKFS lets both calls
pass. -/
inductive JobEvent
  | traced (e : Event)
  | setpgid (pid target pgid : Pid)
  | setsid (pid : Pid)

/-- A child is in the group and the session of its parent. -/
def Jobs.inherit (j : Jobs) : Event → Jobs
  | .fork pid child =>
    { j with
      pgrp := Function.update j.pgrp child (j.pgrp pid)
      session := Function.update j.session child (j.session pid) }
  | _ => j

/-- The process can make a call. -/
def State.calls (s : State) (pid : Pid) : Bool :=
  match s.procs pid with
  | some p => s.status = .running ∧ p.phase = .alive ∧ p.inside = .user
  | none => false

/-- The process that `setpgid` is about: the caller, or a child in its session; and it leads
no session. -/
def Jobs.canMove (j : Jobs) (pid target : Pid) : Bool :=
  match j.state.procs target with
  | some q =>
    (target = pid ∨ (q.parent = pid ∧ j.session target = j.session pid)) ∧ j.session target ≠ target
  | none => false

/-- The calls that the kernel does not refuse. It also looks whether there is such a group. -/
def Jobs.step (j : Jobs) : JobEvent → Option Jobs
  | .traced e => (Wait.step j.state e).map fun state => { j.inherit e with state }
  | .setpgid pid target pgid =>
    if j.state.calls pid ∧ j.canMove pid target ∧ 0 < pgid then
      some { j with pgrp := Function.update j.pgrp target pgid }
    else none
  | .setsid pid =>
    if j.state.calls pid ∧ j.pgrp pid ≠ pid then
      some { j with
        pgrp := Function.update j.pgrp pid pid
        session := Function.update j.session pid pid }
    else none

def Jobs.start (first : Pid) (gid : Int) (pgrp session : Pid → Int) : Jobs :=
  ⟨Wait.start first gid, pgrp, session⟩

-- ---------------------------------------------------------------------------
-- The children that before_wait looks at
-- ---------------------------------------------------------------------------

/-- The loop of `before_wait` with a note of every child that it comes to, and whether the child
passes the filter, so that the loop sets `flag` or looks at its state. -/
def waitLoopLog (s : Tree) (pid : Pid) (gid : Int) (options : Options) :
    List TaskRef → Bool → List (Task × Bool) × Option Found
  | [], flag => ([], some (.unready flag))
  | cp :: cps, flag =>
    match s.tasks cp with
    | none => ([], none)
    | some p =>
      if accepts pid gid p = false then
        let (log, found) := waitLoopLog s pid gid options cps flag
        ((p, false) :: log, found)
      else if p.state = .stopped ∧ options &&& WUNTRACED ≠ 0 then ([(p, true)], some (.stopped cp))
      else if p.state = .zombie then ([(p, true)], some .zombie)
      else
        let (log, found) := waitLoopLog s pid gid options cps true
        ((p, true) :: log, found)

/-- The options that are not refused. -/
def KnownOptions (options : Options) : Prop :=
  options &&& ~~~(WNOHANG ||| WUNTRACED ||| WNOTHREAD ||| WCLONE ||| WALL) = 0

instance (options : Options) : Decidable (KnownOptions options) := inferInstanceAs (Decidable (_ = _))

/-- The children that `before_wait` comes to. -/
def comesTo (s : Tree) (slave : Task) (pid : Pid) (options : Options) : List (Task × Bool) :=
  if KnownOptions options then (waitLoopLog s pid slave.gid options slave.childp false).1 else []

/-- The children that the kernel's `wait4` is about. -/
def selects (pgrp : Pid → Int) (pid : Pid) (slave p : Task) : Bool :=
  if pid > 0 then p.pid == pid
  else if pid = 0 then pgrp p.pid == pgrp slave.pid
  else if pid ≠ -1 then pgrp p.pid == -pid
  else true

/-- Every child that `before_wait` comes to is a candidate if it is one for the kernel. -/
def CandidatesRight (j : Jobs) (slave : Task) (pid : Pid) (options : Options) : Prop :=
  ∀ r ∈ comesTo j.state.toTree slave pid options, r.2 = selects j.pgrp pid slave r.1

/-- The children on record. -/
def childTasks (s : Tree) : List TaskRef → List Task
  | [] => []
  | c :: cs =>
    match s.tasks c with
    | none => []
    | some p => p :: childTasks s cs

instance (options : Options) (state : SlaveState) : Decidable (Ready options state) :=
  inferInstanceAs (Decidable (_ ∨ _))

/-- The elements up to the first that is ready, and it. -/
def upToReady (options : Options) : List Task → List Task
  | [] => []
  | p :: ps => if Ready options p.state then [p] else p :: upToReady options ps

/-- The groups of the children are such that `gid` tells them apart. -/
def GroupsFit (j : Jobs) (gid : Int) (slave : Task) (pid : Pid) (options : Options) : Prop :=
  let children := childTasks j.state.toTree slave.childp
  KnownOptions options →
    (pid = 0 → ∀ p ∈ upToReady options children, j.pgrp p.pid = j.pgrp slave.pid) ∧
      (pid < -1 →
        (gid = -pid → ∀ p ∈ upToReady options children, j.pgrp p.pid = -pid) ∧
          (gid ≠ -pid → ∀ p ∈ children, j.pgrp p.pid ≠ -pid))

variable {s s' k : State} {tree tree' : Tree} {t c : TaskRef} {slave task : Task} {pid : Pid}
  {options : Options} {ret : Int} {status : Option Int} {e : Event} {gid : Int} {j j' : Jobs}
  {f : Task → Task}

/-- A child whose record is freed ends the loop, and the note with it. -/
theorem waitLoopLog_freed (hp : tree.tasks c = none) (options : Options) (cps : List TaskRef)
    (flag : Bool) : waitLoopLog tree pid gid options (c :: cps) flag = ([], none) := by
  rw [waitLoopLog, hp]

/-- The loop at a child that is there. -/
theorem waitLoopLog_task {p : Task} (hp : tree.tasks c = some p) (options : Options)
    (cps : List TaskRef) (flag : Bool) : waitLoopLog tree pid gid options (c :: cps) flag =
      if accepts pid gid p = false then
        ((p, false) :: (waitLoopLog tree pid gid options cps flag).1,
          (waitLoopLog tree pid gid options cps flag).2)
      else if p.state = .stopped ∧ options &&& WUNTRACED ≠ 0 then ([(p, true)], some (.stopped c))
      else if p.state = .zombie then ([(p, true)], some .zombie)
      else
        ((p, true) :: (waitLoopLog tree pid gid options cps true).1,
          (waitLoopLog tree pid gid options cps true).2) := by
  rw [waitLoopLog, hp]

/-- The note is of the loop that the calls go through. -/
theorem waitLoopLog_found (s : Tree) (pid : Pid) (gid : Int) (options : Options)
    (cps : List TaskRef) (flag : Bool) :
    (waitLoopLog s pid gid options cps flag).2 = waitLoop s pid gid options cps flag := by
  induction cps generalizing flag with
  | nil => rfl
  | cons cp cps ih =>
    cases hp : s.tasks cp with
    | none => rw [waitLoopLog_freed hp, waitLoop, hp]; rfl
    | some p =>
      rw [waitLoopLog_task hp, waitLoop, hp]
      simp only [Option.bind_eq_bind, Option.bind_some]
      split
      · exact ih flag
      · split
        · rfl
        · split
          · rfl
          · exact ih true

/-- `flag` is set by the children that are candidates. -/
theorem waitLoopLog_flag {cps : List TaskRef} {flag flag' : Bool}
    (h : (waitLoopLog tree pid gid options cps flag).2 = some (.unready flag')) :
    flag' = (flag || (waitLoopLog tree pid gid options cps flag).1.any Prod.snd) := by
  induction cps generalizing flag with
  | nil =>
    obtain rfl : flag = flag' := Found.unready.inj (Option.some.inj h)
    exact (Bool.or_false flag).symm
  | cons cp cps ih =>
    cases hp : tree.tasks cp with
    | none =>
      rw [waitLoopLog_freed hp] at h
      cases h
    | some p =>
      rw [waitLoopLog_task hp] at h ⊢
      split at h
      · rw [if_pos ‹_›]
        simpa using ih h
      · rw [if_neg ‹_›]
        split at h
        · cases h
        · rw [if_neg ‹_›]
          split at h
          · cases h
          · rw [if_neg ‹_›]
            simpa using ih h

-- ---------------------------------------------------------------------------
-- What the loop comes to
-- ---------------------------------------------------------------------------

theorem childTasks_cons {p : Task} (hp : tree.tasks c = some p) (cs : List TaskRef) :
    childTasks tree (c :: cs) = p :: childTasks tree cs := by
  rw [childTasks, hp]

theorem childTasks_freed (hp : tree.tasks c = none) (cs : List TaskRef) :
    childTasks tree (c :: cs) = [] := by
  rw [childTasks, hp]

/-- No child passes the filter: the loop comes to all of them. -/
theorem waitLoopLog_none (options : Options) (cps : List TaskRef) (flag : Bool)
    (h : ∀ p ∈ childTasks tree cps, accepts pid gid p = false) :
    (waitLoopLog tree pid gid options cps flag).1 = (childTasks tree cps).map fun p => (p, false) := by
  induction cps generalizing flag with
  | nil => rfl
  | cons cp cps ih =>
    cases hp : tree.tasks cp with
    | none => rw [waitLoopLog_freed hp, childTasks_freed hp, List.map_nil]
    | some p =>
      rw [childTasks_cons hp] at h ⊢
      have hrest := ih flag fun q hq => h q (List.mem_cons_of_mem p hq)
      rw [waitLoopLog_task hp, if_pos (h p List.mem_cons_self), List.map_cons, hrest]

/-- All of them pass the filter: it stops at the first that is ready. -/
theorem waitLoopLog_all (options : Options) (cps : List TaskRef) (flag : Bool)
    (h : ∀ p ∈ childTasks tree cps, accepts pid gid p = true) :
    (waitLoopLog tree pid gid options cps flag).1 =
      (upToReady options (childTasks tree cps)).map fun p => (p, true) := by
  induction cps generalizing flag with
  | nil => rfl
  | cons cp cps ih =>
    cases hp : tree.tasks cp with
    | none => rw [waitLoopLog_freed hp, childTasks_freed hp, upToReady, List.map_nil]
    | some p =>
      rw [childTasks_cons hp] at h ⊢
      have hrest := ih true fun q hq => h q (List.mem_cons_of_mem p hq)
      have hyes : ¬ accepts pid gid p = false := by
        rw [h p List.mem_cons_self]
        simp
      rw [waitLoopLog_task hp, if_neg hyes, upToReady]
      by_cases hstopped : p.state = .stopped ∧ options &&& WUNTRACED ≠ 0
      · have hready : Ready options p.state := Or.inr hstopped
        rw [if_pos hstopped, if_pos hready]
        rfl
      · rw [if_neg hstopped]
        by_cases hzombie : p.state = .zombie
        · have hready : Ready options p.state := Or.inl hzombie
          rw [if_pos hzombie, if_pos hready]
          rfl
        · have hready : ¬ Ready options p.state := fun h => h.elim hzombie hstopped
          rw [if_neg hzombie, if_neg hready, List.map_cons, hrest]

/-- The filter and the kernel are the same for a pid and for -1. -/
theorem waitLoopLog_accepts (cps : List TaskRef) (flag : Bool) :
    ∀ r ∈ (waitLoopLog tree pid gid options cps flag).1, r.2 = accepts pid gid r.1 := by
  induction cps generalizing flag with
  | nil => exact fun r hr => absurd hr List.not_mem_nil
  | cons cp cps ih =>
    cases hp : tree.tasks cp with
    | none =>
      rw [waitLoopLog_freed hp]
      exact fun r hr => absurd hr List.not_mem_nil
    | some p =>
      rw [waitLoopLog_task hp]
      split
      · rename_i hno
        intro r hr
        rcases List.mem_cons.mp hr with rfl | hr
        · exact hno.symm
        · exact ih flag r hr
      · rename_i hyes
        rw [Bool.not_eq_false] at hyes
        split
        · intro r hr
          rw [List.mem_singleton.mp hr]
          exact hyes.symm
        · split
          · intro r hr
            rw [List.mem_singleton.mp hr]
            exact hyes.symm
          · intro r hr
            rcases List.mem_cons.mp hr with rfl | hr
            · exact hyes.symm
            · exact ih true r hr

theorem comesTo_known (hknown : KnownOptions options) :
    comesTo tree slave pid options = (waitLoopLog tree pid slave.gid options slave.childp false).1 :=
  if_pos hknown

theorem comesTo_unknown (hknown : ¬ KnownOptions options) : comesTo tree slave pid options = [] :=
  if_neg hknown

-- ---------------------------------------------------------------------------
-- One user group
-- ---------------------------------------------------------------------------

/-- Every record has the `gid` of the first task. -/
def OneGid (gid : Int) (tree : Tree) : Prop := ∀ t task, tree.tasks t = some task → task.gid = gid

theorem OneGid.modify (h : OneGid gid tree) (t : TaskRef) (hf : ∀ task, (f task).gid = task.gid) :
    OneGid gid (tree.modify t f) := by
  intro u task hu
  by_cases hut : u = t
  · subst hut
    rw [Tree.modify_self] at hu
    obtain ⟨task₀, hu₀, rfl⟩ := Option.map_eq_some_iff.mp hu
    exact (hf task₀).trans (h u task₀ hu₀)
  · rw [Tree.modify_of_ne _ _ hut] at hu
    exact h u task hu

theorem OneGid.orphan (h : OneGid gid tree) (c : TaskRef) : OneGid gid (Wait.orphan tree c) :=
  h.modify c fun _ => rfl

theorem OneGid.forkTree (h : OneGid gid tree) (ht : tree.tasks t = some slave) (pid : Pid) :
    OneGid gid (Wait.forkTree tree t slave pid) := by
  have hadd : OneGid gid (addSlave tree pid slave) := by
    intro u task hu
    by_cases hnew : u = tree.nextTask
    · subst hnew
      have hnew : (addSlave tree pid slave).tasks tree.nextTask = some (newSlave pid slave) :=
        Function.update_self ..
      rw [hnew, Option.some.injEq] at hu
      exact hu ▸ h t slave ht
    · rw [addSlave_tasks_of_ne tree pid slave hnew] at hu
      exact h u task hu
  exact hadd.modify t fun _ => rfl

theorem OneGid.removeChild (h : OneGid gid tree) (hs : Wait.removeChild tree t pid = some tree') :
    OneGid gid tree' := by
  obtain ⟨slave, -, hs⟩ := Option.bind_eq_some_iff.mp hs
  obtain ⟨c, -, hs⟩ := Option.bind_eq_some_iff.mp hs
  obtain rfl := Option.some.inj hs
  exact (h.orphan c).modify t fun _ => rfl

/-- A function that removes records keeps the ids of the others. -/
def KeepsGid (gid : Int) (remove : Tree → Pid → Option Tree) : Prop :=
  ∀ tree pid tree', remove tree pid = some tree' → OneGid gid tree → OneGid gid tree'

theorem OneGid.orphanLoop {remove : Tree → Pid → Option Tree} (hremove : KeepsGid gid remove)
    {cs : List TaskRef} (h : OneGid gid tree) (hs : Wait.orphanLoop remove cs tree = some tree') :
    OneGid gid tree' := by
  induction cs generalizing tree with
  | nil => exact Option.some.inj hs ▸ h
  | cons c cs ih =>
    obtain ⟨child, -, hs⟩ := Option.bind_eq_some_iff.mp hs
    split at hs
    · obtain ⟨tree₁, htree₁, hs⟩ := Option.bind_eq_some_iff.mp hs
      have h₁ := hremove _ _ _ htree₁ (h.orphan c)
      split at hs
      · exact Option.some.inj hs ▸ h₁
      · exact ih h₁ hs
    · exact ih (h.orphan c) hs

theorem removeSlaveIn_keepsGid (gid : Int) (n : Nat) : KeepsGid gid (removeSlaveIn n) := by
  induction n with
  | zero =>
    intro tree pid tree' hs
    cases hs
  | succ n ih =>
    intro tree pid tree' hs h
    obtain ⟨rt, -, hs⟩ := Option.bind_eq_some_iff.mp hs
    obtain ⟨slave, -, hs⟩ := Option.bind_eq_some_iff.mp hs
    obtain ⟨tree₁, hloop, hs⟩ := Option.bind_eq_some_iff.mp hs
    obtain rfl := Option.some.inj hs
    have hunlisted : OneGid gid { tree with firstTask := tree.firstTask.erase rt } := h
    have h₁ := hunlisted.orphanLoop ih hloop
    intro u task hu
    by_cases hrt : u = rt
    · subst hrt
      simp at hu
    · simp only [Function.update_of_ne hrt] at hu
      exact h₁ u task hu

theorem OneGid.changeSlaveState {state : SlaveState} {st : Int} (h : OneGid gid s.toTree)
    (hs : Wait.changeSlaveState s t slave state st = some s') : OneGid gid s'.toTree := by
  have h₁ : OneGid gid (s.change t fun slave => { slave with state, exitCode := st }).toTree :=
    h.modify t fun _ => rfl
  unfold Wait.changeSlaveState at hs
  split at hs
  · split at hs
    · exact Option.some.inj hs ▸ h₁
    · exact Option.some.inj hs ▸ h₁
  · split at hs
    · obtain ⟨tree, htree, hs⟩ := Option.bind_eq_some_iff.mp hs
      exact Option.some.inj hs ▸ removeSlaveIn_keepsGid gid _ _ _ _ htree h₁
    · exact Option.some.inj hs ▸ h₁

theorem OneGid.processSignal {sig st : Int} (h : OneGid gid s.toTree)
    (hs : Wait.processSignal s t slave sig st = some s') : OneGid gid s'.toTree := by
  have hpatched : ∀ patched, OneGid gid (s.change t fun slave => { slave with patched }).toTree :=
    fun patched => h.modify t fun _ => rfl
  unfold Wait.processSignal at hs
  split at hs
  · exact Option.some.inj hs ▸ h
  · exact Option.some.inj hs ▸ h
  · unfold wakeupSlave at hs
    split at hs
    · exact (hpatched false).changeSlaveState hs
    · exact Option.some.inj hs ▸ h
  · unfold stopSlave at hs
    split at hs
    · exact Option.some.inj hs ▸ h
    · obtain ⟨s₁, hs₁, hs⟩ := Option.bind_eq_some_iff.mp hs
      have h₁ := (hpatched true).changeSlaveState hs₁
      split at hs
      · exact Option.some.inj hs ▸ h₁
      · exact Option.some.inj hs ▸ h₁

theorem OneGid.afterWaitIszombie (h : OneGid gid s.toTree)
    (hs : Wait.afterWaitIszombie s t ret = some s') : OneGid gid s'.toTree := by
  obtain ⟨tree, htree, hs⟩ := Option.bind_eq_some_iff.mp hs
  obtain ⟨tree', htree', hs⟩ := Option.bind_eq_some_iff.mp hs
  obtain rfl := Option.some.inj hs
  exact removeSlaveIn_keepsGid gid _ _ _ _ htree' (h.removeChild htree)

theorem OneGid.callNext (h : OneGid gid s.toTree)
    (hs : Wait.callNext s t slave ret status = some s') : OneGid gid s'.toTree := by
  unfold Wait.callNext at hs
  split at hs
  · exact Option.some.inj hs ▸ h
  · unfold afterWaitWnohang at hs
    split at hs
    · obtain ⟨tree, htree, hs⟩ := Option.bind_eq_some_iff.mp hs
      exact Option.some.inj hs ▸ h.removeChild htree
    · exact Option.some.inj hs ▸ h
  · exact h.afterWaitIszombie hs
  · cases status with
    | none => exact Option.some.inj hs ▸ h
    | some st =>
      unfold afterWaitIsstopped at hs
      simp only at hs
      split at hs
      · split at hs
        · exact h.afterWaitIszombie hs
        · exact Option.some.inj hs ▸ h
      · obtain ⟨c, -, hs⟩ := Option.bind_eq_some_iff.mp hs
        obtain ⟨child, -, hs⟩ := Option.bind_eq_some_iff.mp hs
        obtain rfl := Option.some.inj hs
        exact h.modify c fun _ => rfl

theorem OneGid.leaveCall (h : OneGid gid s.toTree)
    (hs : Wait.leaveCall s t slave ret status = some s') : OneGid gid s'.toTree := by
  by_cases hcall : slave.restartCall.isSome
  · have heq := (if_pos hcall).symm.trans hs
    obtain rfl := Option.some.inj heq
    exact h.modify t fun _ => rfl
  · obtain ⟨s₁, hnext, hlast⟩ := leaveCall_next (by simpa using hcall) hs
    have h₁ := h.callNext hnext
    rcases hlast with ⟨-, rfl⟩ | ⟨-, -, rfl⟩
    · exact h₁
    · exact h₁.modify t fun _ => rfl

theorem OneGid.entered {inside : Inside} (h : OneGid gid s.toTree)
    (hs : Entered s t slave pid options s' inside) : OneGid gid s'.toTree := by
  cases hs with
  | passed => exact h
  | stopped child _ => exact h.modify t fun _ => rfl
  | other next _ => exact h.modify t fun _ => rfl
  | suspended _ => exact h.modify t fun _ => rfl

/-- A turn of the event loop, by what the handler leaves. -/
theorem OneGid.turn {handle : TaskRef → Task → Option State} (h : OneGid gid k.toTree)
    (hhandle : ∀ t slave s', k.tasks t = some slave → handle t slave = some s' →
      OneGid gid s'.toTree) : OneGid gid (Wait.turn k pid handle).toTree := by
  rcases turn_cases k pid handle with ⟨-, heq⟩ | ⟨t, slave, -, hslave, -, heq⟩
  · rw [heq]
    exact h
  · rw [heq]
    cases hres : handle t slave with
    | none => exact h
    | some s' => exact hhandle t slave s' hslave hres

theorem OneGid.step (h : OneGid gid s.toTree) (hs : Wait.step s e = some s') :
    OneGid gid s'.toTree := by
  obtain ⟨-, k, hk, rfl⟩ := step_spec hs
  have h₁ : OneGid gid k.toTree := kernel_toTree hk ▸ h
  cases e with
  | dies pid => exact h₁
  | reaped pid => exact h₁
  | answers pid child => exact h₁
  | fork pid child =>
    refine h₁.turn fun t slave s' ht hs' => ?_
    obtain rfl := Option.some.inj hs'
    exact h₁.forkTree ht child
  | waitEnter pid arg options =>
    refine h₁.turn fun t slave s' _ hs' => ?_
    obtain ⟨r, hr, rfl⟩ := Option.map_eq_some_iff.mp hs'
    have hentered : OneGid gid r.1.toTree := h₁.entered (beforeWait_entered hr)
    exact hentered
  | leave pid ret status => exact h₁.turn fun t slave s' _ hs' => h₁.leaveCall hs'
  | signal pid sig st => exact h₁.turn fun t slave s' _ hs' => h₁.processSignal hs'
  | exit pid st => exact h₁.turn fun t slave s' _ hs' => h₁.changeSlaveState hs'

theorem Jobs.step_oneGid {e : JobEvent} (h : OneGid gid j.state.toTree)
    (hs : j.step e = some j') : OneGid gid j'.state.toTree := by
  cases e with
  | traced e =>
    obtain ⟨s', hs', rfl⟩ := Option.map_eq_some_iff.mp hs
    exact h.step hs'
  | setpgid pid target pgid =>
    obtain ⟨-, hj'⟩ := Option.ite_none_right_eq_some.mp hs
    exact Option.some.inj hj' ▸ h
  | setsid pid =>
    obtain ⟨-, hj'⟩ := Option.ite_none_right_eq_some.mp hs
    exact Option.some.inj hj' ▸ h

theorem start_oneGid (first : Pid) (gid : Int) : OneGid gid (Wait.start first gid).toTree := by
  intro t task ht
  by_cases h0 : t = 0
  · subst h0
    exact Option.some.inj ht ▸ rfl
  · have hnone : (Wait.start first gid).tasks t = none := by
      simp [Wait.start, h0]
    rw [hnone] at ht
    cases ht

/-- No call changes the user group of a task on record. -/
theorem Jobs.run_oneGid {first : Pid} {pgrp session : Pid → Int} {es : List JobEvent}
    (hrun : Runs.exec Jobs.step (Jobs.start first gid pgrp session) es = some j) :
    OneGid gid j.state.toTree :=
  Runs.inv_of_steps (fun _ _ _ h hs => Jobs.step_oneGid h hs) (start_oneGid first gid) hrun

-- ---------------------------------------------------------------------------
-- The two filters
-- ---------------------------------------------------------------------------

/-- The pids of `wait4`. -/
theorem pid_cases (pid : Pid) : (0 < pid ∨ pid = -1) ∨ pid = 0 ∨ pid < -1 := by
  have h : ∀ n : Int, (0 < n ∨ n = -1) ∨ n = 0 ∨ n < -1 := by
    intro n
    omega
  exact h pid

theorem pid_group (hgroup : pid < -1) : ¬ pid > 0 ∧ pid ≠ 0 ∧ pid ≠ -1 := by
  have h : ∀ n : Int, n < -1 → ¬ n > 0 ∧ n ≠ 0 ∧ n ≠ -1 := by
    intro n hn
    omega
  exact h pid hgroup

theorem accepts_group (gid : Int) (p : Task) (hgroup : pid < -1) :
    accepts pid gid p = (p.gid == -pid) := by
  obtain ⟨hpos, hzero, hany⟩ := pid_group hgroup
  rw [accepts, if_neg hpos, if_neg hzero, if_pos hany]

theorem selects_group (pgrp : Pid → Int) (slave p : Task) (hgroup : pid < -1) :
    selects pgrp pid slave p = (pgrp p.pid == -pid) := by
  obtain ⟨hpos, hzero, hany⟩ := pid_group hgroup
  rw [selects, if_neg hpos, if_neg hzero, if_pos hany]

theorem accepts_own (gid : Int) (p : Task) : accepts 0 gid p = (p.gid == gid) := by
  simp [accepts]

theorem selects_own (pgrp : Pid → Int) (slave p : Task) :
    selects pgrp 0 slave p = (pgrp p.pid == pgrp slave.pid) := by
  simp [selects]

theorem childTasks_gid (h : OneGid gid tree) (cs : List TaskRef) :
    ∀ p ∈ childTasks tree cs, p.gid = gid := by
  induction cs with
  | nil => exact fun p hp => absurd hp List.not_mem_nil
  | cons c cs ih =>
    cases hc : tree.tasks c with
    | none =>
      rw [childTasks_freed hc]
      exact fun p hp => absurd hp List.not_mem_nil
    | some child =>
      rw [childTasks_cons hc]
      intro p hp
      rcases List.mem_cons.mp hp with rfl | hp
      · exact h c p hc
      · exact ih p hp

section Call

variable (h : OneGid gid j.state.toTree) (hslave : slave.gid = gid) (hknown : KnownOptions options)
include h hslave hknown

/-- A pid below 1 that every child has by its user group. -/
theorem candidatesRight_all (pid : Pid)
    (haccepts : ∀ p : Task, p.gid = gid → accepts pid gid p = true) :
    CandidatesRight j slave pid options ↔
      ∀ p ∈ upToReady options (childTasks j.state.toTree slave.childp),
        selects j.pgrp pid slave p = true := by
  have hall := waitLoopLog_all options slave.childp false
    fun p hp => haccepts p (childTasks_gid h slave.childp p hp)
  rw [CandidatesRight, comesTo_known hknown, hslave, hall, List.forall_mem_map]
  exact forall₂_congr fun p _ => eq_comm

/-- A pid below 1 that no child has. -/
theorem candidatesRight_none (pid : Pid)
    (haccepts : ∀ p : Task, p.gid = gid → accepts pid gid p = false) :
    CandidatesRight j slave pid options ↔
      ∀ p ∈ childTasks j.state.toTree slave.childp, selects j.pgrp pid slave p = false := by
  have hnone := waitLoopLog_none options slave.childp false
    fun p hp => haccepts p (childTasks_gid h slave.childp p hp)
  rw [CandidatesRight, comesTo_known hknown, hslave, hnone, List.forall_mem_map]
  exact forall₂_congr fun p _ => eq_comm

theorem candidatesRight_group (hgroup : pid < -1) :
    CandidatesRight j slave pid options ↔ GroupsFit j gid slave pid options := by
  have hzero : pid ≠ 0 := (pid_group hgroup).2.1
  by_cases hgid : gid = -pid
  · have hright := candidatesRight_all h hslave hknown pid fun p hp => by
      rw [accepts_group gid p hgroup, hp, hgid]
      exact beq_self_eq_true (-pid)
    rw [hright]
    simp only [selects_group j.pgrp slave _ hgroup, beq_iff_eq]
    constructor
    · intro hall _
      exact ⟨fun h0 => absurd h0 hzero, fun _ => ⟨fun _ => hall, fun hne => absurd hgid hne⟩⟩
    · intro hfit
      exact ((hfit hknown).2 hgroup).1 hgid
  · have hright := candidatesRight_none h hslave hknown pid fun p hp => by
      rw [accepts_group gid p hgroup, hp]
      exact beq_eq_false_iff_ne.mpr hgid
    rw [hright]
    simp only [selects_group j.pgrp slave _ hgroup, beq_eq_false_iff_ne]
    constructor
    · intro hnone _
      exact ⟨fun h0 => absurd h0 hzero, fun _ => ⟨fun heq => absurd heq hgid, fun _ => hnone⟩⟩
    · intro hfit
      exact ((hfit hknown).2 hgroup).2 hgid

theorem candidatesRight_own :
    CandidatesRight j slave 0 options ↔ GroupsFit j gid slave 0 options := by
  have hright := candidatesRight_all h hslave hknown 0 fun p hp => by
    rw [accepts_own, hp]
    exact beq_self_eq_true gid
  rw [hright]
  simp only [selects_own, beq_iff_eq]
  constructor
  · intro hall _
    exact ⟨fun _ => hall, fun hlt => absurd hlt (by decide)⟩
  · intro hfit
    exact (hfit hknown).1 rfl

end Call

/-- What is refused comes to no child. -/
theorem candidatesRight_unknown (hknown : ¬ KnownOptions options) :
    CandidatesRight j slave pid options := by
  rw [CandidatesRight, comesTo_unknown hknown]
  exact fun r hr => absurd hr List.not_mem_nil

/-- A pid above 0, and -1, are not compared with a group. -/
theorem candidatesRight_pid (hpid : 0 < pid ∨ pid = -1) : CandidatesRight j slave pid options := by
  by_cases hknown : KnownOptions options
  · rw [CandidatesRight, comesTo_known hknown]
    intro r hr
    rw [waitLoopLog_accepts slave.childp false r hr]
    unfold accepts selects
    rcases hpid with hpos | hany
    · rw [if_pos hpos, if_pos hpos]
    · simp [hany]
  · exact candidatesRight_unknown hknown

theorem candidatesRight_iff (h : OneGid gid j.state.toTree) (hslave : slave.gid = gid)
    (pid : Pid) (options : Options) :
    CandidatesRight j slave pid options ↔ GroupsFit j gid slave pid options := by
  by_cases hknown : KnownOptions options
  · rcases pid_cases pid with hpid | rfl | hgroup
    · refine iff_of_true (candidatesRight_pid hpid) fun _ => ⟨fun h0 => ?_, fun hgroup => ?_⟩
      · subst h0
        exact absurd hpid (by decide)
      · obtain ⟨hpos, -, hany⟩ := pid_group hgroup
        exact absurd hpid (not_or.mpr ⟨hpos, hany⟩)
    · exact candidatesRight_own h hslave hknown
    · exact candidatesRight_group h hslave hknown hgroup
  · exact iff_of_true (candidatesRight_unknown hknown) fun hk => absurd hk hknown

/-- In every state of a run, for every task and every wait call: `before_wait` treats the
children that it comes to as the kernel does if and only if their groups fit. -/
theorem candidates_right_iff {first : Pid} {pgrp session : Pid → Int} {es : List JobEvent}
    (hrun : Runs.exec Jobs.step (Jobs.start first gid pgrp session) es = some j)
    (t : TaskRef) (hslave : j.state.tasks t = some slave) (pid : Pid) (options : Options) :
    CandidatesRight j slave pid options ↔ GroupsFit j gid slave pid options := by
  have hgid := Jobs.run_oneGid hrun
  exact candidatesRight_iff hgid (hgid t slave hslave) pid options

-- ---------------------------------------------------------------------------
-- Job control
-- ---------------------------------------------------------------------------

/-- The shell is in a group of its own, and its user group is 50. -/
def shellJobs : Jobs := Jobs.start 100 50 (fun _ => 100) (fun _ => 100)

/-- It puts its child into a group. -/
def startJob : List JobEvent := [.traced (.fork 100 101), .setpgid 100 101 101]

/-- The child that is left in its parent's group is found with 0. -/
theorem candidates_right_ownGroup :
    ∃ j slave, Runs.exec Jobs.step shellJobs [.traced (.fork 100 101)] = some j ∧
      j.state.tasks 0 = some slave ∧ CandidatesRight j slave 0 0 := by
  refine ⟨_, _, rfl, rfl, ?_⟩
  have hrun : Runs.exec Jobs.step (Jobs.start 100 50 (fun _ => 100) fun _ => 100)
      [.traced (.fork 100 101)] = some _ := rfl
  refine (candidates_right_iff hrun 0 rfl 0 0).mpr ?_
  refine fun _ => ⟨fun _ p hp => ?_, fun hgroup => absurd hgroup (by decide)⟩
  obtain rfl : p = newSlave 101 (firstSlave 100 50) := List.mem_singleton.mp hp
  rfl

/-- `waitpid(-101)` after `setpgid(101, 101)`: for `before_wait` there is no such child. -/
theorem not_candidates_right :
    ∃ j slave, Runs.exec Jobs.step shellJobs startJob = some j ∧ j.state.tasks 0 = some slave ∧
      selects j.pgrp (-101) slave (newSlave 101 (firstSlave 100 50)) = true ∧
      comesTo j.state.toTree slave (-101) 0 = [(newSlave 101 (firstSlave 100 50), false)] ∧
      ¬ CandidatesRight j slave (-101) 0 := by
  refine ⟨_, _, rfl, rfl, rfl, rfl, fun h => ?_⟩
  have hchild := h (newSlave 101 (firstSlave 100 50), false) (List.mem_singleton.mpr rfl)
  exact Bool.false_ne_true hchild

end Wait

end Okfs
