import Okfs.Task.Signals
import Mathlib.Logic.Function.Basic
import Mathlib.Data.List.Basic

/-!
# OKFS — the list of tasks and the lists of children

Every traced task has a record in the list `first_task`, and every record has a list
`childp` of the records of its children. They are found by pid: `find_slave`, `remove_slave` and
`remove_child` take the first record with the pid, so a record that is left behind is
only reached when no newer one has its pid. `remove_slave` removes the children that are
zombies with their parent, and so on below them.

The records are kept by reference, and a reference is never used again: to follow one
that has been freed, or to search for a pid that no record has, is undefined (`none`).

* `removeSlave_apart` — whatever is removed, no record gets into two lists.
* `removeSlave_whole` — a removal in a whole tree is defined, and leaves it whole.
-/

namespace Okfs

namespace Wait

open ByteMemory Signal

-- ---------------------------------------------------------------------------
-- Records
-- ---------------------------------------------------------------------------

abbrev TaskRef := Nat
abbrev Pid := Int

/-- The flags of a wait call are bits of its third argument. -/
abbrev Options := BitVec 32

/-- `next_call`, as far as it is set by `before_wait`: `NULL` or one of the three
`after_wait_…` functions. -/
inductive NextCall
  | nothing | wnohang | iszombie | isstopped
  deriving DecidableEq, Repr

structure Task where
  pid : Pid
  ppid : Pid
  gid : Int
  state : SlaveState
  exitCode : Int
  childp : List TaskRef
  stoppedChild : Option TaskRef
  nextCall : NextCall
  /-- `restart_call`, with the arguments of the call. -/
  restartCall : Option (Pid × Options)
  sighandler : Int → Word
  /-- The code that `stop_slave` replaces is saved in `rpl_code`. -/
  patched : Bool

structure Tree where
  tasks : TaskRef → Option Task
  firstTask : List TaskRef
  nextTask : TaskRef

def Tree.modify (s : Tree) (t : TaskRef) (f : Task → Task) : Tree :=
  { s with tasks := Function.update s.tasks t ((s.tasks t).map f) }

def Tree.pidOf (s : Tree) (t : TaskRef) : Option Pid := (s.tasks t).map Task.pid

-- ---------------------------------------------------------------------------
-- task.c
-- ---------------------------------------------------------------------------

def findSlave (s : Tree) (pid : Pid) : Option TaskRef :=
  s.firstTask.find? fun t => s.pidOf t == some pid

/-- The record that `add_slave` makes for a child. -/
def newSlave (pid : Pid) (parent : Task) : Task :=
  { pid
    ppid := parent.pid
    gid := parent.gid
    state := .running
    exitCode := 0
    childp := []
    stoppedChild := none
    nextCall := .nothing
    restartCall := none
    sighandler := parent.sighandler
    patched := false }

def addSlave (s : Tree) (pid : Pid) (parent : Task) : Tree :=
  { tasks := Function.update s.tasks s.nextTask (some (newSlave pid parent))
    firstTask := s.nextTask :: s.firstTask
    nextTask := s.nextTask + 1 }

def addChild (s : Tree) (t child : TaskRef) : Tree :=
  s.modify t fun slave => { slave with childp := child :: slave.childp }

/-- The first child with the pid. -/
def findChild (s : Tree) (pid : Pid) : List TaskRef → Option TaskRef
  | [] => none
  | c :: cs => do
    let child ← s.tasks c
    if child.pid = pid then some c else findChild s pid cs

def orphan (s : Tree) (c : TaskRef) : Tree := s.modify c fun child => { child with ppid := 1 }

def removeChild (s : Tree) (t : TaskRef) (pid : Pid) : Option Tree := do
  let slave ← s.tasks t
  let c ← findChild s pid slave.childp
  return (orphan s c).modify t fun slave => { slave with childp := slave.childp.erase c }

/-- The loop of `remove_slave` over the children. Where a call of `remove` empties the list
of tasks, it does not return. -/
def orphanLoop (remove : Tree → Pid → Option Tree) : List TaskRef → Tree → Option Tree
  | [], s => some s
  | c :: cs, s => do
    let child ← s.tasks c
    if child.state = .zombie then
      let s ← remove (orphan s c) child.pid
      if s.firstTask = [] then return s else orphanLoop remove cs s
    else orphanLoop remove cs (orphan s c)

def removeSlaveIn : Nat → Tree → Pid → Option Tree
  | 0, _, _ => none
  | n + 1, s, pid => do
    let rt ← findSlave s pid
    let slave ← s.tasks rt
    let s ← orphanLoop (removeSlaveIn n) slave.childp { s with firstTask := s.firstTask.erase rt }
    return { s with tasks := Function.update s.tasks rt none }

/-- `remove_slave` takes one record from the list for each call, so its length is enough.
OKFS ends with `exit(0)` where it leaves the list empty. -/
def removeSlave (s : Tree) (pid : Pid) : Option Tree := removeSlaveIn s.firstTask.length s pid

-- ---------------------------------------------------------------------------
-- Records that are found
-- ---------------------------------------------------------------------------

variable {s s' s₁ : Tree} {t u c rt : TaskRef} {slave task child : Task} {pid : Pid}

@[simp] theorem Tree.modify_firstTask (s : Tree) (t : TaskRef) (f : Task → Task) :
    (s.modify t f).firstTask = s.firstTask := rfl

@[simp] theorem Tree.modify_nextTask (s : Tree) (t : TaskRef) (f : Task → Task) :
    (s.modify t f).nextTask = s.nextTask := rfl

theorem Tree.modify_self (s : Tree) (t : TaskRef) (f : Task → Task) :
    (s.modify t f).tasks t = (s.tasks t).map f :=
  Function.update_self ..

theorem Tree.modify_of_ne (s : Tree) (f : Task → Task) (h : u ≠ t) :
    (s.modify t f).tasks u = s.tasks u :=
  Function.update_of_ne h ..

theorem findSlave_mem (h : findSlave s pid = some t) : t ∈ s.firstTask :=
  List.mem_of_find?_eq_some h

theorem findSlave_pid (h : findSlave s pid = some t) : s.pidOf t = some pid :=
  eq_of_beq (List.find?_some (p := fun t => s.pidOf t == some pid) h)

theorem findSlave_task (h : findSlave s pid = some t) :
    ∃ task, s.tasks t = some task ∧ task.pid = pid :=
  Option.map_eq_some_iff.mp (findSlave_pid h)

theorem find_congr {p q : TaskRef → Bool} {l : List TaskRef} (h : ∀ t ∈ l, p t = q t) :
    l.find? p = l.find? q := by
  induction l with
  | nil => rfl
  | cons a l ih =>
    rw [List.find?_cons, List.find?_cons, h a List.mem_cons_self,
      ih fun t ht => h t (List.mem_cons_of_mem a ht)]

/-- Only the pids of the listed records matter. -/
theorem findSlave_congr (hlist : s'.firstTask = s.firstTask)
    (hpid : ∀ t ∈ s.firstTask, s'.pidOf t = s.pidOf t) (pid : Pid) :
    findSlave s' pid = findSlave s pid := by
  rw [findSlave, findSlave, hlist]
  exact find_congr fun t ht => by rw [hpid t ht]

theorem modify_pidOf {f : Task → Task} (hf : ∀ task, (f task).pid = task.pid) (s : Tree)
    (t u : TaskRef) : (s.modify t f).pidOf u = s.pidOf u := by
  rw [Tree.pidOf, Tree.pidOf]
  by_cases hut : u = t
  · subst hut
    rw [Tree.modify_self, Option.map_map]
    exact congrArg (Option.map · _) (funext hf)
  · rw [Tree.modify_of_ne s f hut]

theorem modify_findSlave {f : Task → Task} (hf : ∀ task, (f task).pid = task.pid) (s : Tree)
    (t : TaskRef) (pid : Pid) : findSlave (s.modify t f) pid = findSlave s pid := by
  refine findSlave_congr ?_ ?_ pid
  · rfl
  · exact fun u _ => modify_pidOf hf s t u

/-- What is found in a list is found until it is taken out. -/
theorem find_of_sublist {p : TaskRef → Bool} {l l' : List TaskRef} (hsub : l'.Sublist l)
    (hnodup : l.Nodup) (hfind : l.find? p = some t) (hmem : t ∈ l') : l'.find? p = some t := by
  induction hsub with
  | slnil => cases hmem
  | cons a hsub ih =>
    obtain ⟨ha, hnodup⟩ := List.nodup_cons.mp hnodup
    rw [List.find?_cons] at hfind
    split at hfind
    · obtain rfl := Option.some.inj hfind
      exact absurd (hsub.subset hmem) ha
    · exact ih hnodup hfind hmem
  | cons_cons a hsub ih =>
    obtain ⟨ha, hnodup⟩ := List.nodup_cons.mp hnodup
    rw [List.find?_cons] at hfind ⊢
    split at hfind
    · exact hfind
    · rename_i hp
      have hmem : t ∈ _ := (List.mem_cons.mp hmem).resolve_left ?_
      · exact ih hnodup hfind hmem
      · rintro rfl
        rw [List.find?_some hfind] at hp
        cases hp

theorem findSlave_of_sublist (hnodup : s.firstTask.Nodup) (hsub : s'.firstTask.Sublist s.firstTask)
    (hpid : ∀ t ∈ s'.firstTask, s'.pidOf t = s.pidOf t) (hfind : findSlave s pid = some t)
    (hmem : t ∈ s'.firstTask) : findSlave s' pid = some t := by
  have hcongr : findSlave s' pid = findSlave { s with firstTask := s'.firstTask } pid := by
    refine findSlave_congr ?_ ?_ pid
    · rfl
    · exact hpid
  rw [hcongr]
  exact find_of_sublist hsub hnodup hfind hmem

theorem findChild_mem {cs : List TaskRef} (h : findChild s pid cs = some c) : c ∈ cs := by
  induction cs with
  | nil => cases h
  | cons d ds ih =>
    obtain ⟨child, -, h⟩ := Option.bind_eq_some_iff.mp h
    split at h
    · exact Option.some.inj h ▸ List.mem_cons_self
    · exact List.mem_cons_of_mem d (ih h)

theorem findChild_pid {cs : List TaskRef} (h : findChild s pid cs = some c) :
    ∃ child, s.tasks c = some child ∧ child.pid = pid := by
  induction cs with
  | nil => cases h
  | cons d ds ih =>
    obtain ⟨child, hd, h⟩ := Option.bind_eq_some_iff.mp h
    split at h
    · obtain rfl := Option.some.inj h
      exact ⟨child, hd, ‹_›⟩
    · exact ih h

/-- The search is defined if all children have records. -/
theorem findChild_isSome {cs : List TaskRef} (hcs : ∀ d ∈ cs, ∃ child, s.tasks d = some child)
    (hc : c ∈ cs) (hpid : s.pidOf c = some pid) : ∃ d, findChild s pid cs = some d := by
  induction cs with
  | nil => cases hc
  | cons d ds ih =>
    obtain ⟨child, hd⟩ := hcs d List.mem_cons_self
    rw [findChild, hd]
    by_cases hdpid : child.pid = pid
    · exact ⟨d, if_pos hdpid⟩
    · have hne : c ≠ d := by
        rintro rfl
        rw [Tree.pidOf, hd] at hpid
        exact hdpid (Option.some.inj hpid)
      have hc : c ∈ ds := (List.mem_cons.mp hc).resolve_left hne
      obtain ⟨e, he⟩ := ih (fun d hd => hcs d (List.mem_cons_of_mem _ hd)) hc
      exact ⟨e, (if_neg hdpid).trans he⟩

-- ---------------------------------------------------------------------------
-- What is left of the records
-- ---------------------------------------------------------------------------

/-- The record is as it was, or an orphan's. -/
def Left (task task' : Task) : Prop := task' = task ∨ task' = { task with ppid := 1 }

theorem Left.trans {task task' task'' : Task} (h : Left task task') (h' : Left task' task'') :
    Left task task'' := by
  rcases h with rfl | rfl
  · exact h'
  · rcases h' with rfl | rfl <;> exact Or.inr rfl

theorem Left.pid_eq {task task' : Task} (h : Left task task') : task'.pid = task.pid := by
  rcases h with rfl | rfl <;> rfl

theorem Left.childp_eq {task task' : Task} (h : Left task task') : task'.childp = task.childp := by
  rcases h with rfl | rfl <;> rfl

theorem Left.state_eq {task task' : Task} (h : Left task task') : task'.state = task.state := by
  rcases h with rfl | rfl <;> rfl

/-- What a removal does: it takes records from the list and makes orphans. -/
structure Shrinks (s s' : Tree) : Prop where
  sublist : s'.firstTask.Sublist s.firstTask
  nextTask : s'.nextTask = s.nextTask
  tasks : ∀ t ∈ s'.firstTask, ∀ task, s.tasks t = some task →
    ∃ task', s'.tasks t = some task' ∧ Left task task'
  back : ∀ t task', s'.tasks t = some task' → ∃ task, s.tasks t = some task ∧ Left task task'

theorem Shrinks.refl (s : Tree) : Shrinks s s :=
  ⟨.refl _, rfl, fun _ _ task h => ⟨task, h, Or.inl rfl⟩, fun _ task h => ⟨task, h, Or.inl rfl⟩⟩

theorem Shrinks.trans {s'' : Tree} (h : Shrinks s s') (h' : Shrinks s' s'') : Shrinks s s'' := by
  refine ⟨h'.sublist.trans h.sublist, h'.nextTask.trans h.nextTask, fun t ht task htask => ?_,
    fun t task'' htask'' => ?_⟩
  · obtain ⟨task', htask', hleft⟩ := h.tasks t (h'.sublist.subset ht) task htask
    obtain ⟨task'', htask'', hleft'⟩ := h'.tasks t ht task' htask'
    exact ⟨task'', htask'', hleft.trans hleft'⟩
  · obtain ⟨task', htask', hleft'⟩ := h'.back t task'' htask''
    obtain ⟨task, htask, hleft⟩ := h.back t task' htask'
    exact ⟨task, htask, hleft.trans hleft'⟩

theorem Shrinks.pidOf_eq (h : Shrinks s s') (ht : t ∈ s'.firstTask) : s'.pidOf t = s.pidOf t := by
  rw [Tree.pidOf, Tree.pidOf]
  cases htask : s.tasks t with
  | none =>
    cases htask' : s'.tasks t with
    | none => rfl
    | some task' =>
      obtain ⟨task, h, -⟩ := h.back t task' htask'
      rw [htask] at h
      cases h
  | some task =>
    obtain ⟨task', htask', hleft⟩ := h.tasks t ht task htask
    rw [htask']
    exact congrArg some hleft.pid_eq

/-- What is found by its pid is found until it is taken from the list. -/
theorem Shrinks.findSlave (h : Shrinks s s') (hnodup : s.firstTask.Nodup)
    (hfind : Wait.findSlave s pid = some t) (ht : t ∈ s'.firstTask) :
    Wait.findSlave s' pid = some t :=
  findSlave_of_sublist hnodup h.sublist (fun _ hu => h.pidOf_eq hu) hfind ht

theorem shrinks_modify {f : Task → Task} (hf : ∀ task, Left task (f task)) (s : Tree) (t : TaskRef) :
    Shrinks s (s.modify t f) := by
  refine ⟨.refl _, rfl, fun u _ task htask => ?_, fun u task' htask' => ?_⟩
  · by_cases hut : u = t
    · subst hut
      exact ⟨f task, by rw [Tree.modify_self, htask]; rfl, hf task⟩
    · exact ⟨task, by rw [Tree.modify_of_ne s f hut]; exact htask, Or.inl rfl⟩
  · by_cases hut : u = t
    · subst hut
      rw [Tree.modify_self] at htask'
      obtain ⟨task, htask, rfl⟩ := Option.map_eq_some_iff.mp htask'
      exact ⟨task, htask, hf task⟩
    · rw [Tree.modify_of_ne s f hut] at htask'
      exact ⟨task', htask', Or.inl rfl⟩

theorem shrinks_orphan (s : Tree) (c : TaskRef) : Shrinks s (orphan s c) :=
  shrinks_modify (fun _ => Or.inr rfl) s c

theorem shrinks_unlink (s : Tree) (rt : TaskRef) :
    Shrinks s { s with firstTask := s.firstTask.erase rt } :=
  ⟨List.erase_sublist, rfl, fun _ _ task h => ⟨task, h, Or.inl rfl⟩,
    fun _ task h => ⟨task, h, Or.inl rfl⟩⟩

theorem shrinks_free (h : rt ∉ s.firstTask) :
    Shrinks s { s with tasks := Function.update s.tasks rt none } := by
  refine ⟨.refl _, rfl, fun t ht task htask => ⟨task, ?_, Or.inl rfl⟩, fun t task htask => ?_⟩
  · have hne : t ≠ rt := fun hc => h (hc ▸ ht)
    exact (Function.update_of_ne hne ..).trans htask
  · by_cases hne : t = rt
    · subst hne
      have htask : Function.update s.tasks t none t = some task := htask
      rw [Function.update_self] at htask
      cases htask
    · have htask : Function.update s.tasks rt none t = some task := htask
      rw [Function.update_of_ne hne] at htask
      exact ⟨task, htask, Or.inl rfl⟩

-- ---------------------------------------------------------------------------
-- Lists of children
-- ---------------------------------------------------------------------------

/-- A record that is in the list of tasks. -/
def Listed (s : Tree) (t : TaskRef) (task : Task) : Prop :=
  t ∈ s.firstTask ∧ s.tasks t = some task

/-- No record is in two lists of children, and a child knows the pid of its parent. While
`remove_slave` goes through a list of children, `rest` is what it has before it. -/
structure Apart (s : Tree) (rest : List TaskRef) : Prop where
  nodup : s.firstTask.Nodup
  fresh : ∀ t ∈ s.firstTask, t < s.nextTask
  freshChild : ∀ t task, Listed s t task → ∀ c ∈ task.childp, c < s.nextTask
  ppid : ∀ t task, Listed s t task → ∀ c ∈ task.childp, ∀ child, s.tasks c = some child →
    child.ppid = task.pid
  once : ∀ t task, Listed s t task → task.childp.Nodup
  apart : ∀ t task, Listed s t task → ∀ t' task', Listed s t' task' →
    ∀ c ∈ task.childp, c ∈ task'.childp → t = t'
  restApart : ∀ t task, Listed s t task → ∀ c ∈ rest, c ∉ task.childp
  restOnce : rest.Nodup

variable {rest cs : List TaskRef}

theorem listed_modify {f : Task → Task} :
    Listed (s.modify t f) u task ↔
      ∃ task₀, Listed s u task₀ ∧ task = if u = t then f task₀ else task₀ := by
  by_cases hut : u = t
  · subst hut
    rw [Listed, Tree.modify_self, Option.map_eq_some_iff]
    constructor
    · rintro ⟨hu, task₀, htask₀, rfl⟩
      exact ⟨task₀, ⟨hu, htask₀⟩, (if_pos rfl).symm⟩
    · rintro ⟨task₀, ⟨hu, htask₀⟩, rfl⟩
      exact ⟨hu, task₀, htask₀, (if_pos rfl).symm⟩
  · rw [Listed, Tree.modify_of_ne s f hut]
    constructor
    · rintro ⟨hu, htask⟩
      exact ⟨task, ⟨hu, htask⟩, (if_neg hut).symm⟩
    · rintro ⟨task₀, hu, rfl⟩
      rw [if_neg hut]
      exact hu

theorem listed_orphan : Listed (orphan s c) u task ↔
    ∃ task₀, Listed s u task₀ ∧ task = if u = c then { task₀ with ppid := 1 } else task₀ :=
  listed_modify

theorem Shrinks.listed (h : Shrinks s s') (ht : Listed s' t slave) :
    ∃ task, Listed s t task ∧ Left task slave := by
  obtain ⟨task, htask, hleft⟩ := h.back t slave ht.2
  exact ⟨task, ⟨h.sublist.subset ht.1, htask⟩, hleft⟩

/-- The orphans are the only change: they are in no list of children. -/
theorem Apart.shrinks (h : Apart s rest) (hs' : Shrinks s s')
    (horphans : ∀ t task, Listed s' t task → ∀ c ∈ task.childp, ∀ child', s'.tasks c = some child' →
      s.tasks c = some child') : Apart s' rest where
  nodup := h.nodup.sublist hs'.sublist
  fresh t ht := hs'.nextTask ▸ h.fresh t (hs'.sublist.subset ht)
  freshChild t task' ht c hc := by
    obtain ⟨task, ht, hleft⟩ := hs'.listed ht
    exact hs'.nextTask ▸ h.freshChild t task ht c (hleft.childp_eq ▸ hc)
  ppid t task' ht c hc child hchild := by
    have hold := horphans t task' ht c hc child hchild
    obtain ⟨task, ht, hleft⟩ := hs'.listed ht
    rw [hleft.pid_eq]
    exact h.ppid t task ht c (hleft.childp_eq ▸ hc) child hold
  once t task' ht := by
    obtain ⟨task, ht, hleft⟩ := hs'.listed ht
    exact hleft.childp_eq ▸ h.once t task ht
  apart t task ht t' task' ht' c hc hc' := by
    obtain ⟨task₁, ht, hleft⟩ := hs'.listed ht
    obtain ⟨task₁', ht', hleft'⟩ := hs'.listed ht'
    exact h.apart t task₁ ht t' task₁' ht' c (hleft.childp_eq ▸ hc) (hleft'.childp_eq ▸ hc')
  restApart t task ht c hc := by
    obtain ⟨task₁, ht, hleft⟩ := hs'.listed ht
    exact hleft.childp_eq ▸ h.restApart t task₁ ht c hc
  restOnce := h.restOnce

theorem Apart.fewer (h : Apart s rest) (hsub : cs.Sublist rest) : Apart s cs :=
  { h with
    restApart := fun t task ht c hc => h.restApart t task ht c (hsub.subset hc)
    restOnce := h.restOnce.sublist hsub }

/-- The next child of the loop becomes an orphan. -/
theorem Apart.orphan (h : Apart s (c :: rest)) : Apart (orphan s c) rest := by
  have hsub : rest.Sublist (c :: rest) := List.sublist_cons_self c rest
  refine (h.fewer hsub).shrinks (shrinks_orphan s c) fun t task' ht d hd child hchild => ?_
  obtain ⟨task, hold, hleft⟩ := (shrinks_orphan s c).listed ht
  have hdc : d ≠ c := by
    rintro rfl
    exact h.restApart t task hold d List.mem_cons_self (hleft.childp_eq ▸ hd)
  rw [Wait.orphan, Tree.modify_of_ne s _ hdc] at hchild
  exact hchild

/-- A record that is taken from the list leaves its children to the loop. -/
theorem Apart.unlink (h : Apart s rest) (hrt : Listed s rt slave) :
    Apart { s with firstTask := s.firstTask.erase rt } (slave.childp ++ rest) := by
  have hmem : ∀ t task, Listed { s with firstTask := s.firstTask.erase rt } t task →
      Listed s t task ∧ t ≠ rt := by
    intro t task ht
    obtain ⟨hne, hold⟩ := (h.nodup.mem_erase_iff).mp ht.1
    exact ⟨⟨hold, ht.2⟩, hne⟩
  have h' := h.shrinks (shrinks_unlink s rt) fun _ _ _ _ _ _ hchild => hchild
  refine { h' with restApart := fun t task ht c hc => ?_, restOnce := ?_ }
  · obtain ⟨hold, hne⟩ := hmem t task ht
    rcases List.mem_append.mp hc with hc | hc
    · exact fun hc' => hne (h.apart t task hold rt slave hrt c hc' hc)
    · exact h.restApart t task hold c hc
  · refine List.nodup_append.mpr ⟨h.once rt slave hrt, h.restOnce, fun c hc d hd hcd => ?_⟩
    exact h.restApart rt slave hrt d hd (hcd ▸ hc)

theorem not_mem_unlink {s' : Tree} (h : s.firstTask.Nodup)
    (hs' : Shrinks { s with firstTask := s.firstTask.erase rt } s') : rt ∉ s'.firstTask :=
  fun hmem => ((h.mem_erase_iff).mp (hs'.sublist.subset hmem)).1 rfl

theorem Apart.free (h : Apart s rest) (hrt : rt ∉ s.firstTask) :
    Apart { s with tasks := Function.update s.tasks rt none } rest := by
  refine h.shrinks (shrinks_free hrt) fun t task ht c hc child hchild => ?_
  obtain ⟨child₁, hchild₁, hleft⟩ := (shrinks_free hrt).back c child hchild
  by_cases hne : c = rt
  · subst hne
    have hchild : Function.update s.tasks c none c = some child := hchild
    rw [Function.update_self] at hchild
    cases hchild
  · have hchild : Function.update s.tasks rt none c = some child := hchild
    rw [Function.update_of_ne hne] at hchild
    exact hchild

/-- What `remove` must do for the loop. -/
def KeepsApart (remove : Tree → Pid → Option Tree) : Prop :=
  ∀ s pid s' rest, remove s pid = some s' → Apart s rest → Apart s' rest ∧ Shrinks s s'

theorem orphanLoop_apart {remove : Tree → Pid → Option Tree} (hremove : KeepsApart remove)
    (hloop : orphanLoop remove cs s = some s') (h : Apart s (cs ++ rest)) :
    Apart s' rest ∧ Shrinks s s' := by
  induction cs generalizing s with
  | nil => exact Option.some.inj hloop ▸ ⟨h, Shrinks.refl s⟩
  | cons c cs ih =>
    obtain ⟨child, -, hloop⟩ := Option.bind_eq_some_iff.mp hloop
    have horphan : Apart (orphan s c) (cs ++ rest) := h.orphan
    split at hloop
    · obtain ⟨s₁, hs₁, hloop⟩ := Option.bind_eq_some_iff.mp hloop
      obtain ⟨h₁, hshrinks₁⟩ := hremove _ _ _ _ hs₁ horphan
      have hshrinks := (shrinks_orphan s c).trans hshrinks₁
      split at hloop
      · obtain rfl := Option.some.inj hloop
        exact ⟨h₁.fewer (List.sublist_append_right cs rest), hshrinks⟩
      · obtain ⟨h', hshrinks'⟩ := ih hloop h₁
        exact ⟨h', hshrinks.trans hshrinks'⟩
    · obtain ⟨h', hshrinks'⟩ := ih hloop horphan
      exact ⟨h', (shrinks_orphan s c).trans hshrinks'⟩

theorem removeSlaveIn_apart (n : Nat) : KeepsApart (removeSlaveIn n) := by
  induction n with
  | zero =>
    intro s pid s' rest hs'
    cases hs'
  | succ n ih =>
    intro s pid s' rest hs' h
    obtain ⟨rt, hrt, hs'⟩ := Option.bind_eq_some_iff.mp hs'
    obtain ⟨slave, hslave, hs'⟩ := Option.bind_eq_some_iff.mp hs'
    obtain ⟨s₁, hs₁, hs'⟩ := Option.bind_eq_some_iff.mp hs'
    obtain rfl := Option.some.inj hs'
    obtain ⟨h₁, hshrinks₁⟩ := orphanLoop_apart ih hs₁ (h.unlink ⟨findSlave_mem hrt, hslave⟩)
    have hgone := not_mem_unlink h.nodup hshrinks₁
    exact ⟨h₁.free hgone, ((shrinks_unlink s rt).trans hshrinks₁).trans (shrinks_free hgone)⟩

/-- Whatever is removed, no record gets into two lists. -/
theorem removeSlave_apart (hs' : removeSlave s pid = some s') (h : Apart s rest) :
    Apart s' rest ∧ Shrinks s s' :=
  removeSlaveIn_apart _ s pid s' rest hs' h

-- ---------------------------------------------------------------------------
-- Whole trees
-- ---------------------------------------------------------------------------

/-- Nothing is missing: every child is listed, and every listed record that is no orphan is a
child of a listed one and is the one that is found by its pid. -/
structure Whole (s : Tree) (rest : List TaskRef) : Prop where
  alloc : ∀ t ∈ s.firstTask, ∃ task, s.tasks t = some task
  pidNe : ∀ t task, Listed s t task → task.pid ≠ 1
  childListed : ∀ t task, Listed s t task → ∀ c ∈ task.childp, c ∈ s.firstTask
  restListed : ∀ c ∈ rest, ∃ child, Listed s c child ∧ child.ppid ≠ 1
  owned : ∀ t task, Listed s t task → task.ppid ≠ 1 →
    t ∈ rest ∨ ∃ u owner, Listed s u owner ∧ t ∈ owner.childp
  found : ∀ t task, Listed s t task → task.ppid ≠ 1 → findSlave s task.pid = some t

/-- The next child of the loop becomes an orphan. -/
theorem Whole.orphan (h : Whole s (c :: rest)) (hapart : Apart s (c :: rest)) :
    Whole (orphan s c) rest := by
  have hshrinks := shrinks_orphan s c
  have hlisted : ∀ t task', Listed (Wait.orphan s c) t task' → t ≠ c → Listed s t task' := by
    intro t task' ht hne
    have htask := ht.2
    rw [Wait.orphan, Tree.modify_of_ne s _ hne] at htask
    exact ⟨ht.1, htask⟩
  have hback : ∀ t task, Listed s t task → t ≠ c → Listed (Wait.orphan s c) t task := by
    intro t task ht hne
    refine ⟨ht.1, ?_⟩
    rw [Wait.orphan, Tree.modify_of_ne s _ hne]
    exact ht.2
  have hne : ∀ t task', Listed (Wait.orphan s c) t task' → task'.ppid ≠ 1 → t ≠ c := by
    rintro t task' ht hppid rfl
    have htask := ht.2
    rw [Wait.orphan, Tree.modify_self] at htask
    obtain ⟨task, -, rfl⟩ := Option.map_eq_some_iff.mp htask
    exact hppid rfl
  refine ⟨fun t ht => ?_, fun t task' ht => ?_, fun t task' ht d hd => ?_, fun d hd => ?_,
    fun t task' ht hppid => ?_, fun t task' ht hppid => ?_⟩
  · obtain ⟨task, htask⟩ := h.alloc t ht
    obtain ⟨task', htask', -⟩ := hshrinks.tasks t ht task htask
    exact ⟨task', htask'⟩
  · obtain ⟨task, ht, hleft⟩ := hshrinks.listed ht
    exact hleft.pid_eq ▸ h.pidNe t task ht
  · obtain ⟨task, ht, hleft⟩ := hshrinks.listed ht
    exact h.childListed t task ht d (hleft.childp_eq ▸ hd)
  · obtain ⟨child, hchild, hppid⟩ := h.restListed d (List.mem_cons_of_mem c hd)
    have hdc : d ≠ c := by
      rintro rfl
      exact (List.nodup_cons.mp hapart.restOnce).1 hd
    exact ⟨child, hback d child hchild hdc, hppid⟩
  · have htc := hne t task' ht hppid
    rcases h.owned t task' (hlisted t task' ht htc) hppid with hrest | ⟨u, owner, hu, hmem⟩
    · exact Or.inl ((List.mem_cons.mp hrest).resolve_left htc)
    · obtain ⟨owner', howner', hleft⟩ := hshrinks.tasks u hu.1 owner hu.2
      exact Or.inr ⟨u, owner', ⟨hu.1, howner'⟩, hleft.childp_eq ▸ hmem⟩
  · have htc := hne t task' ht hppid
    exact hshrinks.findSlave hapart.nodup (h.found t task' (hlisted t task' ht htc) hppid) ht.1

/-- A record that is taken from the list leaves its children to the loop. -/
theorem Whole.unlink (h : Whole s rest) (hapart : Apart s rest) (hrt : Listed s rt slave)
    (horphan : slave.ppid = 1) :
    Whole { s with firstTask := s.firstTask.erase rt } (slave.childp ++ rest) := by
  have hmem : ∀ {t}, t ∈ s.firstTask.erase rt ↔ t ≠ rt ∧ t ∈ s.firstTask :=
    hapart.nodup.mem_erase_iff
  have hold : ∀ t task, Listed { s with firstTask := s.firstTask.erase rt } t task →
      Listed s t task := fun t task ht => ⟨(hmem.mp ht.1).2, ht.2⟩
  have hppid : ∀ c child, Listed s c child → child.ppid ≠ 1 →
      Listed { s with firstTask := s.firstTask.erase rt } c child := by
    intro c child hc hne
    refine ⟨hmem.mpr ⟨?_, hc.1⟩, hc.2⟩
    rintro rfl
    obtain rfl := Option.some.inj (hrt.2.symm.trans hc.2)
    exact hne horphan
  have hchild : ∀ t task, Listed s t task → ∀ c ∈ task.childp,
      ∃ child, Listed s c child ∧ child.ppid ≠ 1 := by
    intro t task ht c hc
    obtain ⟨child, hchild⟩ := h.alloc c (h.childListed t task ht c hc)
    exact ⟨child, ⟨h.childListed t task ht c hc, hchild⟩,
      hapart.ppid t task ht c hc child hchild ▸ h.pidNe t task ht⟩
  refine ⟨fun t ht => h.alloc t (hmem.mp ht).2, fun t task ht => h.pidNe t task (hold t task ht),
    fun t task ht c hc => ?_, fun c hc => ?_, fun t task ht hne => ?_, fun t task ht hne => ?_⟩
  · obtain ⟨child, hc, hne⟩ := hchild t task (hold t task ht) c hc
    exact (hppid c child hc hne).1
  · have hc : ∃ child, Listed s c child ∧ child.ppid ≠ 1 := by
      rcases List.mem_append.mp hc with hc | hc
      · exact hchild rt slave hrt c hc
      · exact h.restListed c hc
    obtain ⟨child, hc, hne⟩ := hc
    exact ⟨child, hppid c child hc hne, hne⟩
  · rcases h.owned t task (hold t task ht) hne with hrest | ⟨u, owner, hu, hmemu⟩
    · exact Or.inl (List.mem_append_right _ hrest)
    · by_cases hut : u = rt
      · subst hut
        obtain rfl := Option.some.inj (hrt.2.symm.trans hu.2)
        exact Or.inl (List.mem_append_left _ hmemu)
      · exact Or.inr ⟨u, owner, ⟨hmem.mpr ⟨hut, hu.1⟩, hu.2⟩, hmemu⟩
  · exact (shrinks_unlink s rt).findSlave hapart.nodup (h.found t task (hold t task ht) hne) ht.1

theorem Whole.free (h : Whole s rest) (hapart : Apart s rest) (hrt : rt ∉ s.firstTask) :
    Whole { s with tasks := Function.update s.tasks rt none } rest := by
  have hlisted : ∀ t task, Listed { s with tasks := Function.update s.tasks rt none } t task ↔
      Listed s t task := by
    intro t task
    refine and_congr_right fun ht => ?_
    have hne : t ≠ rt := fun hc => hrt (hc ▸ ht)
    show Function.update s.tasks rt none t = some task ↔ _
    rw [Function.update_of_ne hne]
  refine ⟨fun t ht => ?_, fun t task ht => h.pidNe t task ((hlisted t task).mp ht),
    fun t task ht => h.childListed t task ((hlisted t task).mp ht), fun c hc => ?_,
    fun t task ht hppid => ?_, fun t task ht hppid => ?_⟩
  · obtain ⟨task, htask⟩ := h.alloc t ht
    exact ⟨task, ((hlisted t task).mpr ⟨ht, htask⟩).2⟩
  · obtain ⟨child, hc, hppid⟩ := h.restListed c hc
    exact ⟨child, (hlisted c child).mpr hc, hppid⟩
  · rcases h.owned t task ((hlisted t task).mp ht) hppid with hrest | ⟨u, owner, hu, hmem⟩
    · exact Or.inl hrest
    · exact Or.inr ⟨u, owner, (hlisted u owner).mpr hu, hmem⟩
  · exact (shrinks_free hrt).findSlave hapart.nodup
      (h.found t task ((hlisted t task).mp ht) hppid) ht.1

/-- The records that are taken from the list are the one that is removed, and zombies. -/
def Reaps (s : Tree) (gone : TaskRef → Prop) (s' : Tree) : Prop :=
  ∀ t task, Listed s t task → t ∉ s'.firstTask → gone t ∨ task.state = .zombie

theorem Reaps.trans {s'' : Tree} {gone gone' : TaskRef → Prop} (hshrinks : Shrinks s s')
    (h : Reaps s gone s') (h' : Reaps s' gone' s'')
    (hgone : ∀ t task, Listed s t task → gone' t → gone t ∨ task.state = .zombie) :
    Reaps s gone s'' := by
  intro t task ht hno
  by_cases hmem : t ∈ s'.firstTask
  · obtain ⟨task', htask', hleft⟩ := hshrinks.tasks t hmem task ht.2
    rcases h' t task' ⟨hmem, htask'⟩ hno with hg | hz
    · exact hgone t task ht hg
    · exact Or.inr (hleft.state_eq ▸ hz)
  · exact h t task ht hmem

theorem reaps_of_list {gone : TaskRef → Prop} (h : s'.firstTask = s.firstTask) : Reaps s gone s' :=
  fun _ _ ht hno => absurd (h ▸ ht.1) hno

/-- No zombie becomes an orphan. -/
def Spares (s s' : Tree) : Prop :=
  ∀ t task', Listed s' t task' → task'.ppid = 1 → task'.state = .zombie →
    ∃ task, Listed s t task ∧ task.ppid = 1

theorem Spares.trans {s'' : Tree} (hshrinks : Shrinks s' s'') (h : Spares s s')
    (h' : Spares s' s'') : Spares s s'' := by
  intro t task'' ht hppid hz
  obtain ⟨task', ht', hppid'⟩ := h' t task'' ht hppid hz
  obtain ⟨task₁, ht₁, hleft⟩ := hshrinks.listed ht
  obtain rfl := Option.some.inj (ht'.2.symm.trans ht₁.2)
  exact h t task' ht' hppid' (hleft.state_eq ▸ hz)

/-- What `remove` must do for the loop, in trees of at most `n` records. -/
def KeepsWhole (n : Nat) (remove : Tree → Pid → Option Tree) : Prop :=
  ∀ s pid rt slave rest, Apart s rest → Whole s rest → findSlave s pid = some rt →
    Listed s rt slave → slave.ppid = 1 → s.firstTask.length ≤ n →
    ∃ s', remove s pid = some s' ∧ Whole s' rest ∧ Reaps s (· = rt) s' ∧ rt ∉ s'.firstTask ∧
      Spares s s'

/-- Every child of the loop has its record, and every zombie among them is found by its pid. -/
theorem orphanLoop_whole {n : Nat} {remove : Tree → Pid → Option Tree}
    (happrt : KeepsApart remove) (hremove : KeepsWhole n remove) (hapart : Apart s (cs ++ rest))
    (h : Whole s (cs ++ rest)) (hn : s.firstTask.length ≤ n) :
    ∃ s', orphanLoop remove cs s = some s' ∧ Whole s' rest ∧ Reaps s (fun _ => False) s' ∧
      Spares s s' := by
  induction cs generalizing s with
  | nil => exact ⟨s, rfl, h, reaps_of_list rfl, fun t task ht hppid _ => ⟨task, ht, hppid⟩⟩
  | cons c cs ih =>
    obtain ⟨child, hc, hppid⟩ := h.restListed c List.mem_cons_self
    have hapart₁ : Apart (orphan s c) (cs ++ rest) := hapart.orphan
    have h₁ : Whole (orphan s c) (cs ++ rest) := h.orphan hapart
    have hshrinks₁ := shrinks_orphan s c
    by_cases hz : child.state = .zombie
    · have hfind : findSlave (orphan s c) child.pid = some c :=
        hshrinks₁.findSlave hapart.nodup (h.found c child hc hppid) hc.1
      have hc₁ : Listed (orphan s c) c { child with ppid := 1 } := by
        refine ⟨hc.1, ?_⟩
        rw [orphan, Tree.modify_self, hc.2]
        rfl
      obtain ⟨s₂, hs₂, h₂, hreaps₂, hgone₂, hspares₂⟩ :=
        hremove _ _ _ _ _ hapart₁ h₁ hfind hc₁ rfl hn
      obtain ⟨hapart₂, hshrinks₂⟩ := happrt _ _ _ _ hs₂ hapart₁
      have hshrinks : Shrinks s s₂ := hshrinks₁.trans hshrinks₂
      have hreaps : Reaps s (fun _ => False) s₂ := by
        refine Reaps.trans hshrinks₁ (reaps_of_list rfl) hreaps₂ fun t task ht htc => ?_
        subst htc
        obtain rfl := Option.some.inj (hc.2.symm.trans ht.2)
        exact Or.inr hz
      have hspares : Spares s s₂ := by
        intro t task' ht hone hz'
        obtain ⟨task, ht₁, hone₁⟩ := hspares₂ t task' ht hone hz'
        have htc : t ≠ c := fun heq => hgone₂ (heq ▸ ht.1)
        obtain ⟨task₀, ht₀, rfl⟩ := listed_orphan.mp ht₁
        rw [if_neg htc] at hone₁
        exact ⟨task₀, ht₀, hone₁⟩
      have hloop : orphanLoop remove (c :: cs) s =
          if s₂.firstTask = [] then some s₂ else orphanLoop remove cs s₂ := by
        rw [orphanLoop, hc.2]
        exact (if_pos hz).trans (by rw [hs₂]; rfl)
      by_cases hempty : s₂.firstTask = []
      · -- where no record is left there are no more children
        refine ⟨s₂, hloop.trans (if_pos hempty), ?_, hreaps, hspares⟩
        have hnone : ∀ d, d ∉ cs ++ rest := by
          intro d hd
          obtain ⟨task, hd, -⟩ := h₂.restListed d hd
          exact absurd (hempty ▸ hd.1) List.not_mem_nil
        have hcs : cs = [] := List.eq_nil_iff_forall_not_mem.mpr fun d hd =>
          hnone d (List.mem_append_left _ hd)
        rw [hcs] at h₂
        exact h₂
      · have hn₂ : s₂.firstTask.length ≤ n := Nat.le_trans hshrinks.sublist.length_le hn
        obtain ⟨s', hs', h', hreaps', hspares'⟩ := ih hapart₂ h₂ hn₂
        obtain ⟨-, hshrinks'⟩ := orphanLoop_apart happrt hs' hapart₂
        refine ⟨s', hloop.trans ((if_neg hempty).trans hs'), h', ?_, hspares.trans hshrinks' hspares'⟩
        exact Reaps.trans hshrinks hreaps hreaps' fun _ _ _ hf => hf.elim
    · obtain ⟨s', hs', h', hreaps', hspares'⟩ := ih hapart₁ h₁ hn
      obtain ⟨-, hshrinks'⟩ := orphanLoop_apart happrt hs' hapart₁
      refine ⟨s', ?_, h', ?_, ?_⟩
      · rw [orphanLoop, hc.2]
        exact (if_neg hz).trans hs'
      · exact Reaps.trans hshrinks₁ (reaps_of_list rfl) hreaps' fun _ _ _ hf => hf.elim
      · -- the new orphan is no zombie
        have hspares : Spares s (orphan s c) := by
          intro t task' ht hone hz'
          obtain ⟨task₀, ht₀, rfl⟩ := listed_orphan.mp ht
          by_cases htc : t = c
          · subst htc
            obtain rfl := Option.some.inj (hc.2.symm.trans ht₀.2)
            rw [if_pos rfl] at hz'
            exact absurd hz' hz
          · rw [if_neg htc] at hone
            exact ⟨task₀, ht₀, hone⟩
        exact hspares.trans hshrinks' hspares'

theorem removeSlaveIn_whole (n : Nat) : KeepsWhole n (removeSlaveIn n) := by
  induction n with
  | zero =>
    intro s pid rt slave rest hapart h hfind hrt horphan hn
    have hempty : s.firstTask = [] := List.length_eq_zero_iff.mp (Nat.le_zero.mp hn)
    exact absurd (hempty ▸ hrt.1) List.not_mem_nil
  | succ n ih =>
    intro s pid rt slave rest hapart h hfind hrt horphan hn
    have hapart₁ := hapart.unlink hrt
    have hlength : (s.firstTask.erase rt).length ≤ n := by
      rw [List.length_erase_of_mem hrt.1]
      omega
    obtain ⟨s₁, hs₁, h₁, hreaps₁, hspares₁⟩ := orphanLoop_whole (removeSlaveIn_apart n) ih hapart₁
      (h.unlink hapart hrt horphan) hlength
    obtain ⟨hapart₂, hshrinks₁⟩ := orphanLoop_apart (removeSlaveIn_apart n) hs₁ hapart₁
    have hgone := not_mem_unlink hapart.nodup hshrinks₁
    refine ⟨_, ?_, h₁.free hapart₂ hgone, fun t task ht hno => ?_, hgone, fun t task ht => ?_⟩
    · rw [removeSlaveIn, hfind]
      simp only [Option.bind_eq_bind, Option.bind_some, hrt.2, hs₁]
      rfl
    · by_cases htr : t = rt
      · exact Or.inl htr
      · have hmem : t ∈ s.firstTask.erase rt := (hapart.nodup.mem_erase_iff).mpr ⟨htr, ht.1⟩
        exact Or.inr ((hreaps₁ t task ⟨hmem, ht.2⟩ hno).resolve_left id)
    · intro hone hz
      have hne : t ≠ rt := fun heq => hgone (heq ▸ ht.1)
      obtain ⟨task₀, ht₀, hone₀⟩ :=
        hspares₁ t task ⟨ht.1, (Function.update_of_ne hne ..).symm.trans ht.2⟩ hone hz
      exact ⟨task₀, ⟨(hapart.nodup.mem_erase_iff.mp ht₀.1).2, ht₀.2⟩, hone₀⟩

/-- A removal in a whole tree is defined, and leaves it whole. -/
theorem removeSlave_whole (hapart : Apart s rest) (h : Whole s rest)
    (hfind : findSlave s pid = some rt) (hrt : Listed s rt slave) (horphan : slave.ppid = 1) :
    ∃ s', removeSlave s pid = some s' ∧ Whole s' rest ∧ Reaps s (· = rt) s' ∧ rt ∉ s'.firstTask ∧
      Spares s s' :=
  removeSlaveIn_whole _ s pid rt slave rest hapart h hfind hrt horphan (Nat.le_refl _)

-- ---------------------------------------------------------------------------
-- Changes of other fields
-- ---------------------------------------------------------------------------

/-- A change of a record that is none of the tree. -/
structure Neutral (f : Task → Task) : Prop where
  pid : ∀ task, (f task).pid = task.pid
  ppid : ∀ task, (f task).ppid = task.ppid
  childp : ∀ task, (f task).childp = task.childp

/-- A record and the one that a neutral change makes of it. -/
def SameLinks (task task' : Task) : Prop :=
  task'.pid = task.pid ∧ task'.ppid = task.ppid ∧ task'.childp = task.childp

theorem Neutral.listed {f : Task → Task} (hf : Neutral f) (h : Listed (s.modify t f) u task) :
    ∃ task₀, Listed s u task₀ ∧ SameLinks task₀ task := by
  obtain ⟨task₀, hu, rfl⟩ := listed_modify.mp h
  refine ⟨task₀, hu, ?_⟩
  split
  · exact ⟨hf.pid task₀, hf.ppid task₀, hf.childp task₀⟩
  · exact ⟨rfl, rfl, rfl⟩

theorem Neutral.back {f : Task → Task} (hf : Neutral f) (t : TaskRef) (h : Listed s u task) :
    ∃ task', Listed (s.modify t f) u task' ∧ SameLinks task task' := by
  refine ⟨if u = t then f task else task, listed_modify.mpr ⟨task, h, rfl⟩, ?_⟩
  split
  · exact ⟨hf.pid task, hf.ppid task, hf.childp task⟩
  · exact ⟨rfl, rfl, rfl⟩

theorem Neutral.pidOf {f : Task → Task} (hf : Neutral f) (s : Tree) (t u : TaskRef) :
    (s.modify t f).pidOf u = s.pidOf u :=
  modify_pidOf hf.pid s t u

theorem Neutral.findSlave {f : Task → Task} (hf : Neutral f) (s : Tree) (t : TaskRef) (pid : Pid) :
    findSlave (s.modify t f) pid = findSlave s pid :=
  modify_findSlave hf.pid s t pid

theorem Apart.modify {f : Task → Task} (hf : Neutral f) (h : Apart s rest) (t : TaskRef) :
    Apart (s.modify t f) rest where
  nodup := h.nodup
  fresh := h.fresh
  freshChild u task hu c hc := by
    obtain ⟨task₀, hu, -, -, hchildp⟩ := hf.listed hu
    exact h.freshChild u task₀ hu c (hchildp ▸ hc)
  ppid u task hu c hc child hchild := by
    obtain ⟨task₀, hu₀, hpid, -, hchildp⟩ := hf.listed hu
    rw [hpid]
    by_cases hct : c = t
    · subst hct
      rw [Tree.modify_self] at hchild
      obtain ⟨child₀, hchild₀, rfl⟩ := Option.map_eq_some_iff.mp hchild
      rw [hf.ppid]
      exact h.ppid u task₀ hu₀ c (hchildp ▸ hc) child₀ hchild₀
    · rw [Tree.modify_of_ne s f hct] at hchild
      exact h.ppid u task₀ hu₀ c (hchildp ▸ hc) child hchild
  once u task hu := by
    obtain ⟨task₀, hu, -, -, hchildp⟩ := hf.listed hu
    exact hchildp ▸ h.once u task₀ hu
  apart u task hu u' task' hu' c hc hc' := by
    obtain ⟨task₀, hu, -, -, hchildp⟩ := hf.listed hu
    obtain ⟨task₀', hu', -, -, hchildp'⟩ := hf.listed hu'
    exact h.apart u task₀ hu u' task₀' hu' c (hchildp ▸ hc) (hchildp' ▸ hc')
  restApart u task hu c hc := by
    obtain ⟨task₀, hu, -, -, hchildp⟩ := hf.listed hu
    exact hchildp ▸ h.restApart u task₀ hu c hc
  restOnce := h.restOnce

theorem Whole.modify {f : Task → Task} (hf : Neutral f) (h : Whole s rest) (t : TaskRef) :
    Whole (s.modify t f) rest where
  alloc u hu := by
    obtain ⟨task, htask⟩ := h.alloc u hu
    have hlisted : Listed s u task := ⟨hu, htask⟩
    obtain ⟨task', hu', -⟩ := hf.back t hlisted
    exact ⟨task', hu'.2⟩
  pidNe u task hu := by
    obtain ⟨task₀, hu, hpid, -, -⟩ := hf.listed hu
    exact hpid ▸ h.pidNe u task₀ hu
  childListed u task hu c hc := by
    obtain ⟨task₀, hu, -, -, hchildp⟩ := hf.listed hu
    exact h.childListed u task₀ hu c (hchildp ▸ hc)
  restListed c hc := by
    obtain ⟨child, hchild, hne⟩ := h.restListed c hc
    obtain ⟨child', hchild', -, hppid, -⟩ := hf.back t hchild
    exact ⟨child', hchild', hppid ▸ hne⟩
  owned u task hu hne := by
    obtain ⟨task₀, hu, -, hppid, -⟩ := hf.listed hu
    rcases h.owned u task₀ hu (hppid ▸ hne) with hrest | ⟨v, owner, hv, hmem⟩
    · exact Or.inl hrest
    · obtain ⟨owner', hv', -, -, hchildp⟩ := hf.back t hv
      exact Or.inr ⟨v, owner', hv', hchildp ▸ hmem⟩
  found u task hu hne := by
    obtain ⟨task₀, hu, hpid, hppid, -⟩ := hf.listed hu
    rw [hf.findSlave, hpid]
    exact h.found u task₀ hu (hppid ▸ hne)

-- ---------------------------------------------------------------------------
-- remove_child
-- ---------------------------------------------------------------------------

/-- The child is taken from the list of its parent, before it becomes an orphan. -/
def detach (s : Tree) (t c : TaskRef) : Tree :=
  s.modify t fun slave => { slave with childp := slave.childp.erase c }

theorem removeChild_eq (hslave : s.tasks t = some slave) (hc : findChild s pid slave.childp = some c) :
    removeChild s t pid = some (orphan (detach s t c) c) := by
  have hcomm : (orphan s c).modify t (fun slave => { slave with childp := slave.childp.erase c }) =
      orphan (detach s t c) c := by
    simp only [orphan, detach, Tree.modify, Tree.mk.injEq, and_true]
    funext u
    by_cases hut : u = t
    · by_cases huc : u = c
      · subst hut
        subst huc
        simp [Function.comp_def]
      · subst hut
        simp [huc]
    · by_cases huc : u = c
      · subst huc
        simp [hut]
      · simp [hut, huc]
  rw [removeChild, hslave]
  simp only [Option.bind_eq_bind, Option.bind_some, hc]
  exact congrArg some hcomm

theorem removeChild_spec (h : removeChild s t pid = some s') :
    ∃ slave c, s.tasks t = some slave ∧ c ∈ slave.childp ∧ s.pidOf c = some pid ∧
      s' = orphan (detach s t c) c := by
  obtain ⟨slave, hslave, h'⟩ := Option.bind_eq_some_iff.mp h
  obtain ⟨c, hc, -⟩ := Option.bind_eq_some_iff.mp h'
  obtain ⟨child, hchild, hpid⟩ := findChild_pid hc
  rw [removeChild_eq hslave hc] at h
  exact ⟨slave, c, hslave, findChild_mem hc, by rw [Tree.pidOf, hchild, ← hpid]; rfl,
    (Option.some.inj h).symm⟩

theorem Apart.detach (h : Apart s rest) (ht : Listed s t slave) (hc : c ∈ slave.childp) :
    Apart (detach s t c) (c :: rest) := by
  -- the lists of the records that are listed now are parts of the ones before
  have hold : ∀ u task', Listed (Wait.detach s t c) u task' → ∃ task, Listed s u task ∧
      task'.pid = task.pid ∧ task'.childp.Sublist task.childp ∧ c ∉ task'.childp := by
    intro u task' hu
    obtain ⟨task, hu₀, rfl⟩ := listed_modify.mp hu
    by_cases hut : u = t
    · subst hut
      obtain rfl := Option.some.inj (ht.2.symm.trans hu₀.2)
      rw [if_pos rfl]
      exact ⟨slave, hu₀, rfl, List.erase_sublist, fun hmem =>
        ((h.once u slave ht).mem_erase_iff.mp hmem).1 rfl⟩
    · rw [if_neg hut]
      exact ⟨task, hu₀, rfl, .refl _, fun hmem => hut (h.apart u task hu₀ t slave ht c hmem hc)⟩
  refine ⟨h.nodup, h.fresh, fun u task' hu d hd => ?_, fun u task' hu d hd child hchild => ?_,
    fun u task' hu => ?_, fun u task' hu v other hv d hd hd' => ?_, fun u task' hu d hd => ?_, ?_⟩
  · obtain ⟨task, hu, -, hsub, -⟩ := hold u task' hu
    exact h.freshChild u task hu d (hsub.subset hd)
  · obtain ⟨task, hu, hpid, hsub, -⟩ := hold u task' hu
    have hchild₀ : ∃ child₀, s.tasks d = some child₀ ∧ child.ppid = child₀.ppid := by
      by_cases hdt : d = t
      · subst hdt
        rw [Wait.detach, Tree.modify_self] at hchild
        obtain ⟨child₀, hchild₀, rfl⟩ := Option.map_eq_some_iff.mp hchild
        exact ⟨child₀, hchild₀, rfl⟩
      · rw [Wait.detach, Tree.modify_of_ne s _ hdt] at hchild
        exact ⟨child, hchild, rfl⟩
    obtain ⟨child₀, hchild₀, hppid⟩ := hchild₀
    rw [hpid, hppid]
    exact h.ppid u task hu d (hsub.subset hd) child₀ hchild₀
  · obtain ⟨task, hu, -, hsub, -⟩ := hold u task' hu
    exact (h.once u task hu).sublist hsub
  · obtain ⟨task, hu, -, hsub, -⟩ := hold u task' hu
    obtain ⟨task₁, hv, -, hsub₁, -⟩ := hold v other hv
    exact h.apart u task hu v task₁ hv d (hsub.subset hd) (hsub₁.subset hd')
  · obtain ⟨task, hu, -, hsub, hnot⟩ := hold u task' hu
    rcases List.mem_cons.mp hd with rfl | hd
    · exact hnot
    · exact fun hmem => h.restApart u task hu d hd (hsub.subset hmem)
  · exact List.nodup_cons.mpr ⟨fun hmem => h.restApart t slave ht c hmem hc, h.restOnce⟩

theorem detach_pidOf (s : Tree) (t c u : TaskRef) : (detach s t c).pidOf u = s.pidOf u := by
  refine modify_pidOf ?_ s t u
  exact fun _ => rfl

theorem detach_findSlave (s : Tree) (t c : TaskRef) (pid : Pid) :
    findSlave (detach s t c) pid = findSlave s pid := by
  refine modify_findSlave ?_ s t pid
  exact fun _ => rfl

theorem orphan_pidOf (s : Tree) (c u : TaskRef) : (orphan s c).pidOf u = s.pidOf u := by
  refine modify_pidOf ?_ s c u
  exact fun _ => rfl

theorem orphan_findSlave (s : Tree) (c : TaskRef) (pid : Pid) :
    findSlave (orphan s c) pid = findSlave s pid := by
  refine modify_findSlave ?_ s c pid
  exact fun _ => rfl

theorem Whole.detach (h : Whole s rest) (hapart : Apart s rest) (ht : Listed s t slave)
    (hc : c ∈ slave.childp) : Whole (detach s t c) (c :: rest) := by
  have hback : ∀ u task, Listed s u task → ∃ task', Listed (Wait.detach s t c) u task' ∧
      task'.ppid = task.ppid ∧ ∀ d ∈ task.childp, d ≠ c → d ∈ task'.childp := by
    intro u task hu
    refine ⟨_, listed_modify.mpr ⟨task, hu, rfl⟩, ?_⟩
    split
    · exact ⟨rfl, fun d hd hdc => (List.mem_erase_of_ne hdc).mpr hd⟩
    · exact ⟨rfl, fun d hd _ => hd⟩
  have hold : ∀ u task', Listed (Wait.detach s t c) u task' → ∃ task, Listed s u task ∧
      task'.pid = task.pid ∧ task'.ppid = task.ppid ∧ task'.childp.Sublist task.childp := by
    intro u task' hu
    obtain ⟨task, hu₀, rfl⟩ := listed_modify.mp hu
    refine ⟨task, hu₀, ?_⟩
    split
    · exact ⟨rfl, rfl, List.erase_sublist⟩
    · exact ⟨rfl, rfl, .refl _⟩
  refine ⟨fun u hu => ?_, fun u task' hu => ?_, fun u task' hu d hd => ?_, fun d hd => ?_,
    fun u task' hu hne => ?_, fun u task' hu hne => ?_⟩
  · obtain ⟨task, htask⟩ := h.alloc u hu
    have hlisted : Listed s u task := ⟨hu, htask⟩
    obtain ⟨task', hu', -⟩ := hback u task hlisted
    exact ⟨task', hu'.2⟩
  · obtain ⟨task, hu, hpid, -⟩ := hold u task' hu
    exact hpid ▸ h.pidNe u task hu
  · obtain ⟨task, hu, -, -, hsub⟩ := hold u task' hu
    exact h.childListed u task hu d (hsub.subset hd)
  · have hd : ∃ child, Listed s d child ∧ child.ppid ≠ 1 := by
      rcases List.mem_cons.mp hd with rfl | hd
      · have hmem := h.childListed t slave ht d hc
        obtain ⟨child, hchild⟩ := h.alloc d hmem
        exact ⟨child, ⟨hmem, hchild⟩, hapart.ppid t slave ht d hc child hchild ▸ h.pidNe t slave ht⟩
      · exact h.restListed d hd
    obtain ⟨child, hchild, hne⟩ := hd
    obtain ⟨child', hchild', hppid, -⟩ := hback d child hchild
    exact ⟨child', hchild', hppid ▸ hne⟩
  · obtain ⟨task, hu, -, hppid, -⟩ := hold u task' hu
    by_cases huc : u = c
    · exact Or.inl (huc ▸ List.mem_cons_self)
    · rcases h.owned u task hu (hppid ▸ hne) with hrest | ⟨v, owner, hv, hmem⟩
      · exact Or.inl (List.mem_cons_of_mem c hrest)
      · obtain ⟨owner', hv', -, hchildp⟩ := hback v owner hv
        exact Or.inr ⟨v, owner', hv', hchildp u hmem huc⟩
  · obtain ⟨task, hu, hpid, hppid, -⟩ := hold u task' hu
    rw [detach_findSlave, hpid]
    exact h.found u task hu (hppid ▸ hne)

/-- `remove_child` of a listed record. -/
theorem removeChild_apart (h : Apart s []) (ht : t ∈ s.firstTask)
    (hs' : removeChild s t pid = some s') : Apart s' [] := by
  obtain ⟨slave, c, hslave, hc, -, rfl⟩ := removeChild_spec hs'
  have hlisted : Listed s t slave := ⟨ht, hslave⟩
  exact (h.detach hlisted hc).orphan

/-- In a whole tree the search finds the child, if there is one with the pid. -/
theorem removeChild_whole (h : Whole s []) (hapart : Apart s []) (ht : Listed s t slave)
    (hc : c ∈ slave.childp) (hpid : s.pidOf c = some pid) :
    removeChild s t pid = some (orphan (detach s t c) c) ∧
      Whole (orphan (detach s t c) c) [] := by
  have hchild : ∀ d ∈ slave.childp, ∃ child, s.tasks d = some child := fun d hd =>
    h.alloc d (h.childListed t slave ht d hd)
  obtain ⟨d, hd⟩ := findChild_isSome hchild hc hpid
  -- children are found by their pids, so the child that is found is the one
  have hfound : ∀ e ∈ slave.childp, s.pidOf e = some pid → findSlave s pid = some e := by
    intro e he hepid
    obtain ⟨child, hchild⟩ := hchild e he
    have hlisted : Listed s e child := ⟨h.childListed t slave ht e he, hchild⟩
    have hne : child.ppid ≠ 1 := hapart.ppid t slave ht e he child hchild ▸ h.pidNe t slave ht
    rw [Tree.pidOf, hchild] at hepid
    exact Option.some.inj hepid ▸ h.found e child hlisted hne
  have hdpid : s.pidOf d = some pid := by
    obtain ⟨child, hchild, hpid⟩ := findChild_pid hd
    rw [Tree.pidOf, hchild, ← hpid]
    rfl
  have hdc : d = c := Option.some.inj
    ((hfound d (findChild_mem hd) hdpid).symm.trans (hfound c hc hpid))
  subst hdc
  exact ⟨removeChild_eq ht.2 hd, (h.detach hapart ht hc).orphan (hapart.detach ht hc)⟩

-- ---------------------------------------------------------------------------
-- after_fork
-- ---------------------------------------------------------------------------

/-- `after_fork` adds the child to both lists. -/
def forkTree (s : Tree) (t : TaskRef) (slave : Task) (pid : Pid) : Tree :=
  addChild (addSlave s pid slave) t s.nextTask

theorem addSlave_tasks_of_ne (s : Tree) (pid : Pid) (slave : Task) (h : u ≠ s.nextTask) :
    (addSlave s pid slave).tasks u = s.tasks u :=
  Function.update_of_ne h ..

/-- A child is put at the head of the list. -/
def withChild (c : TaskRef) (slave : Task) : Task := { slave with childp := c :: slave.childp }

theorem forkTree_tasks_new (slave : Task) (pid : Pid) (htn : t ≠ s.nextTask) :
    (forkTree s t slave pid).tasks s.nextTask = some (newSlave pid slave) := by
  rw [forkTree, addChild, Tree.modify_of_ne _ _ (Ne.symm htn)]
  exact Function.update_self ..

theorem forkTree_tasks_old (slave : Task) (pid : Pid) (hun : u ≠ s.nextTask) :
    (forkTree s t slave pid).tasks u =
      if u = t then (s.tasks u).map (withChild s.nextTask) else s.tasks u := by
  rw [forkTree, addChild]
  by_cases hut : u = t
  · subst hut
    rw [Tree.modify_self, addSlave_tasks_of_ne s pid slave hun, if_pos rfl]
    rfl
  · rw [Tree.modify_of_ne _ _ hut, addSlave_tasks_of_ne s pid slave hun, if_neg hut]

theorem forkTree_pidOf_new (slave : Task) (pid : Pid) (htn : t ≠ s.nextTask) :
    (forkTree s t slave pid).pidOf s.nextTask = some pid := by
  rw [Tree.pidOf, forkTree_tasks_new slave pid htn]
  rfl

theorem forkTree_pidOf_old (slave : Task) (pid : Pid) (hun : u ≠ s.nextTask) :
    (forkTree s t slave pid).pidOf u = s.pidOf u := by
  rw [Tree.pidOf, Tree.pidOf, forkTree_tasks_old slave pid hun]
  split
  · rw [Option.map_map]
    rfl
  · rfl

/-- The records after `after_fork`: the new one, and the ones before, of which the parent has a
new child. -/
theorem forkTree_listed (hfresh : ∀ t ∈ s.firstTask, t < s.nextTask) (ht : t ∈ s.firstTask)
    (slave : Task) (pid : Pid) :
    Listed (forkTree s t slave pid) u task ↔
      (u = s.nextTask ∧ task = newSlave pid slave) ∨
        ∃ task₀, Listed s u task₀ ∧ task = if u = t then withChild s.nextTask task₀ else task₀ := by
  have htn : t ≠ s.nextTask := Nat.ne_of_lt (hfresh t ht)
  by_cases hun : u = s.nextTask
  · subst hun
    have hnot : s.nextTask ∉ s.firstTask := fun hmem => Nat.lt_irrefl _ (hfresh _ hmem)
    rw [Listed, forkTree_tasks_new slave pid htn]
    constructor
    · rintro ⟨-, heq⟩
      exact Or.inl ⟨rfl, (Option.some.inj heq).symm⟩
    · rintro (⟨-, rfl⟩ | ⟨task₀, hold, -⟩)
      · exact ⟨List.mem_cons_self, rfl⟩
      · exact absurd hold.1 hnot
  · have hmem : u ∈ (forkTree s t slave pid).firstTask ↔ u ∈ s.firstTask :=
      List.mem_cons.trans (or_iff_right hun)
    rw [Listed, forkTree_tasks_old slave pid hun, hmem]
    by_cases hut : u = t
    · simp only [if_pos hut, Option.map_eq_some_iff]
      constructor
      · rintro ⟨hu, task₀, htask₀, rfl⟩
        exact Or.inr ⟨task₀, ⟨hu, htask₀⟩, rfl⟩
      · rintro (⟨heq, -⟩ | ⟨task₀, ⟨hu, htask₀⟩, rfl⟩)
        · exact absurd heq hun
        · exact ⟨hu, task₀, htask₀, rfl⟩
    · simp only [if_neg hut]
      constructor
      · rintro ⟨hu, htask⟩
        exact Or.inr ⟨task, ⟨hu, htask⟩, rfl⟩
      · rintro (⟨heq, -⟩ | ⟨task₀, ⟨hu, htask₀⟩, rfl⟩)
        · exact absurd heq hun
        · exact ⟨hu, htask₀⟩

/-- The new record comes first. -/
theorem forkTree_findSlave (hfresh : ∀ t ∈ s.firstTask, t < s.nextTask) (ht : t ∈ s.firstTask)
    (slave : Task) (pid p : Pid) : findSlave (forkTree s t slave pid) p =
      if p = pid then some s.nextTask else findSlave s p := by
  have hnew : (forkTree s t slave pid).pidOf s.nextTask = some pid :=
    forkTree_pidOf_new slave pid (Nat.ne_of_lt (hfresh t ht))
  have hold : ∀ u ∈ s.firstTask, (forkTree s t slave pid).pidOf u = s.pidOf u :=
    fun u hu => forkTree_pidOf_old slave pid (Nat.ne_of_lt (hfresh u hu))
  have hfind : findSlave (forkTree s t slave pid) p =
      ((s.nextTask :: s.firstTask).find? fun u => (forkTree s t slave pid).pidOf u == some p) := rfl
  rw [hfind, List.find?_cons, hnew]
  by_cases hp : p = pid
  · subst hp
    rw [if_pos rfl, beq_self_eq_true]
  · have hne : (some pid == some p) = false := by
      simpa using fun hc => hp hc.symm
    rw [if_neg hp, hne]
    exact find_congr fun u hu => by rw [hold u hu]

theorem Apart.fork (h : Apart s []) (ht : Listed s t slave) (pid : Pid) :
    Apart (forkTree s t slave pid) [] := by
  have htn : t ≠ s.nextTask := Nat.ne_of_lt (h.fresh t ht.1)
  -- a child is the new record, or one of before
  have hchild : ∀ u task, Listed (forkTree s t slave pid) u task → ∀ c ∈ task.childp,
      (c = s.nextTask ∧ u = t ∧ task.pid = slave.pid) ∨
        ∃ task₀, Listed s u task₀ ∧ task.pid = task₀.pid ∧ c ∈ task₀.childp := by
    intro u task hu c hc
    rcases (forkTree_listed h.fresh ht.1 slave pid).mp hu with ⟨-, rfl⟩ | ⟨task₀, hold, rfl⟩
    · cases hc
    · by_cases hut : u = t
      · subst hut
        obtain rfl := Option.some.inj (ht.2.symm.trans hold.2)
        rw [if_pos rfl] at hc ⊢
        rcases List.mem_cons.mp hc with rfl | hc
        · exact Or.inl ⟨rfl, rfl, rfl⟩
        · exact Or.inr ⟨slave, hold, rfl, hc⟩
      · rw [if_neg hut] at hc ⊢
        exact Or.inr ⟨task₀, hold, rfl, hc⟩
  have hlt : ∀ u task₀, Listed s u task₀ → s.nextTask ∉ task₀.childp :=
    fun u task₀ hu hc => Nat.lt_irrefl _ (h.freshChild u task₀ hu _ hc)
  refine ⟨?_, fun u hu => ?_, fun u task hu c hc => ?_, fun u task hu c hc child hc' => ?_,
    fun u task hu => ?_, fun u task hu v other hv c hc hc' => ?_,
    fun _ _ _ c hc => absurd hc List.not_mem_nil, List.nodup_nil⟩
  · exact List.nodup_cons.mpr ⟨fun hmem => Nat.lt_irrefl _ (h.fresh _ hmem), h.nodup⟩
  · rcases List.mem_cons.mp hu with rfl | hu
    · exact Nat.lt_succ_self _
    · exact Nat.lt_succ_of_lt (h.fresh u hu)
  · rcases hchild u task hu c hc with ⟨rfl, -, -⟩ | ⟨task₀, hold, -, hc⟩
    · exact Nat.lt_succ_self _
    · exact Nat.lt_succ_of_lt (h.freshChild u task₀ hold c hc)
  · rcases hchild u task hu c hc with ⟨rfl, -, hpid⟩ | ⟨task₀, hold, hpid, hc⟩
    · rw [forkTree_tasks_new slave pid htn] at hc'
      obtain rfl := Option.some.inj hc'
      exact hpid.symm
    · have hcn : c ≠ s.nextTask := fun heq => hlt u task₀ hold (heq ▸ hc)
      rw [forkTree_tasks_old slave pid hcn] at hc'
      rw [hpid]
      by_cases hct : c = t
      · rw [if_pos hct, Option.map_eq_some_iff] at hc'
        obtain ⟨child₀, hchild₀, rfl⟩ := hc'
        exact h.ppid u task₀ hold c hc child₀ hchild₀
      · rw [if_neg hct] at hc'
        exact h.ppid u task₀ hold c hc child hc'
  · rcases (forkTree_listed h.fresh ht.1 slave pid).mp hu with ⟨-, rfl⟩ | ⟨task₀, hold, rfl⟩
    · exact List.nodup_nil
    · split
      · exact List.nodup_cons.mpr ⟨hlt u task₀ hold, h.once u task₀ hold⟩
      · exact h.once u task₀ hold
  · rcases hchild u task hu c hc with ⟨rfl, rfl, -⟩ | ⟨task₀, hold, -, hc⟩
    · rcases hchild v other hv _ hc' with ⟨-, rfl, -⟩ | ⟨task₁, hold₁, -, hc'⟩
      · rfl
      · exact absurd hc' (hlt v task₁ hold₁)
    · rcases hchild v other hv c hc' with ⟨rfl, -, -⟩ | ⟨task₁, hold₁, -, hc'⟩
      · exact absurd hc (hlt u task₀ hold)
      · exact h.apart u task₀ hold v task₁ hold₁ c hc hc'

/-- A fork that returns the pid of no recorded task but orphans leaves the tree whole. -/
theorem Whole.fork (h : Whole s []) (hapart : Apart s []) (ht : Listed s t slave) (hpid : pid ≠ 1)
    (hnew : ∀ u task, Listed s u task → task.pid = pid → task.ppid = 1) :
    Whole (forkTree s t slave pid) [] := by
  have hlisted : ∀ u task, Listed (forkTree s t slave pid) u task ↔
      (u = s.nextTask ∧ task = newSlave pid slave) ∨
        ∃ task₀, Listed s u task₀ ∧ task = if u = t then withChild s.nextTask task₀ else task₀ :=
    fun _ _ => forkTree_listed hapart.fresh ht.1 slave pid
  have hback : ∀ u task₀, Listed s u task₀ → ∃ task, Listed (forkTree s t slave pid) u task ∧
      ∀ c ∈ task₀.childp, c ∈ task.childp := by
    intro u task₀ hu
    refine ⟨_, (hlisted u _).mpr (Or.inr ⟨task₀, hu, rfl⟩), fun c hc => ?_⟩
    split
    · exact List.mem_cons_of_mem _ hc
    · exact hc
  have hsame : ∀ (u : TaskRef) (task₀ : Task),
      (if u = t then withChild s.nextTask task₀ else task₀).pid = task₀.pid ∧
      (if u = t then withChild s.nextTask task₀ else task₀).ppid = task₀.ppid := by
    intro u task₀
    split <;> exact ⟨rfl, rfl⟩
  refine ⟨fun u hu => ?_, fun u task hu => ?_, fun u task hu c hc => ?_,
    fun c hc => absurd hc List.not_mem_nil, fun u task hu hne => ?_, fun u task hu hne => ?_⟩
  · rcases List.mem_cons.mp hu with rfl | hu
    · exact ⟨_, ((hlisted _ _).mpr (Or.inl ⟨rfl, rfl⟩)).2⟩
    · obtain ⟨task₀, htask₀⟩ := h.alloc u hu
      obtain ⟨task, hu, -⟩ := hback u task₀ ⟨hu, htask₀⟩
      exact ⟨task, hu.2⟩
  · rcases (hlisted u task).mp hu with ⟨-, rfl⟩ | ⟨task₀, hold, rfl⟩
    · exact hpid
    · rw [(hsame u task₀).1]
      exact h.pidNe u task₀ hold
  · rcases (hlisted u task).mp hu with ⟨-, rfl⟩ | ⟨task₀, hold, rfl⟩
    · cases hc
    · split at hc
      · rcases List.mem_cons.mp hc with rfl | hc
        · exact List.mem_cons_self
        · exact List.mem_cons_of_mem _ (h.childListed u task₀ hold c hc)
      · exact List.mem_cons_of_mem _ (h.childListed u task₀ hold c hc)
  · refine Or.inr ?_
    rcases (hlisted u task).mp hu with ⟨rfl, rfl⟩ | ⟨task₀, hold, rfl⟩
    · refine ⟨t, _, (hlisted t _).mpr (Or.inr ⟨slave, ht, rfl⟩), ?_⟩
      rw [if_pos rfl]
      exact List.mem_cons_self
    · rw [(hsame u task₀).2] at hne
      rcases h.owned u task₀ hold hne with hrest | ⟨v, owner, hv, hmem⟩
      · exact absurd hrest List.not_mem_nil
      · obtain ⟨owner', hv', hchildp⟩ := hback v owner hv
        exact ⟨v, owner', hv', hchildp u hmem⟩
  · rw [forkTree_findSlave hapart.fresh ht.1]
    rcases (hlisted u task).mp hu with ⟨rfl, rfl⟩ | ⟨task₀, hold, rfl⟩
    · exact if_pos rfl
    · rw [(hsame u task₀).2] at hne
      rw [(hsame u task₀).1, if_neg fun heq => hne (hnew u task₀ hold heq)]
      exact h.found u task₀ hold hne

end Wait

end Okfs
