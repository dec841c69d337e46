import Okfs.Lib.Runs
import Okfs.Vfs.Dcache

/-!
# OKFS — the table of cached paths

`ipath_cache` on its own: `path_insert` and `path_remove`, one after another, and
`cache_find_inode` in between. What the table is for is a list of paths and inodes,
most recent first; where its hash puts the nodes should not matter.

It does matter to `path_remove`. It looks at the first node of the chain without asking
whether there is one, and unlinks the second one through a pointer that only a third
gives a value to (`PathList.Unlinkable`). `path_table_iff`: apart from that the table is
the list.
-/

namespace Okfs

-- ---------------------------------------------------------------------------
-- Operations
-- ---------------------------------------------------------------------------

inductive PathOp
  | insert (path : CStr) (inop : InodeRef)
  | remove (path : CStr)
  deriving DecidableEq, Repr

def pathStep (M : Mount) (v : Vfs) : PathOp → Option Vfs
  | .insert path inop => some (pathInsert M v path inop)
  | .remove path => pathRemove M v path

/-- The paths that are cached, most recent first. -/
abbrev PathList := List (CStr × InodeRef)

namespace PathList

def step (l : PathList) : PathOp → PathList
  | .insert path inop => (path, inop) :: l
  | .remove path => l.eraseP (·.1 = path)

def run (l : PathList) (ops : List PathOp) : PathList := ops.foldl step l

/-- The paths that share a chain with this one. -/
def sameChain (M : Mount) (l : PathList) (path : CStr) : PathList :=
  l.filter fun e => M.nameHash e.1 = M.nameHash path

/-- There is a path in the chain, and the one to be removed is not the second, unless it is the
first as well. -/
def Unlinkable (M : Mount) (l : PathList) (path : CStr) : Prop :=
  ∃ first others, l.sameChain M path = first :: others ∧
    (first.1 = path ∨ ∀ second, others.head? = some second → second.1 ≠ path)

/-- Each path that is removed can be unlinked then. -/
def Unlinks (M : Mount) : PathList → List PathOp → Prop :=
  Runs.Along (fun l op => some (step l op)) fun l op =>
    ∀ path, op = .remove path → l.Unlinkable M path

end PathList

/-- In all states of a run, up to its end, lookups in the table are lookups in the list. In
particular each state is reached: no operation reads a missing pointer. -/
def ActsAsList (M : Mount) (v : Vfs) (l : PathList) (ops : List PathOp) : Prop :=
  ∀ done, done <+: ops → ∃ v', Runs.exec (pathStep M) v done = some v' ∧
    ∀ path, cacheFindInode M v' path = Buckets.lookup (l.run done) path

variable {M : Mount} {v v' : Vfs} {l : PathList} {op : PathOp} {ops : List PathOp} {path : CStr}

-- ---------------------------------------------------------------------------
-- One operation
-- ---------------------------------------------------------------------------

theorem removable_iff_unlinkable (h : Buckets.Holds M.nameHash v.ipathCache l) :
    Removable M v path ↔ l.Unlinkable M path := by
  have hchain : v.ipathCache (M.nameHash path) = l.sameChain M path := h (M.nameHash path)
  rw [Removable, PathList.Unlinkable, hchain]
  match l.sameChain M path with
  | [] => simp
  | [e] => simp
  | e₁ :: e₂ :: es =>
    constructor
    · intro hor
      exact ⟨e₁, e₂ :: es, rfl, hor.imp_right fun hne second hsecond => Option.some.inj hsecond ▸ hne⟩
    · rintro ⟨first, others, heq, hor⟩
      obtain ⟨rfl, rfl⟩ := List.cons.inj heq
      exact hor.imp_right fun hne => hne e₂ rfl

/-- A step that gets through leaves the nodes of the list. -/
theorem pathStep_holds (h : Buckets.Holds M.nameHash v.ipathCache l)
    (hstep : pathStep M v op = some v') : Buckets.Holds M.nameHash v'.ipathCache (l.step op) := by
  cases op with
  | insert path inop =>
    rw [← Option.some.inj hstep]
    exact h.insert
  | remove path =>
    obtain ⟨-, rfl⟩ := pathRemove_eq_some.mp hstep
    exact h.eraseFirst path

/-- It gets through unless it is a removal that cannot be unlinked. -/
theorem pathStep_defined_iff (h : Buckets.Holds M.nameHash v.ipathCache l) :
    (∃ v', pathStep M v op = some v') ↔ ∀ path, op = .remove path → l.Unlinkable M path := by
  cases op with
  | insert path inop => exact iff_of_true ⟨_, rfl⟩ fun _ hop => by cases hop
  | remove path =>
    simp only [pathStep, pathRemove_eq_some, removable_iff_unlinkable h, PathOp.remove.injEq]
    exact ⟨fun ⟨_, hlink, _⟩ _ hpath => hpath ▸ hlink, fun hlink => ⟨_, hlink path rfl, rfl⟩⟩

theorem cacheFindInode_of_holds (h : Buckets.Holds M.nameHash v.ipathCache l) (path : CStr) :
    cacheFindInode M v path = Buckets.lookup l path :=
  h.find path

-- ---------------------------------------------------------------------------
-- Runs
-- ---------------------------------------------------------------------------

theorem actsAsList_nil (h : Buckets.Holds M.nameHash v.ipathCache l) : ActsAsList M v l [] := by
  intro done hdone
  obtain rfl := List.prefix_nil.mp hdone
  exact ⟨v, rfl, cacheFindInode_of_holds h⟩

theorem actsAsList_cons (h : Buckets.Holds M.nameHash v.ipathCache l) :
    ActsAsList M v l (op :: ops) ↔
      ∃ v', pathStep M v op = some v' ∧ ActsAsList M v' (l.step op) ops := by
  constructor
  · intro hacts
    obtain ⟨w, hrun, -⟩ := hacts [op] ⟨ops, rfl⟩
    rw [Runs.exec_cons] at hrun
    obtain ⟨v', hstep, -⟩ := Option.bind_eq_some_iff.mp hrun
    refine ⟨v', hstep, fun done hdone => ?_⟩
    obtain ⟨w, hw, hfind⟩ := hacts (op :: done) (List.cons_prefix_cons.mpr ⟨rfl, hdone⟩)
    rw [Runs.exec_cons, hstep, Option.bind_some] at hw
    exact ⟨w, hw, hfind⟩
  · rintro ⟨v', hstep, hacts⟩ done hdone
    rcases List.prefix_cons_iff.mp hdone with rfl | ⟨rest, rfl, hrest⟩
    · exact ⟨v, rfl, cacheFindInode_of_holds h⟩
    · obtain ⟨w, hw, hfind⟩ := hacts rest hrest
      refine ⟨w, ?_, hfind⟩
      rw [Runs.exec_cons, hstep, Option.bind_some, hw]

theorem actsAsList_iff (h : Buckets.Holds M.nameHash v.ipathCache l) :
    ActsAsList M v l ops ↔ l.Unlinks M ops := by
  induction ops generalizing v l with
  | nil => exact iff_of_true (actsAsList_nil h) trivial
  | cons op ops ih =>
    rw [actsAsList_cons h]
    constructor
    · rintro ⟨v', hstep, hacts⟩
      refine ⟨(pathStep_defined_iff h).mp ⟨v', hstep⟩, fun l' hl' => ?_⟩
      rw [← Option.some.inj hl']
      exact (ih (pathStep_holds h hstep)).mp hacts
    · rintro ⟨hop, hrest⟩
      obtain ⟨v', hstep⟩ := (pathStep_defined_iff h).mpr hop
      exact ⟨v', hstep, (ih (pathStep_holds h hstep)).mpr (hrest _ rfl)⟩

/-- **The table of paths.** It acts as the list in all states of a run exactly if every removal
can be unlinked. -/
theorem path_table_iff (M : Mount) (b : Backend) (ops : List PathOp) :
    ActsAsList M (Vfs.mounted b) [] ops ↔ PathList.Unlinks M [] ops :=
  actsAsList_iff Buckets.holds_nil

/-- `/mnt/al` and `/mnt/ba` have one hash. -/
def collisionRun : List PathOp :=
  [.insert (ascii "/mnt/al") 0, .insert (ascii "/mnt/ba") 1, .remove (ascii "/mnt/al")]

/-- The older of the two cannot be removed. -/
theorem not_path_table :
    ¬ ActsAsList localMount (Vfs.mounted .rootOnly) [] collisionRun := by
  intro hacts
  obtain ⟨v', hrun, -⟩ := hacts collisionRun List.prefix_rfl
  have hnone : Runs.exec (pathStep localMount) (Vfs.mounted .rootOnly) collisionRun = none := rfl
  rw [hnone] at hrun
  cases hrun

end Okfs
