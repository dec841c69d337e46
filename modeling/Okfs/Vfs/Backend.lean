import Okfs.Lib.FileTree
import Okfs.Vfs.Path

/-!
# OKFS — the backend of a filesystem

What a mounted filesystem serves, whether through localfs or through the server
of shfs, is a tree of files with attributes. The VFS never sees it whole: it asks
for one path at a time and gets a `struct stat`, a listing or an error. Backend
calls may fail for reasons of their own, so each modelled call takes the
backend's answer as an input; the `Can…` predicates say what POSIX lets succeed,
and the operations what a success changes.
-/

namespace Okfs

open FileTree

/-- Names a file for as long as it exists, whatever its links are called. -/
abbrev FileId := Nat

/-- The type bits of `st_mode`. -/
inductive FileType
  | reg | dir | lnk | fifo | chr | blk | sock
  deriving DecidableEq, Repr

/-- `struct stat`, with the two parts of `st_mode`. `file` is no field of it: it says
which file the numbers were read from. -/
structure Stat where
  stDev : Nat
  stIno : Nat
  stType : FileType
  stPerm : Nat
  stNlink : Nat
  stUid : Nat
  stGid : Nat
  stRdev : Nat
  stSize : Nat
  stBlksize : Nat
  stBlocks : Nat
  stAtime : Nat
  stMtime : Nat
  stCtime : Nat
  file : FileId
  deriving DecidableEq, Repr

/-- The files by path, their attributes, and the next unused name for a file. -/
structure Backend where
  tree : Tree Name FileId
  attr : FileId → Stat
  nextFile : FileId

namespace Backend

/-- The attributes of a file, as read from it. -/
def stat (b : Backend) (f : FileId) : Stat := { b.attr f with file := f }

@[simp] theorem stat_file (b : Backend) (f : FileId) : (b.stat f).file = f := rfl

def IsDir (b : Backend) (f : FileId) : Prop := (b.attr f).stType = .dir

instance (b : Backend) (f : FileId) : Decidable (b.IsDir f) :=
  inferInstanceAs (Decidable (_ = _))

/-- `lstat` of the file at a path. -/
def lstat (b : Backend) (p : Path) : Except Errno Stat :=
  match b.tree p with
  | some f => .ok (b.stat f)
  | none => .error .ENOENT

/-! ## Changing the namespace -/

/-- A new file at `p`; `st` is what it starts out with. -/
def create (b : Backend) (p : Path) (st : Stat) : Backend where
  tree := put b.tree p b.nextFile
  attr := Function.update b.attr b.nextFile st
  nextFile := b.nextFile + 1

/-- One more link to the file at `p₁`. -/
def link (b : Backend) (p₁ p₂ : Path) : Backend :=
  match b.tree p₁ with
  | some f => { b with tree := put b.tree p₂ f }
  | none => b

def remove (b : Backend) (p : Path) : Backend := { b with tree := FileTree.remove b.tree p }

/-- A rename between two links of one file does nothing. -/
def rename (b : Backend) (p₁ p₂ : Path) : Backend :=
  if b.tree p₁ = b.tree p₂ then b else { b with tree := move b.tree p₁ p₂ }

/-- The attributes of the file at `p` change, if there is one. -/
def setAttr (b : Backend) (p : Path) (g : Stat → Stat) : Backend :=
  match b.tree p with
  | some f => { b with attr := Function.update b.attr f (g (b.attr f)) }
  | none => b

/-- The attributes of one file change. -/
def changeFile (b : Backend) (f : FileId) (g : Stat → Stat) : Backend :=
  { b with attr := Function.update b.attr f (g (b.attr f)) }

/-! ## What POSIX lets succeed -/

/-- A POSIX tree: rooted, with files in directories only, each directory at one path,
and a file per device and inode number. -/
structure WF (b : Backend) : Prop where
  root : DirAt b.IsDir b.tree []
  valid : ∀ p f, b.tree p = some f → ValidPath p
  closed : Closed b.IsDir b.tree
  dirsOnce : DirsOnce b.IsDir b.tree
  fresh : ∀ p f, b.tree p = some f → f < b.nextFile
  inoUnique : ∀ p q f g, b.tree p = some f → b.tree q = some g →
    (b.attr f).stDev = (b.attr g).stDev → (b.attr f).stIno = (b.attr g).stIno → f = g

/-- A file can be created at `p` with the attributes `st`. -/
structure CanCreate (b : Backend) (p : Path) (st : Stat) : Prop where
  valid : ValidPath p
  ne_nil : p ≠ []
  absent : b.tree p = none
  parent : DirAt b.IsDir b.tree p.dropLast
  newIno : ∀ q f, b.tree q = some f →
    ¬ ((b.attr f).stDev = st.stDev ∧ (b.attr f).stIno = st.stIno)

structure CanLink (b : Backend) (p₁ p₂ : Path) : Prop where
  valid : ValidPath p₂
  ne_nil : p₂ ≠ []
  source : ∃ f, b.tree p₁ = some f ∧ ¬ b.IsDir f
  absent : b.tree p₂ = none
  parent : DirAt b.IsDir b.tree p₂.dropLast

/-- `unlink` (not of a directory) or `rmdir` (of an empty one). -/
structure CanRemove (b : Backend) (p : Path) : Prop where
  ne_nil : p ≠ []
  present : ∃ f, b.tree p = some f
  empty : NoneBelow b.tree p

/-- The file at `p₁` can be moved to `p₂`. -/
structure CanMove (b : Backend) (p₁ p₂ : Path) : Prop where
  valid : ValidPath p₂
  ne_nil : p₂ ≠ []
  source : ∃ f, b.tree p₁ = some f
  notInside : ¬ p₁ <+: p₂
  parent : DirAt b.IsDir b.tree p₂.dropLast
  /-- The target is absent, no directory, or an empty one. -/
  empty : NoneBelow b.tree p₂

/-- Both names are links of one file already, or the file can be moved. The root of
the tree is busy. -/
def CanRename (b : Backend) (p₁ p₂ : Path) : Prop :=
  (p₁ ≠ [] ∧ p₂ ≠ [] ∧ ∃ f, b.tree p₁ = some f ∧ b.tree p₂ = some f) ∨
    (b.tree p₁ ≠ b.tree p₂ ∧ b.CanMove p₁ p₂)

/-- The names a directory lists, each once. -/
structure Lists (b : Backend) (p : Path) (names : List Name) : Prop where
  isDir : DirAt b.IsDir b.tree p
  nodup : names.Nodup
  mem_iff : ∀ n, n ∈ names ↔ n = ascii "." ∨ n = ascii ".." ∨ ∃ f, b.tree (p ++ [n]) = some f

/-! ## The tree stays a tree -/

variable {b : Backend} {p p₁ p₂ : Path} {st : Stat}

theorem tree_create_self : (b.create p st).tree p = some b.nextFile := put_self

theorem tree_create_of_ne {q : Path} (h : q ≠ p) : (b.create p st).tree q = b.tree q :=
  put_of_ne h

@[simp] theorem attr_create_self : (b.create p st).attr b.nextFile = st := Function.update_self ..

@[simp] theorem tree_remove : (b.remove p).tree = FileTree.remove b.tree p := rfl

@[simp] theorem attr_remove : (b.remove p).attr = b.attr := rfl

theorem tree_link {f : FileId} (hf : b.tree p₁ = some f) :
    b.link p₁ p₂ = { b with tree := put b.tree p₂ f } := by
  rw [link, hf]

theorem tree_link_self {f : FileId} (hf : b.tree p₁ = some f) : (b.link p₁ p₂).tree p₂ = some f := by
  rw [tree_link hf]
  exact put_self

@[simp] theorem attr_link : (b.link p₁ p₂).attr = b.attr := by
  unfold link
  split <;> rfl

@[simp] theorem attr_rename : (b.rename p₁ p₂).attr = b.attr := by
  unfold rename
  split <;> rfl

theorem WF.attr_create (h : b.WF) {q : Path} {f : FileId} (hf : b.tree q = some f) :
    (b.create p st).attr f = b.attr f :=
  Function.update_of_ne (Nat.ne_of_lt (h.fresh q f hf)) ..

@[simp] theorem tree_setAttr (g : Stat → Stat) : (b.setAttr p g).tree = b.tree := by
  unfold setAttr
  cases b.tree p <;> rfl

@[simp] theorem nextFile_setAttr (g : Stat → Stat) : (b.setAttr p g).nextFile = b.nextFile := by
  unfold setAttr
  cases b.tree p <;> rfl

theorem setAttr_of_tree {f : FileId} (h : b.tree p = some f) (g : Stat → Stat) :
    b.setAttr p g = b.changeFile f g := by
  rw [setAttr, h]
  rfl

@[simp] theorem attr_changeFile_self (b : Backend) (f : FileId) (g : Stat → Stat) :
    (b.changeFile f g).attr f = g (b.attr f) :=
  Function.update_self ..

theorem attr_changeFile_of_ne {f f' : FileId} (g : Stat → Stat) (h : f' ≠ f) :
    (b.changeFile f g).attr f' = b.attr f' :=
  Function.update_of_ne h ..

theorem attr_changeFile_resized (b : Backend) (f : FileId) (n : Nat) (f' : FileId) :
    ∃ s a m, (b.changeFile f fun st => { st with stSize := n }).attr f' =
      { b.attr f' with stSize := s, stAtime := a, stMtime := m } := by
  by_cases h : f' = f
  · exact ⟨n, _, _, by rw [h, attr_changeFile_self]⟩
  · exact ⟨_, _, _, by rw [attr_changeFile_of_ne _ h]⟩

theorem attr_setAttr_resized (b : Backend) (p : Path) (n : Nat) (f : FileId) :
    ∃ s a m, (b.setAttr p fun st => { st with stSize := n }).attr f =
      { b.attr f with stSize := s, stAtime := a, stMtime := m } := by
  cases h : b.tree p with
  | none => exact ⟨_, _, _, by rw [setAttr, h]⟩
  | some g =>
    rw [setAttr_of_tree h]
    exact attr_changeFile_resized b g n f

theorem changeFile_inj {f f' : FileId} {g : Stat → Stat} (hg : g (b.attr f) ≠ b.attr f)
    (h : b.changeFile f' g = b.changeFile f g) : f' = f := by
  by_contra hne
  have hattr := congrArg (fun b : Backend => b.attr f) h
  simp only [attr_changeFile_self, attr_changeFile_of_ne g (Ne.symm hne)] at hattr
  exact hg hattr.symm

/-- A directory stays one when the attributes of the files in the tree are kept. -/
theorem DirAt.congr {b b' : Backend} {q : Path} (h : DirAt b.IsDir b.tree q)
    (htree : b'.tree q = b.tree q) (hattr : ∀ f, b.tree q = some f → b'.attr f = b.attr f) :
    DirAt b'.IsDir b'.tree q := by
  obtain ⟨d, hd, hdir⟩ := h
  exact ⟨d, by rw [htree, hd], by rw [IsDir, hattr d hd]; exact hdir⟩

theorem WF.create (h : b.WF) (hc : b.CanCreate p st) : (b.create p st).WF := by
  have hold : ∀ {q f}, q ≠ p → (b.create p st).tree q = some f → b.tree q = some f :=
    fun hq hf => by rwa [tree_create_of_ne hq] at hf
  have hnew : ∀ {f}, (b.create p st).tree p = some f → f = b.nextFile := fun hf => by
    rw [tree_create_self, Option.some.injEq] at hf
    exact hf.symm
  have hdir : ∀ {q}, DirAt b.IsDir b.tree q → DirAt (b.create p st).IsDir (b.create p st).tree q := by
    intro q hq
    have hqp : q ≠ p := by
      rintro rfl
      obtain ⟨d, hd, -⟩ := hq
      rw [hc.absent] at hd
      cases hd
    exact DirAt.congr hq (tree_create_of_ne hqp) fun f hf => h.attr_create hf
  refine ⟨hdir h.root, ?_, ?_, ?_, ?_, ?_⟩
  · intro q f hf
    by_cases hq : q = p
    · exact hq ▸ hc.valid
    · exact h.valid q f (hold hq hf)
  · intro q n f hf
    by_cases hq : q ++ [n] = p
    · exact hdir (by simpa [← hq] using hc.parent)
    · exact hdir (h.closed q n f (hold hq hf))
  · intro q r d hd hq hr
    by_cases hqp : q = p <;> by_cases hrp : r = p
    · rw [hqp, hrp]
    · have hlt := h.fresh r d (hold hrp hr)
      rw [hqp] at hq
      exact absurd (hnew hq) (Nat.ne_of_lt hlt)
    · have hlt := h.fresh q d (hold hqp hq)
      rw [hrp] at hr
      exact absurd (hnew hr) (Nat.ne_of_lt hlt)
    · have hq' := hold hqp hq
      rw [IsDir, h.attr_create hq'] at hd
      exact h.dirsOnce q r d hd hq' (hold hrp hr)
  · intro q f hf
    by_cases hq : q = p
    · rw [hq] at hf
      rw [hnew hf]
      exact Nat.lt_succ_self _
    · exact Nat.lt_succ_of_lt (h.fresh q f (hold hq hf))
  · intro q r f g hq hr
    by_cases hqp : q = p <;> by_cases hrp : r = p
    · intro _ _
      rw [hqp] at hq
      rw [hrp] at hr
      rw [hnew hq, hnew hr]
    · rw [hqp] at hq
      rw [hnew hq, h.attr_create (hold hrp hr), attr_create_self]
      intro hdev hino
      exact absurd ⟨hdev.symm, hino.symm⟩ (hc.newIno r g (hold hrp hr))
    · rw [hrp] at hr
      rw [hnew hr, h.attr_create (hold hqp hq), attr_create_self]
      intro hdev hino
      exact absurd ⟨hdev, hino⟩ (hc.newIno q f (hold hqp hq))
    · rw [h.attr_create (hold hqp hq), h.attr_create (hold hrp hr)]
      exact h.inoUnique q r f g (hold hqp hq) (hold hrp hr)

/-- A tree whose files all were files of the old one, with the old attributes, only
has to be shown closed. -/
theorem WF.of_subtree {b' : Backend} (h : b.WF) (hattr : b'.attr = b.attr)
    (hnext : b'.nextFile = b.nextFile) (hroot : b'.tree [] = b.tree [])
    (hsub : ∀ q f, b'.tree q = some f → ValidPath q ∧ ∃ r, b.tree r = some f)
    (hclosed : Closed b.IsDir b'.tree) (honce : DirsOnce b.IsDir b'.tree) : b'.WF := by
  have hdir : b'.IsDir = b.IsDir := by
    funext f
    rw [IsDir, IsDir, hattr]
  refine ⟨?_, fun q f hf => (hsub q f hf).1, hdir ▸ hclosed, hdir ▸ honce, ?_, ?_⟩
  · rw [hdir, DirAt, hroot]
    exact h.root
  · intro q f hf
    obtain ⟨-, r, hr⟩ := hsub q f hf
    exact hnext ▸ h.fresh r f hr
  · intro q r f g hq hr
    obtain ⟨-, q', hq'⟩ := hsub q f hq
    obtain ⟨-, r', hr'⟩ := hsub r g hr
    rw [hattr]
    exact h.inoUnique q' r' f g hq' hr'

theorem WF.link (h : b.WF) (hc : b.CanLink p₁ p₂) : (b.link p₁ p₂).WF := by
  obtain ⟨f, hf, hdir⟩ := hc.source
  rw [tree_link hf]
  refine h.of_subtree rfl rfl (put_of_ne hc.ne_nil.symm) ?_ (h.closed.put hc.absent hc.parent)
    (h.dirsOnce.put fun hd => absurd hd hdir)
  intro q g (hg : put b.tree p₂ f q = some g)
  by_cases hq : q = p₂
  · rw [hq, put_self, Option.some.injEq] at hg
    exact ⟨hq ▸ hc.valid, p₁, hg ▸ hf⟩
  · rw [put_of_ne hq] at hg
    exact ⟨h.valid q g hg, q, hg⟩

theorem WF.remove (h : b.WF) (hc : b.CanRemove p) : (b.remove p).WF := by
  refine h.of_subtree rfl rfl (remove_of_ne hc.ne_nil.symm) ?_ (h.closed.remove hc.empty)
    h.dirsOnce.remove
  intro q g hg
  rw [tree_remove] at hg
  have hq : q ≠ p := fun he => by rw [he, remove_self] at hg; cases hg
  rw [remove_of_ne hq] at hg
  exact ⟨h.valid q g hg, q, hg⟩

theorem WF.move (h : b.WF) (hc : b.CanMove p₁ p₂) :
    ({ b with tree := FileTree.move b.tree p₁ p₂ } : Backend).WF := by
  have hroot : FileTree.move b.tree p₁ p₂ [] = b.tree [] := by
    apply move_of_not_below
    · intro hp
      exact hc.notInside (List.prefix_nil.mp hp ▸ List.nil_prefix)
    · exact fun hp => hc.ne_nil (List.prefix_nil.mp hp)
  refine h.of_subtree rfl rfl hroot ?_
    (h.closed.move hc.ne_nil hc.notInside hc.parent) h.dirsOnce.move
  intro q f hf
  rcases move_eq_some hf with ⟨r, rfl, hr⟩ | ⟨-, -, hq⟩
  · exact ⟨hc.valid.append (h.valid _ _ hr).right, _, hr⟩
  · exact ⟨h.valid q f hq, q, hq⟩

theorem CanMove.source_ne_nil (h : b.CanMove p₁ p₂) : p₁ ≠ [] :=
  fun he => h.notInside (he ▸ List.nil_prefix)

theorem rename_of_eq (h : b.tree p₁ = b.tree p₂) : b.rename p₁ p₂ = b := if_pos h

theorem rename_of_ne (h : b.tree p₁ ≠ b.tree p₂) :
    b.rename p₁ p₂ = { b with tree := FileTree.move b.tree p₁ p₂ } := if_neg h

/-- After a rename the target is there. -/
theorem CanRename.target (h : b.CanRename p₁ p₂) : ∃ f, (b.rename p₁ p₂).tree p₂ = some f := by
  rcases h with ⟨-, -, f, h₁, h₂⟩ | ⟨hne, hmove⟩
  · exact ⟨f, by rw [rename_of_eq (h₁.trans h₂.symm), h₂]⟩
  · obtain ⟨f, hf⟩ := hmove.source
    refine ⟨f, ?_⟩
    rw [rename_of_ne hne]
    have htarget : FileTree.move b.tree p₁ p₂ (p₂ ++ []) = b.tree (p₁ ++ []) := move_target []
    rwa [List.append_nil, List.append_nil, hf] at htarget

theorem CanRename.ne_nil (h : b.CanRename p₁ p₂) : p₁ ≠ [] ∧ p₂ ≠ [] := by
  rcases h with ⟨h₁, h₂, -⟩ | ⟨-, hmove⟩
  · exact ⟨h₁, h₂⟩
  · exact ⟨hmove.source_ne_nil, hmove.ne_nil⟩

theorem WF.rename (h : b.WF) (hc : b.CanRename p₁ p₂) : (b.rename p₁ p₂).WF := by
  rcases hc with ⟨-, -, f, h₁, h₂⟩ | ⟨hne, hmove⟩
  · rw [rename_of_eq (h₁.trans h₂.symm)]
    exact h
  · rw [rename_of_ne hne]
    exact h.move hmove

/-! ## What directories list -/

namespace Lists

variable {b' : Backend} {q : Path} {n : Name} {names names' : List Name}

theorem perm (h : b.Lists q names) (hperm : names.Perm names') : b.Lists q names' :=
  ⟨h.isDir, hperm.nodup_iff.mp h.nodup, fun n => hperm.mem_iff.symm.trans (h.mem_iff n)⟩

theorem congr (h : b.Lists q names) (hdir : DirAt b'.IsDir b'.tree q)
    (hsame : ∀ n, b'.tree (q ++ [n]) = b.tree (q ++ [n])) : b'.Lists q names :=
  ⟨hdir, h.nodup, fun n => by rw [hsame]; exact h.mem_iff n⟩

/-- One list of names for two directories. -/
theorem of_shared (h : b.Lists q names) (h' : b.Lists q names') (hp : b.Lists p names') :
    b.Lists p names :=
  ⟨hp.isDir, h.nodup, fun n => by rw [h.mem_iff, ← h'.mem_iff, hp.mem_iff]⟩

theorem empty (hdir : DirAt b.IsDir b.tree q) (hempty : NoneBelow b.tree q)
    (hperm : names.Perm [ascii ".", ascii ".."]) : b.Lists q names := by
  refine ⟨hdir, hperm.nodup_iff.mpr (by decide), fun n => ?_⟩
  rw [hperm.mem_iff, hempty [n] (by simp)]
  simp

theorem mem_of_tree (h : b.Lists q names) {f : FileId} (hf : b.tree (q ++ [n]) = some f) :
    n ∈ names :=
  (h.mem_iff n).mpr (.inr (.inr ⟨f, hf⟩))

theorem notMem_of_absent (h : b.Lists q names) (hn : IsName n)
    (habsent : b.tree (q ++ [n]) = none) : n ∉ names := by
  rw [h.mem_iff, habsent]
  rintro (hdot | hdots | ⟨f, hf⟩)
  · exact hn.2.2.1 hdot
  · exact hn.2.2.2 hdots
  · cases hf

/-- A new entry. -/
theorem cons (h : b.Lists q names) (hn : IsName n) (hdir : DirAt b'.IsDir b'.tree q)
    (habsent : b.tree (q ++ [n]) = none) (hnew : ∃ f, b'.tree (q ++ [n]) = some f)
    (hother : ∀ m, m ≠ n → b'.tree (q ++ [m]) = b.tree (q ++ [m])) : b'.Lists q (n :: names) := by
  refine ⟨hdir, List.nodup_cons.mpr ⟨h.notMem_of_absent hn habsent, h.nodup⟩, fun m => ?_⟩
  rw [List.mem_cons, h.mem_iff]
  by_cases hm : m = n
  · rw [hm]
    exact ⟨fun _ => .inr (.inr hnew), fun _ => .inl rfl⟩
  · rw [hother m hm]
    exact or_iff_right hm

/-- An entry goes. -/
theorem erase (h : b.Lists q names) (hn : IsName n) (hdir : DirAt b'.IsDir b'.tree q)
    (hgone : b'.tree (q ++ [n]) = none)
    (hother : ∀ m, m ≠ n → b'.tree (q ++ [m]) = b.tree (q ++ [m])) :
    b'.Lists q (names.erase n) := by
  refine ⟨hdir, h.nodup.erase n, fun m => ?_⟩
  rw [h.nodup.mem_erase_iff, h.mem_iff]
  by_cases hm : m = n
  · rw [hm, hgone]
    refine ⟨fun hne => absurd rfl hne.1, ?_⟩
    rintro (hdot | hdots | ⟨f, hf⟩)
    · exact absurd hdot hn.2.2.1
    · exact absurd hdots hn.2.2.2
    · cases hf
  · rw [hother m hm]
    exact and_iff_right hm

end Lists

/-! ## Small filesystems -/

/-- The root directory alone, with inode number 2 on device 1. -/
def rootOnly : Backend where
  tree := fun p => if p = [] then some 0 else none
  attr := fun _ => ⟨1, 2, .dir, 0o755, 2, 0, 0, 0, 4096, 4096, 8, 0, 0, 0, 0⟩
  nextFile := 1

theorem tree_rootOnly {f : FileId} (h : rootOnly.tree p = some f) : p = [] ∧ f = 0 := by
  unfold rootOnly at h
  by_cases hp : p = []
  · rw [hp] at h
    exact ⟨hp, (Option.some.inj h).symm⟩
  · simp [hp] at h

theorem rootOnly_wf : rootOnly.WF := by
  refine ⟨⟨0, rfl, rfl⟩, fun p f hf => ?_, fun p n f hf => ?_, fun p q d _ hp hq => ?_,
    fun p f hf => ?_, fun p q f g hf hg _ _ => ?_⟩
  · rw [(tree_rootOnly hf).1]
    exact fun n hn => (List.not_mem_nil hn).elim
  · exact absurd (tree_rootOnly hf).1 (by simp)
  · rw [(tree_rootOnly hp).1, (tree_rootOnly hq).1]
  · rw [(tree_rootOnly hf).2]
    exact Nat.zero_lt_one
  · rw [(tree_rootOnly hf).2, (tree_rootOnly hg).2]

/-- Any first entry can be made. -/
theorem rootOnly_canCreate {n : Name} (hn : IsName n) (hino : ¬ (1 = st.stDev ∧ 2 = st.stIno)) :
    rootOnly.CanCreate [n] st where
  valid := by simpa [ValidPath] using hn
  ne_nil := by simp
  absent := by simp [rootOnly]
  parent := ⟨0, rfl, rfl⟩
  newIno := fun _ _ _ => hino

/-- A new directory with inode number `ino`. -/
def newDir (ino : Nat) : Stat := ⟨1, ino, .dir, 0o755, 2, 0, 0, 0, 4096, 4096, 8, 0, 0, 0, 0⟩

/-- A new empty file with inode number `ino`. -/
def newFile (ino : Nat) : Stat := ⟨1, ino, .reg, 0o644, 1, 0, 0, 0, 0, 4096, 0, 0, 0, 0, 0⟩

/-- Two directories, made one after the other. -/
def twoDirs (p₁ p₂ : Path) : Backend := (rootOnly.create p₁ (newDir 3)).create p₂ (newDir 4)

theorem tree_create_rootOnly {q : Path} {f : FileId} (h : (rootOnly.create p st).tree q = some f) :
    (q = [] ∧ f = 0) ∨ (q = p ∧ f = 1) := by
  by_cases hq : q = p
  · rw [hq, tree_create_self, Option.some.injEq] at h
    exact .inr ⟨hq, h.symm⟩
  · rw [tree_create_of_ne hq] at h
    exact .inl (tree_rootOnly h)

theorem tree_twoDirs {q : Path} {f : FileId} (h : (twoDirs p₁ p₂).tree q = some f) :
    (q = [] ∧ f = 0) ∨ (q = p₁ ∧ f = 1) ∨ (q = p₂ ∧ f = 2) := by
  by_cases hq : q = p₂
  · rw [hq, twoDirs, tree_create_self, Option.some.injEq] at h
    exact .inr (.inr ⟨hq, h.symm⟩)
  · rw [twoDirs, tree_create_of_ne hq] at h
    rcases tree_create_rootOnly h with h | h
    · exact .inl h
    · exact .inr (.inl h)

/-- A second entry, a directory, can be made beside the first one or in it. -/
theorem canCreate_second (hp₂ : ValidPath p₂) (hne : p₂ ≠ []) (hne₁ : p₂ ≠ p₁)
    (hino : ¬ (st.stDev = 1 ∧ st.stIno = 4))
    (hparent : DirAt (rootOnly.create p₁ st).IsDir (rootOnly.create p₁ st).tree p₂.dropLast) :
    (rootOnly.create p₁ st).CanCreate p₂ (newDir 4) where
  valid := hp₂
  ne_nil := hne
  absent := by simp [tree_create_of_ne hne₁, rootOnly, hne]
  parent := hparent
  newIno := by
    intro q f hf
    rcases tree_create_rootOnly hf with ⟨-, rfl⟩ | ⟨-, rfl⟩
    · exact (by decide : ¬ (1 = 1 ∧ 2 = 4))
    · exact hino

end Backend

end Okfs
