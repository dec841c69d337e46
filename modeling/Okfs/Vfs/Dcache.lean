import Okfs.Lib.Buckets
import Okfs.Vfs.Backend
import Okfs.Vfs.Dispatch
import Mathlib.Logic.Relation

/-!
# OKFS — the caches of a mounted filesystem

The state of one mounted filesystem: three hash tables and the records they point
to, the open files, and the backend behind them. `ipath_cache` leads from a path
to an inode record, `inr_cache` from device and inode number to the same records,
`dcache` from a directory's path to its listing. Nothing in them expires.

Pointers are numbers: an `InodeRef` names a `struct okfs_inode`, a `FileRef` a
`struct okfs_file`. A function that reads through a missing pointer gives `none`;
`ASSERT` is empty, as in the default build.

Looking a file up, however it comes about, changes the state in one way only: one
path after another that is not cached yet gets a record (`CachesOne`, `Caches`).
What lookups keep is proved here once, for any property `π` of a record.
-/

namespace Okfs

open Components FileTree

/-! ## Records -/

abbrev InodeRef := Nat

abbrev FileRef := Nat

def MAX_HASH : Nat := 13277

def DT_UNKNOWN : Nat := 0

def DT_DIR : Nat := 4

/-- `struct okfs_dirent`; a chain of them is a list, `NULL` the empty one. -/
structure OkfsDirent where
  ino : Nat
  type : Nat
  name : Name
  deriving DecidableEq, Repr

/-- `strlen(name)`, which `okfs_add_dirent` stores beside the name. -/
def OkfsDirent.nameLen (d : OkfsDirent) : Nat := d.name.length

/-- `struct okfs_file`, and what its `fsfd` slot stands for: the file the backend
opened, with the position and mode the kernel keeps for it. -/
structure OkfsFile where
  path : CStr
  relPath : CStr
  ino : Option InodeRef
  fPos : Int
  file : FileId
  offset : Nat
  append : Bool
  deriving DecidableEq, Repr

/-- An open whose second half, the kernel's open of the temporary file, is under way. -/
structure PendingOpen where
  canonPath : CStr
  relPath : CStr
  file : FileId
  append : Bool
  deriving DecidableEq, Repr

/-- A mounted filesystem, and what its environment answers: the kernel's
`full_name_hash`, `lstat` outside the mount, and what a variable that was never
assigned reads. The mount point is not the root: there the relative paths lose their
slash, and what the backend serves through them is no tree. -/
structure Mount where
  sb : OkfsSuperblock
  mnt : Path
  valid : ValidPath mnt
  ne_root : mnt ≠ []
  mntPoint_eq : sb.mntPoint = canonPath mnt
  fullNameHash : CStr → Nat
  linuxLstat : CStr → Except Errno Stat
  stack : Nat

structure Vfs where
  ipathCache : Buckets.Table CStr InodeRef
  inrCache : Nat → List InodeRef
  dcache : Buckets.Table CStr (List OkfsDirent)
  inode : InodeRef → Stat
  nextRef : InodeRef
  /-- `next_inode` of shfs -/
  nextInode : Nat
  files : FileRef → Option OkfsFile
  nextFile : FileRef
  pending : List PendingOpen
  backend : Backend
  now : Nat

/-- The open file's structure is written. -/
def Vfs.setFile (v : Vfs) (fd : FileRef) (filep : OkfsFile) : Vfs :=
  { v with files := Function.update v.files fd (some filep) }

@[simp] theorem Vfs.setFile_self (v : Vfs) (fd : FileRef) (filep : OkfsFile) :
    (v.setFile fd filep).files fd = some filep :=
  Function.update_self ..

theorem Vfs.setFile_of_ne {v : Vfs} {fd fd' : FileRef} {filep : OkfsFile} (h : fd' ≠ fd) :
    (v.setFile fd filep).files fd' = v.files fd' :=
  Function.update_of_ne h ..

namespace Mount

variable (M : Mount)

/-- `canon_path` of the file `p` below the mount point. -/
def full (p : Path) : CStr := canonPath (M.mnt ++ p)

/-- `rel_path` of that file, as `proc_path1` cuts it off. -/
def rel (p : Path) : CStr := (M.full p).drop M.sb.mntPointLen

def nameHash (name : CStr) : Nat := M.fullNameHash name % MAX_HASH

end Mount

/-- A filesystem right after `add_entry_point`: nothing is cached, nothing is open. -/
def Vfs.mounted (b : Backend) : Vfs where
  ipathCache := fun _ => []
  inrCache := fun _ => []
  dcache := fun _ => []
  inode := fun r => b.stat r
  nextRef := 0
  nextInode := 1
  files := fun _ => none
  nextFile := 0
  pending := []
  backend := b
  now := 0

/-- `full_name_hash` of the kernel's `linux/dcache.h`, with a 32-bit `unsigned long`. -/
def kernelNameHash (name : CStr) : Nat :=
  name.foldl (fun hash c => (hash + c.toNat * 16 + c.toNat / 16) * 11 % 2 ^ 32) 0

/-- A localfs filesystem on `/mnt`. -/
def localMount : Mount where
  sb := ⟨ascii "/mnt", ascii "/src", .localfs⟩
  mnt := [ascii "mnt"]
  valid := by decide
  ne_root := by decide
  mntPoint_eq := by decide
  fullNameHash := kernelNameHash
  linuxLstat := fun _ => .error .ENOENT
  stack := 0

/-! ## The source -/

section Source

variable (M : Mount) (v : Vfs)

def cacheFindInode (path : CStr) : Option InodeRef := Buckets.find M.nameHash v.ipathCache path

def pathInsert (path : CStr) (inop : InodeRef) : Vfs :=
  { v with ipathCache := Buckets.insert M.nameHash v.ipathCache path inop }

/-- `path_remove` on the chain of the path. An empty chain is read through, and when
the second node is the first to match, `p1` was never assigned. -/
def pathRemoveChain (path : CStr) : List (CStr × InodeRef) → Option (List (CStr × InodeRef))
  | [] => none
  | e₁ :: es =>
    if e₁.1 = path then some es
    else
      match es with
      | [] => some [e₁]
      | e₂ :: es => if e₂.1 = path then none else some (e₁ :: e₂ :: es.eraseP (·.1 = path))

def pathRemove (path : CStr) : Option Vfs :=
  (pathRemoveChain path (v.ipathCache (M.nameHash path))).map fun chain =>
    { v with ipathCache := Function.update v.ipathCache (M.nameHash path) chain }

/-- The bucket of a device and inode number: their product is 32 bits wide. -/
def inoHash (dev ino : Nat) : Nat := dev * ino % 2 ^ 32 % MAX_HASH

def sameInoFind (dev ino : Nat) : Option InodeRef :=
  (v.inrCache (inoHash dev ino)).find? fun r =>
    (v.inode r).stIno = ino ∧ (v.inode r).stDev = dev

def creatInode (buf : Stat) : Vfs × InodeRef :=
  let hash := inoHash buf.stDev buf.stIno
  ({ v with
      inode := Function.update v.inode v.nextRef buf
      inrCache := Function.update v.inrCache hash (v.nextRef :: v.inrCache hash)
      nextRef := v.nextRef + 1 },
    v.nextRef)

def cacheAddInode (path : CStr) (statbuf : Stat) : Vfs × InodeRef :=
  match sameInoFind v statbuf.stDev statbuf.stIno with
  | some inop => (pathInsert M v path inop, inop)
  | none =>
    let (v, inop) := creatInode v statbuf
    (pathInsert M v path inop, inop)

def cacheFindDentry (path : CStr) : Option (List OkfsDirent) :=
  Buckets.find M.nameHash v.dcache path

def cacheFindDirent (path : CStr) : List OkfsDirent := (cacheFindDentry M v path).getD []

def cacheAddDirent (path : CStr) (dp : List OkfsDirent) : Vfs :=
  { v with dcache := Buckets.insert M.nameHash v.dcache path dp }

/-- The path that `add_to_cache` puts together. -/
def cachePath (dir : Option CStr) (file : CStr) : CStr :=
  M.sb.mntPoint ++ dir.getD [] ++ if file = [] then [] else slash :: file

/-- `add_to_cache` of shfs; `dir` may be `NULL`. -/
def addToCache (dir : Option CStr) (file : CStr) (statbuf : Stat) : Vfs × Stat :=
  let full := cachePath M dir file
  match cacheFindInode M v full with
  | none =>
    let statbuf := { statbuf with stIno := v.nextInode }
    ((cacheAddInode M { v with nextInode := v.nextInode + 1 } full statbuf).1, statbuf)
  | some inop => (v, { statbuf with stIno := (v.inode inop).stIno })

/-- The numbers that shfs makes up in place of the file's own. -/
def Stat.renumber (st : Stat) (dev ino : Nat) : Stat := { st with stDev := dev, stIno := ino }

/-- What `do_ls` of shfs reads from the line of a file. -/
def shfsStat (st : Stat) : Stat := { st with stDev := 73 }

/-- The relative path as `do_ls` hands it to `add_to_cache` for a single file. -/
def pathBehindSlash (path : CStr) : CStr := if path.head? = some slash then path.tail else path

/-- The `lstat` slot of the filesystem's row: `localfs_lstat` or `shfs_lstat`. -/
def epLstat (path : CStr) : Vfs × Except Errno Stat :=
  match v.backend.lstat (components slash path), M.sb.entry with
  | .error e, _ => (v, .error e)
  | .ok buf, .localfs => (v, .ok buf)
  | .ok buf, .shfs =>
    let (v, buf) := addToCache M v none (pathBehindSlash path) (shfsStat buf)
    (v, .ok buf)

def okfsDolstat (fullpath path : CStr) : Vfs × Except Errno Stat :=
  match cacheFindInode M v fullpath with
  | some ip => (v, .ok (v.inode ip))
  | none =>
    match epLstat M v path with
    | (v, .error e) => (v, .error e)
    | (v, .ok buf) =>
      match cacheFindInode M v fullpath with
      | some _ => (v, .ok buf)
      | none => ((cacheAddInode M v fullpath buf).1, .ok buf)

/-- `okfs_arglstat` with this filesystem mounted alone. -/
def arglstat (path : CStr) : Vfs × Except Errno Stat :=
  okfsArglstat (fun path => (v, M.linuxLstat path))
    (fun _ fullpath path => okfsDolstat M v fullpath path) [M.sb] path

/-- The path of the directory that a path is cut at, and the name behind the cut. -/
def splitPath (path : CStr) : Option (CStr × Name) :=
  (splitLast slash path).map fun (dir, name) => (if dir = [] then [slash] else dir, name)

/-- `cache_add_entry`, once the new file was found: the new node of the listing, and the
directory's own record. -/
def addDirent (newpath : CStr) (name : Name) (buf : Stat) : Vfs :=
  let v' := { v with
    dcache := Buckets.modifyFirst M.nameHash v.dcache newpath (⟨buf.stIno, DT_UNKNOWN, name⟩ :: ·) }
  match cacheFindInode M v newpath with
  | none => v'
  | some ip =>
    { v' with
      inode := Function.update v.inode ip
        { v.inode ip with
          stSize := ((v.inode ip).stSize + name.length) % 2 ^ 32
          stAtime := v.now
          stMtime := v.now } }

def cacheAddEntry (path : CStr) : Option Vfs := do
  let (newpath, name) ← splitPath path
  match cacheFindDentry M v newpath with
  | none => some v
  | some _ =>
    match arglstat M v path with
    | (v, .error _) => some v
    | (v, .ok buf) => some (addDirent M v newpath name buf)

/-- The walk of `cache_remove_entry` over the listing: it reads every node up to the
first one with the name, so the name has to be there. -/
def removeDirent (name : Name) : List OkfsDirent → Option (List OkfsDirent)
  | [] => none
  | d :: ds => if d.name = name then some ds else (removeDirent name ds).map (d :: ·)

/-- `cache_remove_entry`, once the path was removed. -/
def dropDirent (newpath : CStr) (name : Name) : Option Vfs :=
  match cacheFindDentry M v newpath with
  | none => some v
  | some entry => (removeDirent name entry).map fun dirent =>
    { v with dcache := Buckets.modifyFirst M.nameHash v.dcache newpath fun _ => dirent }

def cacheRemoveEntry (path : CStr) : Option Vfs := do
  let v ← pathRemove M v path
  let (newpath, name) ← splitPath path
  dropDirent M v newpath name

def changeFileSize (path : CStr) (size : Nat) : Vfs :=
  match cacheFindInode M v path with
  | none => v
  | some inop =>
    { v with
      inode := Function.update v.inode inop
        { v.inode inop with stSize := size, stAtime := v.now, stMtime := v.now } }

end Source

/-! ## Paths of the mount -/

namespace Mount

variable {M : Mount} {p q : Path} {n : Name}

theorem valid_mnt_append (hp : ValidPath p) : ValidPath (M.mnt ++ p) := M.valid.append hp

theorem full_injective (hp : ValidPath p) (hq : ValidPath q) (h : M.full p = M.full q) : p = q :=
  List.append_cancel_left (canonPath_injective (valid_mnt_append hp) (valid_mnt_append hq) h)

theorem full_eq : M.full p = M.sb.mntPoint ++ render slash p := by
  rw [full, canonPath_of_ne_nil (by simp [M.ne_root]), render_append, M.mntPoint_eq,
    canonPath_of_ne_nil M.ne_root]

theorem rel_eq : M.rel p = render slash p := by
  rw [rel, full_eq, OkfsSuperblock.mntPointLen, List.drop_left]

/-- The relative path names the components below the mount point. -/
theorem components_rel (hp : ValidPath p) : components slash (M.rel p) = p := by
  rw [rel_eq, components_render hp.isComponent]

/-- The path of a file is cut into its directory's path and its name. -/
theorem splitPath_full (hp : ValidPath (p ++ [n])) :
    splitPath (M.full (p ++ [n])) = some (M.full p, n) := by
  have hn : IsComponent slash n := hp.isComponent n (by simp)
  have hne : M.mnt ++ p ≠ [] := by simp [M.ne_root]
  have hr : render slash (M.mnt ++ p) ≠ [] := fun he => hne (render_eq_nil_iff.mp he)
  rw [full, full, ← List.append_assoc, canonPath_of_ne_nil (by simp), splitPath,
    splitLast_render_concat hn, Option.map_some]
  simp only [hr, if_false, canonPath_of_ne_nil hne]

/-- shfs caches the files its `lstat` is asked for under their own paths, -/
theorem cachePath_lstat (hp : ValidPath p) :
    cachePath M none (pathBehindSlash (M.rel p)) = M.full p := by
  rw [rel_eq, full_eq, cachePath, pathBehindSlash]
  cases p with
  | nil => simp
  | cons n p => simp [(hp.isComponent n (List.mem_cons_self ..)).1]

/-- and the files of a listing too. -/
theorem cachePath_readdir (hp : ValidPath (p ++ [n])) :
    cachePath M (some (M.rel p)) n = M.full (p ++ [n]) := by
  have hn : n ≠ [] := (hp.isComponent n (by simp)).1
  rw [rel_eq, full_eq, cachePath, Option.getD_some, if_neg hn, render_append, List.append_assoc]
  simp

end Mount

/-! ## What looking files up does -/

/-- The record that a lookup of the file `f` makes for it, and where `next_inode` of
shfs stands afterwards. -/
inductive IsRecord (M : Mount) (v : Vfs) (f : FileId) : Stat → Nat → Prop
  | localfs (h : M.sb.entry = .localfs) : IsRecord M v f (v.backend.stat f) v.nextInode
  | shfs (h : M.sb.entry = .shfs) :
      IsRecord M v f ((v.backend.stat f).renumber 73 v.nextInode) (v.nextInode + 1)

/-- A path `q` that is not cached yet is cached: with the record that goes by the inode
number of the file found there, or with a new one. Or a path gets a second node for the
record it has. -/
inductive CachesOne (M : Mount) (v : Vfs) : Vfs → Prop
  | share {q : Path} {f : FileId} {st : Stat} {n : Nat} {r : InodeRef} (valid : ValidPath q)
      (uncached : cacheFindInode M v (M.full q) = none) (found : v.backend.tree q = some f)
      (record : IsRecord M v f st n) (same : sameInoFind v st.stDev st.stIno = some r) :
      CachesOne M v { pathInsert M v (M.full q) r with nextInode := n }
  | fresh {q : Path} {f : FileId} {st : Stat} {n : Nat} (valid : ValidPath q)
      (uncached : cacheFindInode M v (M.full q) = none) (found : v.backend.tree q = some f)
      (record : IsRecord M v f st n) (same : sameInoFind v st.stDev st.stIno = none) :
      CachesOne M v { pathInsert M (creatInode v st).1 (M.full q) v.nextRef with nextInode := n }
  | again {key : CStr} {r : InodeRef} (cached : cacheFindInode M v key = some r) :
      CachesOne M v (pathInsert M v key r)

/-- What lookups leave alone. -/
structure Frame (v v' : Vfs) : Prop where
  backend : v'.backend = v.backend
  dcache : v'.dcache = v.dcache
  files : v'.files = v.files
  nextFile : v'.nextFile = v.nextFile
  pending : v'.pending = v.pending

/-- Any number of paths are cached, one after another. -/
abbrev Caches (M : Mount) : Vfs → Vfs → Prop := Relation.ReflTransGen (CachesOne M)

/-- References point to records that exist, and shfs never gave out the next inode number. -/
structure RefsOk (M : Mount) (v : Vfs) : Prop where
  ipath : ∀ k r, Buckets.Mem M.nameHash v.ipathCache k r → r < v.nextRef
  inr : ∀ h, ∀ r ∈ v.inrCache h, r < v.nextRef
  ino : M.sb.entry = .shfs → ∀ r < v.nextRef, (v.inode r).stIno < v.nextInode

section Property

variable {α : Type} (π : Stat → α)

/-- A property of a file that the numbers of shfs do not change. -/
def Numberless : Prop := ∀ st d i, π (st.renumber d i) = π st

/-- A property of a file that neither these nor a new size or time changes. -/
structure Intrinsic : Prop where
  renumber : Numberless π
  touch : ∀ st s a m, π { st with stSize := s, stAtime := a, stMtime := m } = π st

/-- No record of another file, differing from `f` in `π`, goes by its inode number. -/
def RecordsOk (M : Mount) (v : Vfs) (f : FileId) : Prop :=
  M.sb.entry = .localfs → ∀ h, ∀ r ∈ v.inrCache h,
    (v.inode r).stDev = (v.backend.attr f).stDev → (v.inode r).stIno = (v.backend.attr f).stIno →
      π (v.inode r) = π (v.backend.stat f)

/-- Where `p` is cached, the backend has a file there that agrees with the record in `π`. -/
def CachedOk (M : Mount) (v : Vfs) (p : Path) : Prop :=
  ∀ r, Buckets.Mem M.nameHash v.ipathCache (M.full p) r →
    ∃ f, v.backend.tree p = some f ∧ π (v.inode r) = π (v.backend.stat f)

end Property

variable {M : Mount} {v v' : Vfs} {path : CStr} {st : Stat} {p : Path}

theorem RefsOk.find_lt (h : RefsOk M v) {r : InodeRef} (hf : cacheFindInode M v path = some r) :
    r < v.nextRef :=
  h.ipath path r (Buckets.mem_of_find hf)

theorem sameInoFind_spec {dev ino : Nat} {r : InodeRef} (h : sameInoFind v dev ino = some r) :
    r ∈ v.inrCache (inoHash dev ino) ∧ (v.inode r).stDev = dev ∧ (v.inode r).stIno = ino := by
  have hp := List.find?_some h
  rw [decide_eq_true_eq] at hp
  exact ⟨List.mem_of_find?_eq_some h, hp.2, hp.1⟩

@[simp] theorem cacheFindInode_pathInsert_self {r : InodeRef} :
    cacheFindInode M (pathInsert M v path r) path = some r :=
  Buckets.find_insert_self

theorem cacheFindInode_pathInsert_of_ne {k : CStr} {r : InodeRef} (hk : k ≠ path) :
    cacheFindInode M (pathInsert M v path r) k = cacheFindInode M v k :=
  Buckets.find_insert_of_ne hk

theorem mem_creatInode {h : Nat} {r : InodeRef} (hr : r ∈ (creatInode v st).1.inrCache h) :
    r = v.nextRef ∨ r ∈ v.inrCache h := by
  simp only [creatInode] at hr
  by_cases hh : h = inoHash st.stDev st.stIno
  · rw [hh, Function.update_self, List.mem_cons] at hr
    exact hh ▸ hr
  · rw [Function.update_of_ne hh] at hr
    exact .inr hr

theorem IsRecord.le {f : FileId} {n : Nat} (h : IsRecord M v f st n) : v.nextInode ≤ n := by
  cases h with
  | localfs => exact Nat.le_refl _
  | shfs => exact Nat.le_succ _

/-- A record agrees with its file in all but the numbers that shfs makes up. -/
theorem IsRecord.agrees {α : Type} {π : Stat → α} {f : FileId} {n : Nat}
    (hπ : Numberless π) (h : IsRecord M v f st n) :
    π st = π (v.backend.stat f) := by
  cases h with
  | localfs => rfl
  | shfs => exact hπ ..

/-- What shfs makes up is new. -/
theorem RefsOk.sameInoFind_nextInode (h : RefsOk M v) (hs : M.sb.entry = .shfs) (dev : Nat) :
    sameInoFind v dev v.nextInode = none := by
  cases hf : sameInoFind v dev v.nextInode with
  | none => rfl
  | some r =>
    obtain ⟨hmem, -, hino⟩ := sameInoFind_spec hf
    exact absurd (hino ▸ h.ino hs r (h.inr _ r hmem)) (Nat.lt_irrefl _)

namespace CachesOne

/-- `cache_add_inode` with the record of a lookup. -/
theorem of_add {f : FileId} {n : Nat} (valid : ValidPath p)
    (uncached : cacheFindInode M v (M.full p) = none) (found : v.backend.tree p = some f)
    (record : IsRecord M v f st n) :
    CachesOne M v (cacheAddInode M { v with nextInode := n } (M.full p) st).1 := by
  unfold cacheAddInode
  rw [show sameInoFind { v with nextInode := n } = sameInoFind v from rfl]
  cases h : sameInoFind v st.stDev st.stIno with
  | some r => exact .share valid uncached found record h
  | none => exact .fresh valid uncached found record h

/-- Lookups leave the backend, the listings and the open files alone. -/
theorem frame (h : CachesOne M v v') : Frame v v' := by
  cases h <;> exact ⟨rfl, rfl, rfl, rfl, rfl⟩

/-- A cached path keeps its record. -/
theorem keep (h : CachesOne M v v') {k : CStr} {r : InodeRef}
    (hk : cacheFindInode M v k = some r) : cacheFindInode M v' k = some r := by
  cases h with
  | share _ uncached | fresh _ uncached =>
    have hne : k ≠ _ := fun he => by rw [he, uncached] at hk; cases hk
    exact (cacheFindInode_pathInsert_of_ne hne).trans hk
  | @again key r' cached =>
    by_cases he : k = key
    · rw [he, cacheFindInode_pathInsert_self, ← cached, ← he, hk]
    · exact (cacheFindInode_pathInsert_of_ne he).trans hk

/-- Records that exist are not written. -/
theorem inode_of_lt (h : CachesOne M v v') {r : InodeRef} (hr : r < v.nextRef) :
    v'.inode r = v.inode r := by
  cases h with
  | share | again => rfl
  | fresh => exact Function.update_of_ne (Nat.ne_of_lt hr) ..

theorem nextRef_le (h : CachesOne M v v') : v.nextRef ≤ v'.nextRef := by
  cases h with
  | share | again => exact Nat.le_refl _
  | fresh => exact Nat.le_succ _

theorem refsOk (h : CachesOne M v v') (hrefs : RefsOk M v) : RefsOk M v' := by
  cases h with
  | share _ _ _ record same =>
    refine ⟨fun k r hm => ?_, hrefs.inr, fun hs r hr => ?_⟩
    · rcases Buckets.mem_insert.mp hm with ⟨-, rfl⟩ | hm
      · exact hrefs.inr _ _ (sameInoFind_spec same).1
      · exact hrefs.ipath k r hm
    · exact Nat.lt_of_lt_of_le (hrefs.ino hs r hr) record.le
  | @fresh q f st n _ _ _ record same =>
    refine ⟨fun k r hm => ?_, fun h r hr => ?_, fun hs r hr => ?_⟩
    · rcases Buckets.mem_insert.mp hm with ⟨-, rfl⟩ | hm
      · exact Nat.lt_succ_self _
      · exact Nat.lt_succ_of_lt (hrefs.ipath k r hm)
    · rcases mem_creatInode hr with rfl | hr
      · exact Nat.lt_succ_self _
      · exact Nat.lt_succ_of_lt (hrefs.inr h r hr)
    · show (Function.update v.inode v.nextRef st r).stIno < n
      by_cases hnew : r = v.nextRef
      · rw [hnew, Function.update_self]
        cases record with
        | localfs hl => rw [hl] at hs; cases hs
        | shfs => exact Nat.lt_succ_self _
      · rw [Function.update_of_ne hnew]
        exact Nat.lt_of_lt_of_le
          (hrefs.ino hs r (Nat.lt_of_le_of_ne (Nat.le_of_lt_succ hr) hnew)) record.le
  | again cached =>
    refine ⟨fun k r hm => ?_, hrefs.inr, hrefs.ino⟩
    rcases Buckets.mem_insert.mp hm with ⟨-, rfl⟩ | hm
    · exact hrefs.find_lt cached
    · exact hrefs.ipath k r hm

variable {α : Type} {π : Stat → α}

/-- Looking one file up makes no misleading record for another. -/
theorem recordsOk (h : CachesOne M v v') (hrefs : RefsOk M v) (hwf : v.backend.WF)
    {f₀ : FileId} (hlive : ∃ p, v.backend.tree p = some f₀) (hok : RecordsOk π M v f₀) :
    RecordsOk π M v' f₀ := by
  cases h with
  | share | again => exact hok
  | @fresh q f st n _ _ found record same =>
    intro hl h r hr
    show (Function.update v.inode v.nextRef st r).stDev = _ →
      (Function.update v.inode v.nextRef st r).stIno = _ →
        π (Function.update v.inode v.nextRef st r) = _
    rcases mem_creatInode hr with rfl | hr
    · rw [Function.update_self]
      cases record with
      | localfs =>
        obtain ⟨p, hp⟩ := hlive
        intro hdev hino
        rw [hwf.inoUnique q p f f₀ found hp hdev hino]
        rfl
      | shfs hs => rw [hl] at hs; cases hs
    · rw [Function.update_of_ne (Nat.ne_of_lt (hrefs.inr h r hr))]
      exact hok hl h r hr

/-- A path that becomes cached gets a record that agrees with the file found there. -/
theorem cachedOk (hπ : Numberless π) (h : CachesOne M v v') (hrefs : RefsOk M v) (hp : ValidPath p)
    (hrec : ∀ f, v.backend.tree p = some f → RecordsOk π M v f) (hok : CachedOk π M v p) :
    CachedOk π M v' p := by
  intro r hr
  rw [h.frame.backend]
  cases h with
  | @share q f st n r' valid uncached found record same =>
    rcases Buckets.mem_insert.mp hr with ⟨hk, rfl⟩ | hr
    · obtain rfl := Mount.full_injective hp valid hk
      obtain ⟨hmem, hdev, hino⟩ := sameInoFind_spec same
      refine ⟨f, found, ?_⟩
      cases record with
      | localfs hl => exact hrec f found hl _ r hmem hdev hino
      | shfs hs => cases (hrefs.sameInoFind_nextInode hs 73).symm.trans same
    · exact hok r hr
  | @fresh q f st n valid uncached found record same =>
    rcases Buckets.mem_insert.mp hr with ⟨hk, rfl⟩ | hr
    · obtain rfl := Mount.full_injective hp valid hk
      refine ⟨f, found, ?_⟩
      show π (Function.update v.inode v.nextRef st v.nextRef) = _
      rw [Function.update_self]
      exact record.agrees hπ
    · obtain ⟨f', hf', heq⟩ := hok r hr
      refine ⟨f', hf', ?_⟩
      show π (Function.update v.inode v.nextRef st r) = _
      rw [Function.update_of_ne (Nat.ne_of_lt (hrefs.ipath _ r hr)), heq]
  | again cached =>
    rcases Buckets.mem_insert.mp hr with ⟨hk, rfl⟩ | hr
    · exact hok r (hk ▸ Buckets.mem_of_find cached)
    · exact hok r hr

end CachesOne

/-! ## The lookups of the source -/

theorem cacheFindInode_cacheAddInode_self :
    cacheFindInode M (cacheAddInode M v path st).1 path = some (cacheAddInode M v path st).2 := by
  unfold cacheAddInode
  cases sameInoFind v st.stDev st.stIno with
  | some r => exact cacheFindInode_pathInsert_self
  | none => exact cacheFindInode_pathInsert_self

theorem addToCache_of_some {dir : Option CStr} {file : CStr} {r : InodeRef}
    (h : cacheFindInode M v (cachePath M dir file) = some r) :
    addToCache M v dir file st = (v, { st with stIno := (v.inode r).stIno }) := by
  simp only [addToCache, h]

theorem addToCache_of_none {dir : Option CStr} {file : CStr}
    (h : cacheFindInode M v (cachePath M dir file) = none) :
    addToCache M v dir file st =
      ((cacheAddInode M { v with nextInode := v.nextInode + 1 } (cachePath M dir file)
        { st with stIno := v.nextInode }).1, { st with stIno := v.nextInode }) := by
  simp only [addToCache, h]

/-- `add_to_cache`, for the path of a file of the backend. -/
theorem addToCache_caches (hs : M.sb.entry = .shfs) (hp : ValidPath p) {f : FileId}
    (found : v.backend.tree p = some f) {dir : Option CStr} {file : CStr}
    (hkey : cachePath M dir file = M.full p) :
    ∃ v' i, addToCache M v dir file (shfsStat (v.backend.stat f)) =
        (v', (v.backend.stat f).renumber 73 i) ∧
      Caches M v v' ∧ ∃ r, cacheFindInode M v' (M.full p) = some r := by
  cases h : cacheFindInode M v (M.full p) with
  | some r => exact ⟨v, _, addToCache_of_some (hkey ▸ h), .refl, r, h⟩
  | none =>
    refine ⟨_, _, addToCache_of_none (hkey ▸ h), ?_, ?_⟩
    · rw [hkey]
      exact .single (.of_add hp h found (.shfs hs))
    · rw [hkey]
      exact ⟨_, cacheFindInode_cacheAddInode_self⟩

/-- The backend's `lstat` finds the files of its tree, and caches at most the path asked for. -/
theorem epLstat_spec (hp : ValidPath p) :
    (v.backend.tree p = none ∧ epLstat M v (M.rel p) = (v, .error .ENOENT)) ∨
    ∃ f v' d i, v.backend.tree p = some f ∧
      epLstat M v (M.rel p) = (v', .ok ((v.backend.stat f).renumber d i)) ∧
      Caches M v v' ∧
      ((∃ r, cacheFindInode M v' (M.full p) = some r) ∨
        (v' = v ∧ IsRecord M v f ((v.backend.stat f).renumber d i) v.nextInode)) := by
  unfold epLstat
  rw [Mount.components_rel hp, Backend.lstat]
  cases htree : v.backend.tree p with
  | none => exact .inl ⟨rfl, rfl⟩
  | some f =>
    refine .inr ⟨f, ?_⟩
    cases hs : M.sb.entry with
    | localfs => exact ⟨v, _, _, rfl, rfl, .refl, .inr ⟨rfl, .localfs hs⟩⟩
    | shfs =>
      obtain ⟨v', i, heq, hcaches, hfound⟩ :=
        addToCache_caches hs hp htree (Mount.cachePath_lstat hp)
      refine ⟨v', 73, i, rfl, ?_, hcaches, .inl hfound⟩
      simp only [heq]

/-- Looking a file up: what is cached answers, else the backend. -/
theorem okfsDolstat_spec (hp : ValidPath p) :
    (∃ r, cacheFindInode M v (M.full p) = some r ∧
      okfsDolstat M v (M.full p) (M.rel p) = (v, .ok (v.inode r))) ∨
    (cacheFindInode M v (M.full p) = none ∧ v.backend.tree p = none ∧
      okfsDolstat M v (M.full p) (M.rel p) = (v, .error .ENOENT)) ∨
    ∃ f v' d i, cacheFindInode M v (M.full p) = none ∧ v.backend.tree p = some f ∧
      okfsDolstat M v (M.full p) (M.rel p) =
        (v', .ok ((v.backend.stat f).renumber d i)) ∧
      Caches M v v' ∧ ∃ r, cacheFindInode M v' (M.full p) = some r := by
  cases h : cacheFindInode M v (M.full p) with
  | some r => exact .inl ⟨r, rfl, by simp only [okfsDolstat, h]⟩
  | none =>
    refine .inr ?_
    rcases epLstat_spec (M := M) (v := v) hp with ⟨hnone, heq⟩ | ⟨f, v', d, i, hf, heq, hcaches, hrec⟩
    · exact .inl ⟨rfl, hnone, by simp only [okfsDolstat, h, heq]⟩
    · refine .inr ⟨f, ?_⟩
      cases h' : cacheFindInode M v' (M.full p) with
      | some r =>
        exact ⟨v', d, i, rfl, hf, by simp only [okfsDolstat, h, heq, h'], hcaches, r, h'⟩
      | none =>
        rcases hrec with ⟨r, hr⟩ | ⟨rfl, hrec⟩
        · rw [h'] at hr
          cases hr
        · refine ⟨(cacheAddInode M v' (M.full p) ((v'.backend.stat f).renumber d i)).1, d, i, rfl,
            hf, by simp only [okfsDolstat, h, heq], ?_, _, cacheFindInode_cacheAddInode_self⟩
          exact .single (.of_add hp h hf hrec)

/-- `okfs_arglstat` of a path of the mount asks this filesystem. -/
theorem arglstat_full (hp : ValidPath p) :
    arglstat M v (M.full p) = okfsDolstat M v (M.full p) (M.rel p) := by
  have hcanon : IsCanonical M.sb.mntPoint := ⟨M.mnt, M.valid, M.mntPoint_eq⟩
  have hfull : IsCanonical (M.full p) := ⟨M.mnt ++ p, Mount.valid_mnt_append hp, rfl⟩
  have hpre : M.sb.mntPoint <+: M.full p := by
    rw [Mount.full_eq]
    exact List.prefix_append ..
  have hsel : mountedFor [M.sb] (M.full p) = some M.sb := by
    rw [mountedFor_eq_find_matching (by simpa using hcanon)]
    simp [hpre]
  rw [arglstat, okfsArglstat, hsel]
  rfl

namespace Caches

theorem frame (h : Caches M v v') : Frame v v' := by
  induction h with
  | refl => exact ⟨rfl, rfl, rfl, rfl, rfl⟩
  | tail _ hone ih =>
    have h := hone.frame
    exact ⟨h.backend.trans ih.backend, h.dcache.trans ih.dcache, h.files.trans ih.files,
      h.nextFile.trans ih.nextFile, h.pending.trans ih.pending⟩

theorem keep (h : Caches M v v') {k : CStr} {r : InodeRef}
    (hk : cacheFindInode M v k = some r) : cacheFindInode M v' k = some r := by
  induction h with
  | refl => exact hk
  | tail _ hone ih => exact hone.keep ih

theorem nextRef_le (h : Caches M v v') : v.nextRef ≤ v'.nextRef := by
  induction h with
  | refl => exact Nat.le_refl _
  | tail _ hone ih => exact Nat.le_trans ih hone.nextRef_le

theorem inode_of_lt (h : Caches M v v') {r : InodeRef} (hr : r < v.nextRef) :
    v'.inode r = v.inode r := by
  induction h with
  | refl => rfl
  | tail hcaches hone ih =>
    rw [hone.inode_of_lt (Nat.lt_of_lt_of_le hr (Caches.nextRef_le hcaches)), ih]

theorem refsOk (h : Caches M v v') (hrefs : RefsOk M v) : RefsOk M v' := by
  induction h with
  | refl => exact hrefs
  | tail _ hone ih => exact hone.refsOk ih

variable {α : Type} {π : Stat → α}

theorem recordsOk (h : Caches M v v') (hrefs : RefsOk M v) (hwf : v.backend.WF)
    {f₀ : FileId} (hlive : ∃ p, v.backend.tree p = some f₀) (hok : RecordsOk π M v f₀) :
    RecordsOk π M v' f₀ := by
  induction h with
  | refl => exact hok
  | tail hcaches hone ih =>
    have hb := (Caches.frame hcaches).backend
    exact hone.recordsOk (Caches.refsOk hcaches hrefs) (hb ▸ hwf) (hb ▸ hlive) ih

theorem cachedOk (hπ : Numberless π) (h : Caches M v v') (hrefs : RefsOk M v) (hwf : v.backend.WF)
    (hp : ValidPath p) (hrec : ∀ f, v.backend.tree p = some f → RecordsOk π M v f)
    (hok : CachedOk π M v p) : CachedOk π M v' p := by
  induction h with
  | refl => exact hok
  | tail hcaches hone ih =>
    have hb := (Caches.frame hcaches).backend
    refine hone.cachedOk hπ (Caches.refsOk hcaches hrefs) hp ?_ ih
    intro f hf
    rw [hb] at hf
    exact Caches.recordsOk hcaches hrefs hwf ⟨p, hf⟩ (hrec f hf)

end Caches

/-! ## Records and paths when the backend changes -/

section Property

variable {α : Type} {π : Stat → α} {f : FileId}

theorem RecordsOk.congr (h : RecordsOk π M v f) (hinr : v'.inrCache = v.inrCache)
    (hinode : v'.inode = v.inode) (hattr : v'.backend.attr f = v.backend.attr f) :
    RecordsOk π M v' f := by
  intro hl b r hr
  rw [hinode, hattr, Backend.stat, hattr]
  exact h hl b r (hinr ▸ hr)

theorem CachedOk.congr (h : CachedOk π M v p)
    (hmem : ∀ r, Buckets.Mem M.nameHash v'.ipathCache (M.full p) r →
      Buckets.Mem M.nameHash v.ipathCache (M.full p) r)
    (hinode : v'.inode = v.inode) (htree : v'.backend.tree p = v.backend.tree p)
    (hattr : ∀ f, v.backend.tree p = some f → v'.backend.attr f = v.backend.attr f) :
    CachedOk π M v' p := by
  intro r hr
  obtain ⟨f, hf, heq⟩ := h r (hmem r hr)
  refine ⟨f, htree.trans hf, ?_⟩
  rw [hinode, Backend.stat, hattr f hf]
  exact heq

/-- Nothing is cached where the backend has no file. -/
theorem CachedOk.uncached (h : CachedOk π M v p) (habsent : v.backend.tree p = none) (r : InodeRef) :
    ¬ Buckets.Mem M.nameHash v.ipathCache (M.full p) r := by
  intro hr
  obtain ⟨f, hf, -⟩ := h r hr
  rw [habsent] at hf
  cases hf

end Property

/-! ## Adding and removing an entry -/

/-- Two `stat` structures that differ in size and times at most. -/
def Resized (st st' : Stat) : Prop :=
  ∃ s a m, st' = { st with stSize := s, stAtime := a, stMtime := m }

/-- Between the two, nothing but sizes and times and the listings changed. -/
structure Touched (v v' : Vfs) : Prop where
  ipathCache : v'.ipathCache = v.ipathCache
  inrCache : v'.inrCache = v.inrCache
  nextRef : v'.nextRef = v.nextRef
  nextInode : v'.nextInode = v.nextInode
  files : v'.files = v.files
  nextFile : v'.nextFile = v.nextFile
  pending : v'.pending = v.pending
  tree : v'.backend.tree = v.backend.tree
  nextId : v'.backend.nextFile = v.backend.nextFile
  attr : ∀ f, Resized (v.backend.attr f) (v'.backend.attr f)
  inode : ∀ r, Resized (v.inode r) (v'.inode r)

theorem Resized.refl (st : Stat) : Resized st st := ⟨_, _, _, rfl⟩

namespace Touched

theorem of_dcache (t : Buckets.Table CStr (List OkfsDirent)) :
    Touched v { v with dcache := t } :=
  ⟨rfl, rfl, rfl, rfl, rfl, rfl, rfl, rfl, rfl, fun _ => .refl _, fun _ => .refl _⟩

theorem find (h : Touched v v') : cacheFindInode M v' path = cacheFindInode M v path := by
  rw [cacheFindInode, cacheFindInode, h.ipathCache]

theorem isDir (h : Touched v v') : v'.backend.IsDir = v.backend.IsDir := by
  funext f
  obtain ⟨s, a, m, heq⟩ := h.attr f
  rw [Backend.IsDir, Backend.IsDir, heq]

theorem wf (h : Touched v v') (hwf : v.backend.WF) : v'.backend.WF := by
  refine ⟨?_, ?_, ?_, ?_, ?_, ?_⟩
  · rw [h.isDir, h.tree]
    exact hwf.root
  · rw [h.tree]
    exact hwf.valid
  · rw [h.isDir, h.tree]
    exact hwf.closed
  · rw [h.isDir, h.tree]
    exact hwf.dirsOnce
  · rw [h.tree, h.nextId]
    exact hwf.fresh
  · intro p q f g hf hg
    obtain ⟨s, a, m, heqf⟩ := h.attr f
    obtain ⟨s', a', m', heqg⟩ := h.attr g
    rw [heqf, heqg]
    rw [h.tree] at hf hg
    exact hwf.inoUnique p q f g hf hg

theorem refsOk (h : Touched v v') (hrefs : RefsOk M v) : RefsOk M v' := by
  refine ⟨fun k r hm => ?_, fun b r hr => ?_, fun hs r hr => ?_⟩
  · rw [h.nextRef]
    exact hrefs.ipath k r (h.ipathCache ▸ hm)
  · rw [h.nextRef]
    exact hrefs.inr b r (h.inrCache ▸ hr)
  · obtain ⟨s, a, m, heq⟩ := h.inode r
    rw [heq, h.nextInode]
    exact hrefs.ino hs r (h.nextRef ▸ hr)

variable {α : Type} {π : Stat → α}

theorem stat (hπ : Intrinsic π) (h : Touched v v') (f : FileId) :
    π (v'.backend.stat f) = π (v.backend.stat f) := by
  obtain ⟨s, a, m, heq⟩ := h.attr f
  rw [Backend.stat, heq]
  exact hπ.touch (v.backend.stat f) s a m

theorem recordsOk (hπ : Intrinsic π) (h : Touched v v') {f : FileId} (hok : RecordsOk π M v f) :
    RecordsOk π M v' f := by
  intro hl b r hr
  obtain ⟨s, a, m, heq⟩ := h.inode r
  obtain ⟨s', a', m', heqf⟩ := h.attr f
  rw [heq, heqf, h.stat hπ, hπ.touch]
  exact hok hl b r (h.inrCache ▸ hr)

theorem cachedOk (hπ : Intrinsic π) (h : Touched v v') (hok : CachedOk π M v p) :
    CachedOk π M v' p := by
  intro r hr
  rw [h.ipathCache] at hr
  obtain ⟨f, hf, heq⟩ := hok r hr
  obtain ⟨s, a, m, heqr⟩ := h.inode r
  exact ⟨f, by rw [h.tree, hf], by rw [heqr, h.stat hπ, hπ.touch, heq]⟩

end Touched

theorem addDirent_touched (newpath : CStr) (name : Name) (buf : Stat) :
    Touched v (addDirent M v newpath name buf) := by
  unfold addDirent
  cases hip : cacheFindInode M v newpath with
  | none => exact .of_dcache _
  | some ip =>
    refine ⟨rfl, rfl, rfl, rfl, rfl, rfl, rfl, rfl, rfl, fun _ => .refl _, fun r => ?_⟩
    by_cases hr : r = ip
    · exact ⟨_, _, _, by rw [hr]; exact Function.update_self ..⟩
    · exact ⟨_, _, _, Function.update_of_ne hr ..⟩

@[simp] theorem addDirent_dcache (newpath : CStr) (name : Name) (buf : Stat) :
    (addDirent M v newpath name buf).dcache =
      Buckets.modifyFirst M.nameHash v.dcache newpath (⟨buf.stIno, DT_UNKNOWN, name⟩ :: ·) := by
  unfold addDirent
  cases cacheFindInode M v newpath <;> rfl

/-- With the file in the backend, its name goes in front of its directory's listing, if
there is one. -/
theorem cacheAddEntry_spec {n : Name} {f : FileId} (hp : ValidPath (p ++ [n]))
    (found : v.backend.tree (p ++ [n]) = some f) :
    ∃ v₁ v' d, cacheAddEntry M v (M.full (p ++ [n])) = some v' ∧ Caches M v v₁ ∧ Touched v₁ v' ∧
      d.name = n ∧ v'.dcache = Buckets.modifyFirst M.nameHash v.dcache (M.full p) (d :: ·) := by
  have hadd : ∀ r, arglstat M v (M.full (p ++ [n])) = r →
      cacheAddEntry M v (M.full (p ++ [n])) =
        match cacheFindDentry M v (M.full p) with
        | none => some v
        | some _ =>
          match r with
          | (v, .error _) => some v
          | (v, .ok buf) => some (addDirent M v (M.full p) n buf) := by
    rintro r rfl
    rw [cacheAddEntry, Mount.splitPath_full hp]
    rfl
  have hget : ∃ v₁ buf, arglstat M v (M.full (p ++ [n])) = (v₁, .ok buf) ∧ Caches M v v₁ := by
    rw [arglstat_full hp]
    rcases okfsDolstat_spec (M := M) (v := v) hp with
      ⟨r, -, heq⟩ | ⟨-, hnone, -⟩ | ⟨f, v₁, d, i, -, -, heq, hcaches, -⟩
    · exact ⟨v, _, heq, .refl⟩
    · rw [hnone] at found
      cases found
    · exact ⟨v₁, _, heq, hcaches⟩
  obtain ⟨v₁, buf, hbuf, hcaches⟩ := hget
  rw [hadd _ hbuf]
  cases hdent : cacheFindDentry M v (M.full p) with
  | none =>
    refine ⟨v, v, ⟨0, 0, n⟩, rfl, .refl, .of_dcache _, rfl, ?_⟩
    exact (Buckets.modifyFirst_of_none hdent).symm
  | some l =>
    refine ⟨v₁, _, ⟨buf.stIno, DT_UNKNOWN, n⟩, rfl, hcaches, addDirent_touched .., rfl, ?_⟩
    rw [addDirent_dcache, hcaches.frame.dcache]

/-- The name taken off a listing. -/
def dropName (n : Name) (l : List OkfsDirent) : List OkfsDirent := l.eraseP (·.name = n)

theorem removeDirent_eq_some {n : Name} {l l' : List OkfsDirent} :
    removeDirent n l = some l' ↔ n ∈ l.map (·.name) ∧ l' = dropName n l := by
  induction l generalizing l' with
  | nil => simp [removeDirent]
  | cons d l ih =>
    by_cases hd : d.name = n
    · simp [removeDirent, dropName, hd, eq_comm]
    · have hd' : ¬ n = d.name := fun h => hd h.symm
      have hdrop : dropName n (d :: l) = d :: dropName n l :=
        List.eraseP_cons_of_neg (by simpa using hd)
      rw [hdrop, List.map_cons, List.mem_cons, removeDirent, if_neg hd, Option.map_eq_some_iff]
      simp only [ih, hd', false_or]
      constructor
      · rintro ⟨a, ⟨hn, rfl⟩, rfl⟩
        exact ⟨hn, rfl⟩
      · rintro ⟨hn, rfl⟩
        exact ⟨_, ⟨hn, rfl⟩, rfl⟩

theorem dropDirent_eq_some {n : Name} :
    dropDirent M v path n = some v' ↔
      (∀ l, cacheFindDentry M v path = some l → n ∈ l.map (·.name)) ∧
      v' = { v with dcache := Buckets.modifyFirst M.nameHash v.dcache path (dropName n) } := by
  unfold dropDirent
  cases hd : cacheFindDentry M v path with
  | none =>
    rw [Buckets.modifyFirst_of_none hd]
    simp [eq_comm (a := v)]
  | some l =>
    have hcongr : Buckets.modifyFirst M.nameHash v.dcache path (dropName n) =
        Buckets.modifyFirst M.nameHash v.dcache path fun _ => dropName n l := by
      apply Buckets.modifyFirst_congr
      intro l₀ hl₀
      rw [Option.some.inj (hl₀.symm.trans hd)]
    simp only [Option.map_eq_some_iff, removeDirent_eq_some, Option.some.injEq, forall_eq']
    rw [hcongr]
    constructor
    · rintro ⟨l', ⟨hn, rfl⟩, rfl⟩
      exact ⟨hn, rfl⟩
    · rintro ⟨hn, rfl⟩
      exact ⟨_, ⟨hn, rfl⟩, rfl⟩

/-- The chain of the path is not empty, and the path is not that of its second node,
unless it is that of the first one too: `path_remove` reads no missing pointer. -/
def Removable (M : Mount) (v : Vfs) (path : CStr) : Prop :=
  match v.ipathCache (M.nameHash path) with
  | [] => False
  | [_] => True
  | e₁ :: e₂ :: _ => e₁.1 = path ∨ e₂.1 ≠ path

theorem pathRemoveChain_eq_some {chain chain' : List (CStr × InodeRef)} :
    pathRemoveChain path chain = some chain' ↔
      (match chain with
        | [] => False
        | [_] => True
        | e₁ :: e₂ :: _ => e₁.1 = path ∨ e₂.1 ≠ path) ∧
      chain' = chain.eraseP (·.1 = path) := by
  match chain with
  | [] => simp [pathRemoveChain]
  | [e] =>
    by_cases he : e.1 = path <;> simp [pathRemoveChain, he, eq_comm (b := chain')]
  | e₁ :: e₂ :: es =>
    by_cases h₁ : e₁.1 = path
    · simp [pathRemoveChain, h₁, eq_comm (b := chain')]
    · by_cases h₂ : e₂.1 = path
      · simp [pathRemoveChain, h₁, h₂]
      · simp [pathRemoveChain, h₁, h₂, eq_comm (b := chain')]

theorem pathRemove_eq_some :
    pathRemove M v path = some v' ↔ Removable M v path ∧
      v' = { v with ipathCache := Buckets.eraseFirst M.nameHash v.ipathCache path } := by
  rw [pathRemove, Option.map_eq_some_iff]
  constructor
  · rintro ⟨chain, hchain, rfl⟩
    obtain ⟨hr, rfl⟩ := pathRemoveChain_eq_some.mp hchain
    exact ⟨hr, rfl⟩
  · rintro ⟨hr, rfl⟩
    exact ⟨_, pathRemoveChain_eq_some.mpr ⟨hr, rfl⟩, rfl⟩

/-- `cache_remove_entry` runs to its end when the path can be removed and its
directory's listing, if there is one, has the name; it then takes off both. -/
theorem cacheRemoveEntry_eq_some {n : Name} (hp : ValidPath (p ++ [n])) :
    cacheRemoveEntry M v (M.full (p ++ [n])) = some v' ↔
      Removable M v (M.full (p ++ [n])) ∧
      (∀ l, cacheFindDentry M v (M.full p) = some l → n ∈ l.map (·.name)) ∧
      v' = { v with
        ipathCache := Buckets.eraseFirst M.nameHash v.ipathCache (M.full (p ++ [n]))
        dcache := Buckets.modifyFirst M.nameHash v.dcache (M.full p) (dropName n) } := by
  have hdef : cacheRemoveEntry M v (M.full (p ++ [n])) =
      (pathRemove M v (M.full (p ++ [n]))).bind fun v => dropDirent M v (M.full p) n := by
    rw [cacheRemoveEntry, Mount.splitPath_full hp]
    rfl
  rw [hdef, Option.bind_eq_some_iff]
  simp only [pathRemove_eq_some, dropDirent_eq_some]
  constructor
  · rintro ⟨w, ⟨hr, rfl⟩, hname, rfl⟩
    exact ⟨hr, hname, rfl⟩
  · rintro ⟨hr, hname, rfl⟩
    exact ⟨_, ⟨hr, rfl⟩, hname, rfl⟩

end Okfs
