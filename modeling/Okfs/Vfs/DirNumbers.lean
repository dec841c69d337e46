import Okfs.Vfs.CachedOnce
import Okfs.Vfs.Seek

/-!
# OKFS — the numbers of `.` and `..`

shfs makes up the inode numbers of its files, so `shfs_readdir` looks up the two that it puts
beside `.` and `..`. `get_ino` follows the record that it finds in `ipath_cache` under the path
of the open directory; the assertion that there is one is compiled out. `get_parent_ino` cuts
the path at its last slash, asks `okfs_arglstat` where that path is not cached, and does not look
whether it was answered.

A directory stays open while it, or what it is in, is removed or renamed, and no call brings a
path back into the cache for it (`KeepsNumbers`). `lookups_succeed_iff`: both numbers are found
in all states of the runs without such calls, and of no others.
-/

namespace Okfs

open Components FileTree

-- ---------------------------------------------------------------------
-- The lookups
-- ---------------------------------------------------------------------

/-- `strrchr(path, '/')`, by the characters in front of it. -/
def lastSlash (path : CStr) : Option Nat := (splitLast slash path).map fun (dir, _) => dir.length

/-- The string of the open file while `get_parent_ino` looks for its directory, -/
def cutPath (path : CStr) : CStr :=
  match lastSlash path with
  | none => path
  | some sp => path.set sp 0

/-- and when it returns. -/
def pathAfter (path : CStr) : CStr :=
  if path = [slash] then path
  else
    match lastSlash path with
    | none => path
    | some sp => (cutPath path).set sp slash

section Lookups

variable (M : Mount) (v : Vfs)

/-- `get_parent_ino` reads a record, or a `buf` that was filled. -/
def ParentFound (path : CStr) : Prop :=
  if path = [slash] then getIno M v path ≠ none
  else
    ∃ newpath name, splitPath path = some (newpath, name) ∧
      (cacheFindInode M v newpath ≠ none ∨ ∃ buf, (arglstat M v newpath).2 = .ok buf)

/-- The lookups of `shfs_readdir` succeed for a directory that was opened by this path. -/
structure NumbersFound (path : CStr) : Prop where
  ino : getIno M v path ≠ none
  parent : ParentFound M v path
  unchanged : pathAfter path = path

/-- A directory is open by this path and its listing is not cached, so that `okfs_do_readdir`
goes to `shfs_readdir`. -/
def ReadsDirAt (path : CStr) : Prop :=
  cacheFindDirent M v path = [] ∧
    ∃ fd filep, v.files fd = some filep ∧ filep.path = path ∧ v.backend.IsDir filep.file

def LookupsSucceed : Prop := ∀ path, ReadsDirAt M v path → NumbersFound M v path

/-- The path has a node in `ipath_cache`. -/
def HasNode (path : CStr) : Prop := 0 < Buckets.count M.nameHash v.ipathCache path

/-- The directory above is cached or there; for the mount point that is a directory of the system. -/
def AboveKnown (p : Path) : Prop :=
  if p = [] then
    HasNode M v (canonPath M.mnt.dropLast) ∨
      ∃ buf, M.linuxLstat (canonPath M.mnt.dropLast) = .ok buf
  else HasNode M v (M.full p.dropLast) ∨ ∃ f, v.backend.tree p.dropLast = some f

/-- With one node of `p` taken out of `ipath_cache`, `q` has one. -/
def StaysCached (p q : Path) : Prop :=
  (if q = p then 2 else 1) ≤ Buckets.count M.nameHash v.ipathCache (M.full q)

/-- The calls that do not take a number from a directory that is open, and that open no directory
without numbers. -/
def KeepsNumbers (M : Mount) (v : Vfs) : VfsOp → Prop
  | .ns (.unlink p (.ok ())) | .ns (.rmdir p (.ok ())) =>
    ∀ d, ValidPath d → ReadsDirAt M v (M.full d) → d = p ∨ d ≠ [] ∧ d.dropLast = p →
      StaysCached M v p p
  | .ns (.rename p₁ p₂ (.ok ())) => ∀ d, ValidPath d → ReadsDirAt M v (M.full d) →
      (d = p₁ → StaysCached M v p₁ d ∨
        p₁ = p₂ ∧ cacheFindDentry M v (M.full p₁.dropLast) ≠ none) ∧
      (d ≠ [] → p₁ <+: d.dropLast → v.backend.tree p₁ ≠ v.backend.tree p₂ →
        StaysCached M v p₁ d.dropLast)
  | .ns (.afterOpen i true) => ∀ o, v.pending[i]? = some o → v.backend.IsDir o.file →
      cacheFindDirent M v o.canonPath = [] → ∀ d, ValidPath d → o.canonPath = M.full d →
        HasNode M v (M.full d) ∧ AboveKnown M v d
  | _ => True

end Lookups

/-- A call on the mount, or the close of the last descriptor of an open file. -/
inductive MountOp
  | call (op : VfsOp)
  | close (fd : FileRef)

/-- `okfs_close_fd` frees the open file; shfs has no slot for `close`. -/
def closeFile (v : Vfs) (fd : FileRef) : Vfs := { v with files := Function.update v.files fd none }

def mountStep (M : Mount) (links : FileId → Option FileId) (v : Vfs) : MountOp → Option Vfs
  | .call op => vfsStep M links v op
  | .close fd => (v.files fd).map fun _ => closeFile v fd

def MountAdmissible (M : Mount) (v : Vfs) : MountOp → Prop
  | .call op => VfsAdmissible M v op
  | .close _ => True

def MountKeepsNumbers (M : Mount) (v : Vfs) : MountOp → Prop
  | .call op => KeepsNumbers M v op
  | .close _ => True

variable {M : Mount} {links : FileId → Option FileId} {v v' v'' : Vfs} {p p₁ p₂ q d : Path}
  {path : CStr}

-- ---------------------------------------------------------------------
-- The path
-- ---------------------------------------------------------------------

/-- and leaves the string as it was. -/
theorem pathAfter_eq (path : CStr) : pathAfter path = path := by
  unfold pathAfter cutPath lastSlash
  split
  · rfl
  · cases hsplit : splitLast slash path with
    | none => rfl
    | some r =>
      have hpath := eq_of_splitLast hsplit
      simp only [Option.map_some, List.set_set]
      conv_lhs => rw [hpath]
      rw [List.set_append_right _ _ (Nat.le_refl _), Nat.sub_self, List.set_cons_zero, ← hpath]

theorem hasNode_iff : HasNode M v path ↔ cacheFindInode M v path ≠ none := by
  rw [HasNode, Nat.pos_iff_ne_zero, ne_eq, Buckets.count_eq_zero_iff]
  rfl

theorem full_ne_slash (hp : ValidPath p) : M.full p ≠ [slash] := by
  intro h
  have hnil : M.mnt ++ p = [] :=
    canonPath_injective (Mount.valid_mnt_append hp) (fun n hn => by cases hn) h
  exact M.ne_root (List.append_eq_nil_iff.mp hnil).1

/-- The filesystem has the number of a file that is cached or there. -/
theorem arglstat_ok_iff (hp : ValidPath p) :
    (cacheFindInode M v (M.full p) ≠ none ∨ ∃ buf, (arglstat M v (M.full p)).2 = .ok buf) ↔
      HasNode M v (M.full p) ∨ ∃ f, v.backend.tree p = some f := by
  rw [arglstat_full hp, hasNode_iff]
  rcases okfsDolstat_spec (M := M) (v := v) hp with
    ⟨r, hr, -⟩ | ⟨hnone, habsent, heq⟩ | ⟨f, w, n, i, hnone, hf, heq, -, -⟩
  · rw [hr]
    simp
  · rw [hnone, habsent, heq]
    simp
  · rw [hf, heq]
    simp

/-- **What has numbers.** A path that is cached, in a directory that is cached or there. -/
theorem numbersFound_iff (hp : ValidPath p) :
    NumbersFound M v (M.full p) ↔ HasNode M v (M.full p) ∧ AboveKnown M v p := by
  have hino : getIno M v (M.full p) ≠ none ↔ HasNode M v (M.full p) := by
    rw [getIno, ne_eq, Option.map_eq_none_iff, hasNode_iff]
  have hparent : ParentFound M v (M.full p) ↔ AboveKnown M v p := by
    rw [ParentFound, if_neg (full_ne_slash hp), AboveKnown]
    rcases List.eq_nil_or_concat p with rfl | ⟨q, n, rfl⟩
    · obtain ⟨x, hx⟩ := splitPath_above (M := M)
      have habove : (arglstat M v (canonPath M.mnt.dropLast)).2 =
          M.linuxLstat (canonPath M.mnt.dropLast) := by
        rw [arglstat_above_eq]
      rw [if_pos rfl, hx, hasNode_iff, ← habove]
      constructor
      · rintro ⟨_, _, heq, h⟩
        rw [Option.some.injEq, Prod.mk.injEq] at heq
        exact heq.1 ▸ h
      · exact fun h => ⟨_, x, rfl, h⟩
    · rw [List.concat_eq_append] at hp ⊢
      rw [if_neg (by simp), List.dropLast_concat, Mount.splitPath_full hp, ← arglstat_ok_iff hp.left]
      constructor
      · rintro ⟨_, _, heq, h⟩
        rw [Option.some.injEq, Prod.mk.injEq] at heq
        exact heq.1 ▸ h
      · exact fun h => ⟨_, n, rfl, h⟩
  constructor
  · rintro ⟨h, h', -⟩
    exact ⟨hino.mp h, hparent.mp h'⟩
  · rintro ⟨h, h'⟩
    exact ⟨hino.mpr h, hparent.mpr h', pathAfter_eq _⟩

/-- The property, by paths below the mount point. -/
theorem lookupsSucceed_iff (hok : OpenOk M v) :
    LookupsSucceed M v ↔ ∀ d, ValidPath d → ReadsDirAt M v (M.full d) →
      HasNode M v (M.full d) ∧ AboveKnown M v d := by
  constructor
  · intro h d hd hreads
    exact (numbersFound_iff hd).mp (h _ hreads)
  · intro h path hreads
    obtain ⟨-, fd, filep, hfile, rfl, -⟩ := id hreads
    obtain ⟨-, d, hd, hpath, -⟩ := hok.files fd filep hfile
    rw [hpath] at hreads ⊢
    exact (numbersFound_iff hd).mpr (h d hd hreads)

-- ---------------------------------------------------------------------
-- What most calls leave
-- ---------------------------------------------------------------------

/-- No node is taken out, no file taken away, no listing forgotten. -/
structure LeavesNumbers (M : Mount) (v v' : Vfs) : Prop where
  nodes : ∀ k, Buckets.count M.nameHash v.ipathCache k ≤ Buckets.count M.nameHash v'.ipathCache k
  there : ∀ q f, v.backend.tree q = some f → ∃ f', v'.backend.tree q = some f'
  listed : ∀ k, cacheFindDirent M v' k = [] → cacheFindDirent M v k = []

/-- What is open was so before, on the same file and by the same path. -/
def OpensNone (v v' : Vfs) : Prop :=
  ∀ fd filep', v'.files fd = some filep' →
    ∃ filep, v.files fd = some filep ∧ filep.path = filep'.path ∧ filep.file = filep'.file

/-- Files stay what they are. -/
def SameTypes (v v' : Vfs) : Prop :=
  ∀ f < v.backend.nextFile, (v'.backend.attr f).stType = (v.backend.attr f).stType

/-- What is open, or being opened, is a file that has been made. -/
structure OpenMade (v : Vfs) : Prop where
  files : ∀ fd filep, v.files fd = some filep → filep.file < v.backend.nextFile
  pending : ∀ o ∈ v.pending, o.file < v.backend.nextFile

namespace LeavesNumbers

theorem refl (v : Vfs) : LeavesNumbers M v v :=
  ⟨fun _ => Nat.le_refl _, fun _ f hf => ⟨f, hf⟩, fun _ h => h⟩

theorem trans (h : LeavesNumbers M v v') (h' : LeavesNumbers M v' v'') : LeavesNumbers M v v'' := by
  refine ⟨fun k => Nat.le_trans (h.nodes k) (h'.nodes k), fun q f hf => ?_,
    fun k hk => h.listed k (h'.listed k hk)⟩
  obtain ⟨f', hf'⟩ := h.there q f hf
  exact h'.there q f' hf'

theorem hasNode (h : LeavesNumbers M v v') (hnode : HasNode M v path) : HasNode M v' path :=
  Nat.lt_of_lt_of_le hnode (h.nodes path)

theorem aboveKnown (h : LeavesNumbers M v v') (habove : AboveKnown M v d) : AboveKnown M v' d := by
  unfold AboveKnown at *
  split at habove
  · rename_i hnil
    rw [if_pos hnil]
    exact habove.imp_left h.hasNode
  · rename_i hne
    rw [if_neg hne]
    exact habove.imp h.hasNode fun ⟨f, hf⟩ => h.there _ f hf

/-- A directory that is read was open before. -/
theorem readsDirAt (h : LeavesNumbers M v v') (hopen : OpensNone v v') (htypes : SameTypes v v')
    (hmade : OpenMade v) (hreads : ReadsDirAt M v' path) : ReadsDirAt M v path := by
  obtain ⟨hlisted, fd, filep', hfile', hpath', hdir'⟩ := hreads
  obtain ⟨filep, hfile, hpath, heq⟩ := hopen fd filep' hfile'
  refine ⟨h.listed _ hlisted, fd, filep, hfile, hpath.trans hpath', ?_⟩
  rw [Backend.IsDir, ← htypes _ (hmade.files fd filep hfile), heq]
  exact hdir'

theorem lookupsSucceed (h : LeavesNumbers M v v') (hopen : OpensNone v v')
    (htypes : SameTypes v v') (hmade : OpenMade v) (hok : OpenOk M v) (hok' : OpenOk M v')
    (hv : LookupsSucceed M v) : LookupsSucceed M v' := by
  rw [lookupsSucceed_iff hok] at hv
  rw [lookupsSucceed_iff hok']
  intro d hd hreads
  have hfound := hv d hd (h.readsDirAt hopen htypes hmade hreads)
  exact ⟨h.hasNode hfound.1, h.aboveKnown hfound.2⟩

theorem cachesOne (h : CachesOne M v v') : LeavesNumbers M v v' := by
  have hframe := h.frame
  refine ⟨fun k => ?_, fun q f hf => ⟨f, by rw [hframe.backend, hf]⟩, fun k hk => ?_⟩
  · cases h with
    | share => exact Buckets.count_le_insert
    | fresh => exact Buckets.count_le_insert
    | again => exact Buckets.count_le_insert
  · unfold cacheFindDirent cacheFindDentry at *
    rw [← hframe.dcache]
    exact hk

theorem caches (h : Caches M v v') : LeavesNumbers M v v' := by
  induction h with
  | refl => exact .refl v
  | tail _ hone ih => exact ih.trans (.cachesOne hone)

/-- Nothing that numbers are looked up in changes but listings. -/
theorem of_eq (hipath : v'.ipathCache = v.ipathCache) (htree : v'.backend.tree = v.backend.tree)
    (hlisted : ∀ k, cacheFindDirent M v' k = [] → cacheFindDirent M v k = []) :
    LeavesNumbers M v v' :=
  ⟨fun k => by rw [hipath], fun q f hf => ⟨f, by rw [htree, hf]⟩, hlisted⟩

theorem of_dcache (hipath : v'.ipathCache = v.ipathCache) (htree : v'.backend.tree = v.backend.tree)
    (hdcache : v'.dcache = v.dcache) : LeavesNumbers M v v' := by
  refine of_eq hipath htree fun k hk => ?_
  unfold cacheFindDirent cacheFindDentry at *
  rwa [← hdcache]

/-- A listing gets a name. -/
theorem of_cons {key : CStr} {e : OkfsDirent}
    (hipath : v'.ipathCache = v.ipathCache) (htree : v'.backend.tree = v.backend.tree)
    (hdcache : v'.dcache = Buckets.modifyFirst M.nameHash v.dcache key (e :: ·)) :
    LeavesNumbers M v v' := by
  refine of_eq hipath htree fun k hk => ?_
  unfold cacheFindDirent cacheFindDentry at *
  rw [hdcache] at hk
  by_cases hkey : k = key
  · rw [hkey, Buckets.find_modifyFirst_self] at hk
    cases hfind : Buckets.find M.nameHash v.dcache key with
    | none => rw [hkey, hfind, Option.getD_none]
    | some l =>
      rw [hfind, Option.map_some, Option.getD_some] at hk
      cases hk
  · rwa [Buckets.find_modifyFirst_of_ne hkey] at hk

theorem added (h : Added M v p v') : LeavesNumbers M v v' := by
  obtain ⟨v₁, e, hcaches, htouched, -, hdcache⟩ := h
  rw [← hcaches.frame.dcache] at hdcache
  exact (caches hcaches).trans (of_cons htouched.ipathCache htouched.tree hdcache)

theorem sameFs (h : SameFs M v v') : LeavesNumbers M v v' :=
  of_dcache h.ipathCache (by rw [h.backend]) h.dcache

/-- A call makes an entry. -/
theorem makes {op : NsOp} {b : Backend} (h : Makes M v op p b) (hadm : Admissible M v op) :
    LeavesNumbers M v { v with backend := b } := by
  have hthere : ∀ q f, v.backend.tree q = some f → ∃ f', b.tree q = some f' := by
    intro q f hf
    have hcreate : ∀ st, ∃ f', (v.backend.create p st).tree q = some f' := by
      intro st
      by_cases hq : q = p
      · rw [hq]
        exact ⟨_, Backend.tree_create_self⟩
      · exact ⟨f, by rw [Backend.tree_create_of_ne hq, hf]⟩
    cases h with
    | «open» => exact hcreate _
    | mkdir => exact hcreate _
    | symlink => exact hcreate _
    | link =>
      obtain ⟨g, hg, -⟩ := (hadm.2.2 rfl).source
      by_cases hq : q = p
      · rw [hq]
        exact ⟨g, Backend.tree_link_self hg⟩
      · refine ⟨f, ?_⟩
        rw [Backend.tree_link hg]
        exact (put_of_ne hq).trans hf
  exact ⟨fun _ => Nat.le_refl _, hthere, fun _ hk => hk⟩

/-- A listing is cached: it has an entry for `.` at least. -/
theorem cacheAddDirent {dp : List OkfsDirent} {q : Path} {b : Backend}
    (hlists : b.Lists q (dp.map (·.name))) : LeavesNumbers M v (cacheAddDirent M v path dp) := by
  refine of_eq rfl rfl fun k hk => ?_
  unfold cacheFindDirent cacheFindDentry Okfs.cacheAddDirent at *
  by_cases hkey : k = path
  · rw [hkey, Buckets.find_insert_self, Option.getD_some] at hk
    have hdot := (hlists.mem_iff (ascii ".")).mpr (.inl rfl)
    rw [hk] at hdot
    cases hdot
  · rwa [Buckets.find_insert_of_ne hkey] at hk

/-- All calls on the namespace but those that take an entry away. -/
theorem effect {op : NsOp} (h : Effect M v op v') (hadm : Admissible M v op)
    (htakes : ∀ p, ¬ Takes op p) (hrename : ∀ p₁ p₂, op ≠ .rename p₁ p₂ (.ok ())) :
    LeavesNumbers M v v' := by
  cases h with
  | quiet hcaches htouched hdcache hsame =>
    exact ((caches hcaches).trans (of_dcache htouched.ipathCache htouched.tree hdcache)).trans
      (sameFs hsame)
  | made hmakes hcaches hadded hsame =>
    exact (((makes hmakes hadm).trans (caches hcaches)).trans (added hadded)).trans (sameFs hsame)
  | taken hop => exact absurd hop (htakes _)
  | renamed => exact absurd rfl (hrename _ _)
  | listed _ _ _ hcaches _ hlists _ hsame =>
    exact ((caches hcaches).trans (cacheAddDirent hlists)).trans (sameFs hsame)

end LeavesNumbers

-- ---------------------------------------------------------------------
-- Files and descriptors
-- ---------------------------------------------------------------------

theorem Touched.stType (h : Touched v v') (f : FileId) :
    (v'.backend.attr f).stType = (v.backend.attr f).stType := by
  obtain ⟨s, a, m, heq⟩ := h.attr f
  rw [heq]

/-- Adding an entry changes no type, and makes no file. -/
theorem Added.backend (h : Added M v p v') :
    v'.backend.nextFile = v.backend.nextFile ∧
      ∀ f, (v'.backend.attr f).stType = (v.backend.attr f).stType := by
  obtain ⟨v₁, e, hcaches, htouched, -, -⟩ := h
  have hb := hcaches.frame.backend
  exact ⟨by rw [htouched.nextId, hb], fun f => by rw [htouched.stType, hb]⟩

/-- The files that there were are there, with their types. -/
theorem Effect.types {op : NsOp} (h : Effect M v op v') :
    v.backend.nextFile ≤ v'.backend.nextFile ∧ SameTypes v v' := by
  cases h with
  | quiet hcaches htouched _ hsame =>
    have hb := hcaches.frame.backend
    refine ⟨?_, fun f _ => ?_⟩
    · rw [hsame.backend, htouched.nextId, hb]
    · rw [hsame.backend, htouched.stType, hb]
  | @made op p b v₁ v₂ v' hmakes hcaches hadded hsame =>
    obtain ⟨hnext, htype⟩ := hadded.backend
    have hb : v.backend.nextFile ≤ b.nextFile ∧
        ∀ f < v.backend.nextFile, b.attr f = v.backend.attr f := by
      have hcreate : ∀ st, v.backend.nextFile ≤ (v.backend.create p st).nextFile ∧
          ∀ f < v.backend.nextFile, (v.backend.create p st).attr f = v.backend.attr f :=
        fun st => ⟨Nat.le_succ _, fun f hf => Function.update_of_ne (Nat.ne_of_lt hf) ..⟩
      cases hmakes with
      | «open» => exact hcreate _
      | mkdir => exact hcreate _
      | symlink => exact hcreate _
      | link =>
        refine ⟨?_, fun f _ => by rw [Backend.attr_link]⟩
        unfold Backend.link
        split <;> exact Nat.le_refl _
    have hb₁ : v₁.backend = b := hcaches.frame.backend
    refine ⟨?_, fun f hf => ?_⟩
    · rw [hsame.backend, hnext, hb₁]
      exact hb.1
    · rw [hsame.backend, htype, hb₁, hb.2 f hf]
  | taken => exact ⟨Nat.le_refl _, fun _ _ => rfl⟩
  | @renamed p₁ p₂ v' _ hadded =>
    obtain ⟨hnext, htype⟩ := hadded.backend
    refine ⟨Nat.le_of_eq ?_, fun f _ => ?_⟩
    · rw [hnext]
      unfold dropEntry Backend.rename
      split <;> rfl
    · rw [htype]
      exact congrArg (fun attr => (attr f).stType) (Backend.attr_rename ..)
  | listed _ _ _ hcaches _ _ _ hsame =>
    have hb := hcaches.frame.backend
    refine ⟨?_, fun f _ => ?_⟩
    · rw [hsame.backend]
      exact Nat.le_of_eq (by rw [← hb]; rfl)
    · rw [hsame.backend, ← hb]
      rfl

theorem OpensNone.of_files (h : v'.files = v.files) : OpensNone v v' :=
  fun _ filep' hfile => ⟨filep', h ▸ hfile, rfl, rfl⟩

theorem OpensNone.trans (h : OpensNone v v') (h' : OpensNone v' v'') : OpensNone v v'' := by
  intro fd filep'' hfile''
  obtain ⟨filep', hfile', hpath', heq'⟩ := h' fd filep'' hfile''
  obtain ⟨filep, hfile, hpath, heq⟩ := h fd filep' hfile'
  exact ⟨filep, hfile, hpath.trans hpath', heq.trans heq'⟩

theorem OpensNone.setFile {fd : FileRef} {filep filep' : OkfsFile} (hfile : v.files fd = some filep)
    (hpath : filep'.path = filep.path) (heq : filep'.file = filep.file) :
    OpensNone v (v.setFile fd filep') := by
  intro fd' file hfile'
  by_cases hfd : fd' = fd
  · rw [hfd, Vfs.setFile_self, Option.some.injEq] at hfile'
    exact ⟨filep, hfd ▸ hfile, by rw [← hfile', hpath], by rw [← hfile', heq]⟩
  · rw [Vfs.setFile_of_ne hfd] at hfile'
    exact ⟨file, hfile', rfl, rfl⟩

/-- Reading a directory moves a descriptor. -/
theorem GetdentsCall.opensNone {g : GetdentsCall} {fd : FileRef} {count : Nat}
    {raw : Except Errno (List OkfsDirent)} {filep : OkfsFile} {r : Int × List UserDirent}
    (hfile : v.files fd = some filep) (h : g.run M v fd count raw = some (v', r)) :
    OpensNone v v' ∧ v'.pending = v.pending := by
  rcases g.run_eq_some hfile h with rfl | ⟨v₁, ret, -, hread, rfl | ⟨pos, rfl⟩⟩
  · exact ⟨.of_files rfl, rfl⟩
  · have hsame := okfsDoReaddir_sameOpen hread
    exact ⟨.of_files hsame.files, hsame.pending⟩
  · have hsame := okfsDoReaddir_sameOpen hread
    have hfile₁ : v₁.files fd = some filep := by rw [hsame.files, hfile]
    exact ⟨(OpensNone.of_files hsame.files).trans (.setFile hfile₁ rfl rfl), hsame.pending⟩

/-- The calls that open nothing. -/
theorem nsStep_opensNone {op : NsOp} (hadm : Admissible M v op)
    (hafter : ∀ i, op ≠ .afterOpen i true) (hstep : nsStep M v op = some v') : OpensNone v v' := by
  cases op with
  | afterOpen i opened =>
    cases opened with
    | true => exact absurd rfl (hafter i)
    | false =>
      obtain ⟨o, -, rfl⟩ := Option.map_eq_some_iff.mp hstep
      exact .of_files rfl
  | getdents g fd count raw =>
    obtain ⟨-, filep, hfile, -⟩ := hadm
    obtain ⟨⟨_, r⟩, hrun, rfl⟩ := Option.map_eq_some_iff.mp hstep
    exact (GetdentsCall.opensNone hfile hrun).1
  | lookup | «open» | mkdir | symlink | link | unlink | rmdir | rename | tick =>
    refine .of_files (nsStep_files ?_ ?_ hstep)
    · intro i opened heq
      cases heq
    · intro g fd count raw heq
      cases heq

namespace OpenMade

theorem mounted (b : Backend) : OpenMade (Vfs.mounted b) :=
  ⟨fun _ _ h => (by cases h), fun _ h => (List.not_mem_nil h).elim⟩

theorem of_opensNone (h : OpenMade v) (hopen : OpensNone v v')
    (hnext : v.backend.nextFile ≤ v'.backend.nextFile) (hpending : v'.pending = v.pending) :
    OpenMade v' := by
  refine ⟨fun fd filep' hfile' => ?_, fun o ho => ?_⟩
  · obtain ⟨filep, hfile, -, heq⟩ := hopen fd filep' hfile'
    exact heq ▸ Nat.lt_of_lt_of_le (h.files fd filep hfile) hnext
  · exact Nat.lt_of_lt_of_le (h.pending o (hpending ▸ ho)) hnext

/-- What a filesystem has opened is there, or has just been made. -/
theorem epOpen {b b' : Backend} {flags : UInt32} {ans : Except Errno Stat} {file : FileId}
    (hwf : b.WF) (h : epOpen b path flags ans = (b', .ok file)) :
    b.nextFile ≤ b'.nextFile ∧ file < b'.nextFile := by
  unfold Okfs.epOpen at h
  cases ans with
  | error e => cases (Prod.mk.inj h).2
  | ok st =>
    cases htree : b.tree (components slash path) with
    | some f =>
      rw [htree] at h
      obtain ⟨rfl, heq⟩ := Prod.mk.inj h
      rw [← Except.ok.inj heq]
      exact ⟨Nat.le_refl _, hwf.fresh _ f htree⟩
    | none =>
      rw [htree] at h
      simp only at h
      split at h
      · obtain ⟨rfl, heq⟩ := Prod.mk.inj h
        rw [← Except.ok.inj heq]
        exact ⟨Nat.le_succ _, Nat.lt_succ_self _⟩
      · cases (Prod.mk.inj h).2

theorem frame (h : OpenMade v) (hframe : Frame v v') : OpenMade v' :=
  h.of_opensNone (.of_files hframe.files) (Nat.le_of_eq (by rw [hframe.backend])) hframe.pending

theorem lstatAdd (h : OpenMade v) (relPath : CStr) : OpenMade (lstatAdd M v path relPath).1 ∧
    (Okfs.lstatAdd M v path relPath).1.backend = v.backend := by
  have hframe := epLstat_frame (M := M) (v := v) relPath
  unfold Okfs.lstatAdd
  rcases hstat : epLstat M v relPath with ⟨v₁, _ | buf⟩
  · rw [hstat] at hframe
    exact ⟨h.frame hframe, hframe.backend⟩
  · rw [hstat] at hframe
    have hadd : Frame v₁ (cacheAddInode M v₁ path buf).1 :=
      cacheAddInode_frame v₁.nextInode path buf
    exact ⟨h.frame (hframe.trans hadd), (hframe.trans hadd).backend⟩

theorem cacheAddEntry (h : OpenMade v) (hadd : cacheAddEntry M v path = some v') :
    OpenMade v' ∧ v'.backend.nextFile = v.backend.nextFile := by
  obtain ⟨⟨newpath, name⟩, -, hadd⟩ := Option.bind_eq_some_iff.mp hadd
  simp only at hadd
  split at hadd
  · rw [← Option.some.inj hadd]
    exact ⟨h, rfl⟩
  · have hframe := arglstat_frame (M := M) (v := v) path
    rcases hstat : arglstat M v path with ⟨v₁, _ | buf⟩
    · rw [hstat] at hadd hframe
      rw [← Option.some.inj hadd]
      exact ⟨h.frame hframe, by rw [hframe.backend]⟩
    · rw [hstat] at hadd hframe
      rw [← Option.some.inj hadd]
      have htouched := addDirent_touched (M := M) (v := v₁) newpath name buf
      refine ⟨(h.frame hframe).of_opensNone (.of_files htouched.files)
        (Nat.le_of_eq htouched.nextId.symm) htouched.pending, ?_⟩
      rw [htouched.nextId, hframe.backend]

theorem openPending {o : PendingOpen} (h : OpenMade v) (ho : o.file < v.backend.nextFile) :
    OpenMade { v with pending := v.pending ++ [o] } := by
  refine ⟨h.files, fun o' ho' => ?_⟩
  rcases List.mem_append.mp ho' with ho' | ho'
  · exact h.pending o' ho'
  · exact List.mem_singleton.mp ho' ▸ ho

/-- An open that is under way is that of the file. -/
theorem openDone {relPath : CStr} {flags : UInt32} {ip : Option InodeRef} {file : FileId}
    (h : OpenMade v) (hfile : file < v.backend.nextFile)
    (hdone : openDone M v path relPath flags ip file = some v') : OpenMade v' := by
  cases ip with
  | some r =>
    simp only [Okfs.openDone, Option.isNone_some, Bool.false_eq_true, false_and, if_false,
      Option.bind_eq_bind, Option.bind_some, Option.some.injEq] at hdone
    exact hdone ▸ h.openPending hfile
  | none =>
    have hadd : OpenMade (Okfs.lstatAdd M v path relPath).1 ∧ _ := h.lstatAdd relPath
    rcases hl : Okfs.lstatAdd M v path relPath with ⟨w, _ | r⟩
    · simp only [Okfs.openDone, hl, Option.bind_eq_bind, Option.bind_none, reduceCtorEq] at hdone
    · rw [hl] at hadd
      obtain ⟨hw, hb⟩ := hadd
      simp only [Okfs.openDone, hl, Option.isNone_none, true_and, Option.bind_eq_bind,
        Option.bind_some] at hdone
      split at hdone
      · obtain ⟨v₂, h₂, hdone⟩ := Option.bind_eq_some_iff.mp hdone
        obtain ⟨hv₂, hnext⟩ := hw.cacheAddEntry h₂
        rw [← Option.some.inj hdone]
        refine hv₂.openPending ?_
        rw [hnext, hb]
        exact hfile
      · rw [← Option.some.inj hdone]
        refine hw.openPending ?_
        rw [hb]
        exact hfile

theorem backend {b : Backend} (h : OpenMade v) (hnext : v.backend.nextFile ≤ b.nextFile) :
    OpenMade { v with backend := b } :=
  h.of_opensNone (.of_files rfl) hnext rfl

theorem openWith {relPath : CStr} {flags : UInt32} {trunc : Ret} {ans : Except Errno Stat}
    {ip : Option InodeRef} {ret : Ret} (h : OpenMade v) (hwf : v.backend.WF)
    (hopen : openWith M v path relPath flags trunc ans ip = some (v', ret)) : OpenMade v' := by
  have htrunc : ∀ (c : Prop) (inst : Decidable c),
      OpenMade (@ite _ c inst { v with backend := (epTruncate v.backend relPath 0 trunc).1 } v) ∧
        (@ite _ c inst { v with backend := (epTruncate v.backend relPath 0 trunc).1 }
          v).backend.WF := by
    intro c inst
    have htouched := epTruncate_touched (v := v) relPath 0 trunc
    split
    · exact ⟨h.backend (Nat.le_of_eq htouched.nextId.symm), htouched.wf hwf⟩
    · exact ⟨h, hwf⟩
  unfold Okfs.openWith at hopen
  simp only at hopen
  split at hopen
  · exact (Prod.mk.inj (Option.some.inj hopen)).1 ▸ h
  · obtain ⟨hmade, hwf'⟩ := htrunc _ _
    split at hopen
    · exact (Prod.mk.inj (Option.some.inj hopen)).1 ▸ hmade
    · next hep =>
      obtain ⟨v₁, h₁, heq⟩ := Option.map_eq_some_iff.mp hopen
      obtain ⟨hnext, hfile⟩ := epOpen hwf' hep
      exact (Prod.mk.inj heq).1 ▸ (hmade.backend hnext).openDone hfile h₁

theorem okfsDoOpen {relPath : CStr} {flags : UInt32} {trunc : Ret} {ans : Except Errno Stat}
    {ret : Ret} (h : OpenMade v) (hwf : v.backend.WF)
    (hopen : okfsDoOpen M v path relPath flags trunc ans = some (v', ret)) : OpenMade v' := by
  unfold Okfs.okfsDoOpen at hopen
  split at hopen
  · exact h.openWith hwf hopen
  · obtain ⟨hadd, hb⟩ : OpenMade (Okfs.lstatAdd M v path relPath).1 ∧ _ := h.lstatAdd relPath
    exact hadd.openWith (hb ▸ hwf) hopen

/-- A descriptor is one of an open that was under way. -/
theorem afterOpen {i : Nat} {opened : Bool} (h : OpenMade v)
    (hstep : okfsAfterOkfsOpen M v i opened = some v') : OpenMade v' := by
  obtain ⟨o, ho, rfl⟩ := Option.map_eq_some_iff.mp hstep
  have herase : OpenMade { v with pending := v.pending.eraseIdx i } :=
    ⟨h.files, fun o' ho' => h.pending o' (List.mem_of_mem_eraseIdx ho')⟩
  cases opened with
  | false => exact herase
  | true =>
    refine ⟨fun fd filep hfile => ?_, herase.pending⟩
    have hfile : Function.update v.files v.nextFile _ fd = some filep := hfile
    by_cases hfd : fd = v.nextFile
    · rw [hfd, Function.update_self, Option.some.injEq] at hfile
      rw [← hfile]
      exact h.pending o (List.mem_of_getElem? ho)
    · rw [Function.update_of_ne hfd] at hfile
      exact h.files fd filep hfile

/-- All calls on the namespace. -/
theorem nsStep {op : NsOp} (h : OpenMade v) (hbase : Base M v) (hadm : Admissible M v op)
    (hstep : nsStep M v op = some v') : OpenMade v' := by
  have hnext := ((nsStep_spec hbase hadm).1 v' hstep).types.1
  cases op with
  | «open» p flags trunc ans =>
    obtain ⟨⟨_, ret⟩, hopen, rfl⟩ := Option.map_eq_some_iff.mp hstep
    exact h.okfsDoOpen hbase.wf hopen
  | afterOpen i opened => exact h.afterOpen hstep
  | getdents g fd count raw =>
    obtain ⟨-, filep, hfile, -⟩ := hadm
    obtain ⟨⟨_, r⟩, hrun, rfl⟩ := Option.map_eq_some_iff.mp hstep
    obtain ⟨hopen, hpending⟩ := GetdentsCall.opensNone hfile hrun
    exact h.of_opensNone hopen hnext hpending
  | lookup | mkdir | symlink | link | unlink | rmdir | rename | tick =>
    have hsame := nsStep_sameOpen (fun p flags trunc ans heq => by cases heq)
      (fun i opened heq => by cases heq) (fun g fd count raw heq => by cases heq) hstep
    exact h.of_opensNone (.of_files hsame.files) hnext hsame.pending

end OpenMade

-- ---------------------------------------------------------------------
-- Listings are not empty
-- ---------------------------------------------------------------------

/-- Each listing has an entry for the directory itself. -/
def Dotted (M : Mount) (v : Vfs) : Prop :=
  ∀ k l, cacheFindDentry M v k = some l → ∃ e ∈ l, e.name = ascii "."

namespace Dotted

theorem of_dcache (h : Dotted M v) (hdcache : v'.dcache = v.dcache) : Dotted M v' := by
  intro k l hl
  rw [cacheFindDentry, hdcache] at hl
  exact h k l hl

/-- A listing is edited, and keeps the entry. -/
theorem modify (h : Dotted M v) {key : CStr} {f : List OkfsDirent → List OkfsDirent}
    (hf : ∀ l, (∃ e ∈ l, e.name = ascii ".") → ∃ e ∈ f l, e.name = ascii ".")
    (hdcache : v'.dcache = Buckets.modifyFirst M.nameHash v.dcache key f) : Dotted M v' := by
  intro k l hl
  rw [cacheFindDentry, hdcache] at hl
  by_cases hkey : k = key
  · rw [hkey, Buckets.find_modifyFirst_self] at hl
    obtain ⟨l₀, hl₀, rfl⟩ := Option.map_eq_some_iff.mp hl
    exact hf l₀ (h key l₀ hl₀)
  · rw [Buckets.find_modifyFirst_of_ne hkey] at hl
    exact h k l hl

theorem added (h : Dotted M v) (hadded : Added M v p v') : Dotted M v' := by
  obtain ⟨v₁, e, -, -, -, hdcache⟩ := hadded
  refine h.modify (fun l hl => ?_) hdcache
  obtain ⟨e', he', hname⟩ := hl
  exact ⟨e', List.mem_cons_of_mem _ he', hname⟩

/-- No call takes the entry of `.` away. -/
theorem dropEntry (h : Dotted M v) (hp : ValidPath p) : Dotted M (dropEntry M v p) := by
  refine h.modify (fun l hl => ?_) rfl
  obtain ⟨e, he, hname⟩ := hl
  refine ⟨e, ?_, hname⟩
  have hne : ¬ e.name = p.getLast?.getD [] := by
    rw [hname]
    cases hlast : p.getLast? with
    | none =>
      rw [Option.getD_none]
      decide
    | some n =>
      rw [Option.getD_some]
      exact fun heq => (hp n (List.mem_of_getLast? hlast)).2.2.1 heq.symm
  exact (List.mem_eraseP_of_neg (by simpa using hne)).mpr he

theorem effect {op : NsOp} (h : Dotted M v) (hadm : Admissible M v op) (heffect : Effect M v op v') :
    Dotted M v' := by
  cases heffect with
  | quiet hcaches _ hdcache hsame =>
    refine h.of_dcache ?_
    rw [hsame.dcache, hdcache, hcaches.frame.dcache]
  | made _ hcaches hadded hsame =>
    exact ((of_dcache (v := v) h hcaches.frame.dcache).added hadded).of_dcache hsame.dcache
  | @taken op p htakes =>
    have hp : ValidPath p := by
      cases htakes with
      | unlink => exact hadm.1
      | rmdir => exact hadm.1
    exact dropEntry (of_dcache (v := v) h rfl) hp
  | @renamed p₁ p₂ v' _ hadded =>
    have hw : Dotted M { v with backend := v.backend.rename p₁ p₂ } := h.of_dcache rfl
    exact (hw.dropEntry hadm.1).added hadded
  | @listed g fd count ds dp filep q v₁ v' _ _ _ hcaches _ hlists _ hsame =>
    refine of_dcache (fun k l hl => ?_) hsame.dcache
    rw [cacheFindDentry, cacheAddDirent] at hl
    by_cases hkey : k = filep.path
    · rw [hkey, Buckets.find_insert_self, Option.some.injEq] at hl
      have hdot := (hlists.mem_iff (ascii ".")).mpr (.inl rfl)
      obtain ⟨e, he, hname⟩ := List.mem_map.mp hdot
      exact ⟨e, hl ▸ he, hname⟩
    · rw [Buckets.find_insert_of_ne hkey] at hl
      exact h.of_dcache hcaches.frame.dcache k l hl

/-- A listing that is cached is found. -/
theorem uncached_iff (h : Dotted M v) :
    cacheFindDirent M v path = [] ↔ cacheFindDentry M v path = none := by
  unfold cacheFindDirent
  constructor
  · intro hnil
    cases hl : cacheFindDentry M v path with
    | none => rfl
    | some l =>
      rw [hl, Option.getD_some] at hnil
      obtain ⟨e, he, -⟩ := h path l hl
      rw [hnil] at he
      cases he
  · intro hnone
    rw [hnone, Option.getD_none]

end Dotted

-- ---------------------------------------------------------------------
-- The calls on files
-- ---------------------------------------------------------------------

/-- A call that changes sizes, times, owners and modes at most, looks files up and moves descriptors. -/
structure OnFiles (M : Mount) (v v' : Vfs) : Prop where
  leaves : LeavesNumbers M v v'
  dcache : v'.dcache = v.dcache
  nextId : v'.backend.nextFile = v.backend.nextFile
  types : ∀ f, (v'.backend.attr f).stType = (v.backend.attr f).stType
  opens : OpensNone v v'
  pending : v'.pending = v.pending

namespace OnFiles

theorem refl (v : Vfs) : OnFiles M v v := ⟨.refl v, rfl, rfl, fun _ => rfl, .of_files rfl, rfl⟩

theorem trans (h : OnFiles M v v') (h' : OnFiles M v' v'') : OnFiles M v v'' :=
  ⟨h.leaves.trans h'.leaves, h'.dcache.trans h.dcache, h'.nextId.trans h.nextId,
    fun f => (h'.types f).trans (h.types f), h.opens.trans h'.opens, h'.pending.trans h.pending⟩

theorem caches (h : Caches M v v') : OnFiles M v v' := by
  have hframe := h.frame
  exact ⟨.caches h, hframe.dcache, by rw [hframe.backend], fun f => by rw [hframe.backend],
    .of_files hframe.files, hframe.pending⟩

theorem setInode (r : InodeRef) (st : Stat) : OnFiles M v (v.setInode r st) :=
  ⟨.of_dcache rfl rfl rfl, rfl, rfl, fun _ => rfl, .of_files rfl, rfl⟩

theorem setFile {fd : FileRef} {filep filep' : OkfsFile} (hfile : v.files fd = some filep)
    (hpath : filep'.path = filep.path) (heq : filep'.file = filep.file) :
    OnFiles M v (v.setFile fd filep') :=
  ⟨.of_dcache rfl rfl rfl, rfl, rfl, fun _ => rfl, .setFile hfile hpath heq, rfl⟩

theorem changeFile {g : Stat → Stat} (hg : Keeps g) (f : FileId) :
    OnFiles M v { v with backend := v.backend.changeFile f g } :=
  ⟨.of_dcache rfl rfl rfl, rfl, rfl, fun f' => (Backend.attr_changeFile_keeps hg v.backend f f').2.2,
    .of_files rfl, rfl⟩

theorem changeAttr (relPath : CStr) (c : Change) (ans : Ret) :
    OnFiles M v (changeAttr links v relPath c ans).1 := by
  rcases setFound_eq v.backend (v.backend.slotFile links relPath) c.apply ans with
    ⟨e, he⟩ | ⟨f, -, -, hf⟩
  · rw [Okfs.changeAttr, he]
    exact .refl v
  · rw [Okfs.changeAttr, hf]
    exact .changeFile c.keeps f

theorem changeFd {fd : FileRef} {c : Change} {ans : Ret}
    (hstep : (changeFd links v fd c ans).map Prod.fst = some v') : OnFiles M v v' := by
  obtain ⟨r, hr, rfl⟩ := Option.map_eq_some_iff.mp hstep
  obtain ⟨filep, -, rfl⟩ := Option.map_eq_some_iff.mp hr
  exact changeAttr filep.relPath c ans

theorem changeFileSize (size : Nat) : OnFiles M v (changeFileSize M v path size) := by
  unfold Okfs.changeFileSize
  cases cacheFindInode M v path with
  | none => exact .refl v
  | some ino => exact setInode ino _

theorem seekEnd {filep : OkfsFile} {size : Nat} (hopen : IsOpenPath M filep.path filep.relPath)
    (hseek : seekEnd M v filep = some (v', size)) : OnFiles M v v' := by
  obtain ⟨p, hp, hpath, -⟩ := hopen
  obtain ⟨ino, -, hseek⟩ := Option.bind_eq_some_iff.mp hseek
  have hcaches := arglstat_caches (M := M) (v := v) hp
  rw [← hpath] at hcaches
  rcases hstat : arglstat M v filep.path with ⟨v₁, _ | buf⟩
  · rw [hstat] at hseek hcaches
    obtain ⟨rfl, -⟩ := Prod.mk.inj (Option.some.inj hseek)
    exact caches hcaches
  · rw [hstat] at hseek hcaches
    obtain ⟨rfl, -⟩ := Prod.mk.inj (Option.some.inj hseek)
    exact (caches hcaches).trans (setInode ..)

/-- Every call on files. -/
theorem vfsStep {op : VfsOp} (hns : ∀ op', op ≠ .ns op') (hbase : Base M v)
    (hstep : vfsStep M links v op = some v') : OnFiles M v v' := by
  cases op with
  | ns op => exact absurd rfl (hns op)
  | fstat fd =>
    obtain ⟨⟨_, st⟩, hrun, rfl⟩ := Option.map_eq_some_iff.mp hstep
    exact caches (okfsFstat_caches hbase hrun)
  | read fd count ans =>
    obtain ⟨⟨_, ret⟩, hrun, rfl⟩ := Option.map_eq_some_iff.mp hstep
    rcases okfsRead_eq_some hrun with rfl | ⟨filep, fPos, pos, hfile, rfl⟩
    · exact .refl _
    · exact setFile hfile rfl rfl
  | write fd count ans =>
    obtain ⟨⟨_, ret⟩, hrun, rfl⟩ := Option.map_eq_some_iff.mp hstep
    rcases okfsWrite_eq_some hrun with
      rfl | ⟨filep, f, n, fPos, pos, hfile, rfl | ⟨ino, size, -, rfl⟩⟩
    · exact .refl _
    · exact (changeFile (resize_keeps n) f).trans (setFile hfile rfl rfl)
    · exact ((changeFile (resize_keeps n) f).trans (setInode ..)).trans (setFile hfile rfl rfl)
  | lseek fd offset origin ans =>
    obtain ⟨⟨_, ret⟩, hrun, rfl⟩ := Option.map_eq_some_iff.mp hstep
    obtain ⟨filep, fPos, pos, hfile, rfl | ⟨v₁, size, hseek, rfl⟩⟩ := okfsLseek_eq_some hrun
    · exact setFile hfile rfl rfl
    · have hopen := (hbase.openOk.files fd filep hfile).2
      have hopen : IsOpenPath M ({ filep with offset := pos } : OkfsFile).path
          ({ filep with offset := pos } : OkfsFile).relPath := hopen
      have hv₁ : OnFiles M v v₁ := seekEnd hopen hseek
      have hfile₁ : v₁.files fd = some filep := by
        rw [(hbase.seekEnd hopen hseek).2, hfile]
      exact hv₁.trans (setFile hfile₁ rfl rfl)
  | ftruncate fd length ans =>
    obtain ⟨⟨_, ret⟩, hrun, rfl⟩ := Option.map_eq_some_iff.mp hstep
    obtain ⟨filep, -, hrun⟩ := Option.bind_eq_some_iff.mp hrun
    rcases epTruncate_eq v.backend filep.relPath length ans with ⟨e, he⟩ | ⟨f, -, hf⟩
    · rw [he] at hrun
      exact (Prod.mk.inj (Option.some.inj hrun)).1 ▸ .refl v
    · rw [hf] at hrun
      obtain ⟨ino, -, hrun⟩ := Option.bind_eq_some_iff.mp hrun
      rw [← (Prod.mk.inj (Option.some.inj hrun)).1]
      exact (changeFile (resize_keeps length) f).trans (setInode ..)
  | truncate p length ans =>
    rw [← Option.some.inj hstep]
    rcases epTruncate_eq v.backend (M.rel p) length ans with ⟨e, he⟩ | ⟨f, -, hf⟩
    · rw [okfsTruncate, he]
      exact .refl v
    · rw [okfsTruncate, hf]
      exact (changeFile (resize_keeps length) f).trans (changeFileSize length)
  | utime p atime mtime ctime ans => exact Option.some.inj hstep ▸ changeAttr _ _ ans
  | chmod p mode ctime ans => exact Option.some.inj hstep ▸ changeAttr _ _ ans
  | chown p owner group perm ctime ans => exact Option.some.inj hstep ▸ changeAttr _ _ ans
  | fchmod fd mode ctime ans => exact changeFd hstep
  | fchown fd owner group perm ctime ans => exact changeFd hstep

end OnFiles

-- ---------------------------------------------------------------------
-- Taking an entry away
-- ---------------------------------------------------------------------

theorem above_ne_full (hp : ValidPath p) : canonPath M.mnt.dropLast ≠ M.full p := by
  intro h
  have heq := canonPath_injective M.valid.dropLast (Mount.valid_mnt_append hp) h
  have hlen := congrArg List.length heq
  have hpos := List.length_pos_of_ne_nil M.ne_root
  rw [List.length_dropLast, List.length_append] at hlen
  omega

theorem hasNode_dropEntry_of_ne (h : path ≠ M.full p) :
    HasNode M (dropEntry M v p) path ↔ HasNode M v path := by
  have hcount : Buckets.count M.nameHash (dropEntry M v p).ipathCache path =
      Buckets.count M.nameHash v.ipathCache path := Buckets.count_eraseFirst_of_ne h
  rw [HasNode, HasNode, hcount]

theorem hasNode_dropEntry (hp : ValidPath p) (hq : ValidPath q) :
    HasNode M (dropEntry M v p) (M.full q) ↔ StaysCached M v p q := by
  unfold StaysCached
  by_cases hqp : q = p
  · have hcount : Buckets.count M.nameHash (dropEntry M v p).ipathCache (M.full p) =
        Buckets.count M.nameHash v.ipathCache (M.full p) - 1 := Buckets.count_eraseFirst_self
    rw [if_pos hqp, hqp, HasNode, hcount]
    omega
  · rw [if_neg hqp, hasNode_dropEntry_of_ne fun h => hqp (Mount.full_injective hq hp h)]
    exact Iff.rfl

theorem stays_of_ne (hqp : q ≠ p) (h : HasNode M v (M.full q)) : StaysCached M v p q := by
  rw [StaysCached, if_neg hqp]
  exact h

/-- The listings that are cached are so before and after. -/
theorem readsDirAt_dropEntry {b : Backend} (hdots : Dotted M v) (hp : ValidPath p)
    (hattr : b.attr = v.backend.attr) :
    ReadsDirAt M (dropEntry M { v with backend := b } p) path ↔ ReadsDirAt M v path := by
  have hw : Dotted M ({ v with backend := b } : Vfs) := hdots.of_dcache rfl
  have hdentry : cacheFindDentry M (dropEntry M { v with backend := b } p) path = none ↔
      cacheFindDentry M v path = none := by
    unfold cacheFindDentry dropEntry
    by_cases hkey : path = M.full p.dropLast
    · rw [hkey, Buckets.find_modifyFirst_self, Option.map_eq_none_iff]
    · rw [Buckets.find_modifyFirst_of_ne hkey]
  have hdir : b.IsDir = v.backend.IsDir := by
    funext f
    rw [Backend.IsDir, Backend.IsDir, hattr]
  unfold ReadsDirAt
  rw [(hw.dropEntry hp).uncached_iff, hdots.uncached_iff, hdentry, ← hdir]
  exact Iff.rfl

theorem aboveKnown_dropEntry {b : Backend} (hp : ValidPath p) (hd : ValidPath d) (hne : d ≠ []) :
    AboveKnown M (dropEntry M { v with backend := b } p) d ↔
      StaysCached M v p d.dropLast ∨ ∃ f, b.tree d.dropLast = some f := by
  rw [AboveKnown, if_neg hne, hasNode_dropEntry hp hd.dropLast]
  exact Iff.rfl

/-- The mount point is not affected. -/
theorem aboveKnown_nil_dropEntry {b : Backend} (hp : ValidPath p) (h : AboveKnown M v []) :
    AboveKnown M (dropEntry M { v with backend := b } p) [] := by
  rw [AboveKnown, if_pos rfl, hasNode_dropEntry_of_ne (above_ne_full hp)]
  rw [AboveKnown, if_pos rfl] at h
  exact h

/-- **unlink and rmdir.** -/
theorem taken_iff (hdots : Dotted M v) (hok : OpenOk M v) (hp : ValidPath p)
    (hv : LookupsSucceed M v) :
    LookupsSucceed M (dropEntry M { v with backend := v.backend.remove p } p) ↔
      ∀ d, ValidPath d → ReadsDirAt M v (M.full d) → d = p ∨ d ≠ [] ∧ d.dropLast = p →
        StaysCached M v p p := by
  have hok' : OpenOk M (dropEntry M { v with backend := v.backend.remove p } p) :=
    ⟨hok.files, hok.pending⟩
  rw [lookupsSucceed_iff hok] at hv
  rw [lookupsSucceed_iff hok']
  simp only [readsDirAt_dropEntry hdots hp Backend.attr_remove]
  constructor
  · rintro h d hd hreads (rfl | ⟨hne, hdp⟩)
    · exact (hasNode_dropEntry hd hd).mp (h d hd hreads).1
    · have habove := (aboveKnown_dropEntry hp hd hne).mp (h d hd hreads).2
      rw [hdp, Backend.tree_remove, remove_self] at habove
      refine habove.resolve_right ?_
      rintro ⟨f, hf⟩
      cases hf
  · intro h d hd hreads
    obtain ⟨hnode, habove⟩ := hv d hd hreads
    have hstays : ∀ q, q = p → (d = p ∨ d ≠ [] ∧ d.dropLast = p) → StaysCached M v p q :=
      fun q hq hcase => hq ▸ h d hd hreads hcase
    constructor
    · rw [hasNode_dropEntry hp hd]
      by_cases hdp : d = p
      · exact hstays d hdp (.inl hdp)
      · exact stays_of_ne hdp hnode
    · by_cases hne : d = []
      · rw [hne] at habove ⊢
        exact aboveKnown_nil_dropEntry hp habove
      · rw [aboveKnown_dropEntry hp hd hne]
        rw [AboveKnown, if_neg hne] at habove
        by_cases hqp : d.dropLast = p
        · exact .inl (hstays _ hqp (.inr ⟨hne, hqp⟩))
        · rw [Backend.tree_remove, remove_of_ne hqp]
          exact habove.imp_left (stays_of_ne hqp)

-- ---------------------------------------------------------------------
-- Adding one
-- ---------------------------------------------------------------------

/-- Looking up a file of shfs that is not cached caches it, under its own path. -/
theorem okfsDolstat_nodes (hs : M.sb.entry = .shfs) (hp : ValidPath p) (h : path ≠ M.full p) :
    HasNode M (okfsDolstat M v (M.full p) (M.rel p)).1 path ↔ HasNode M v path := by
  unfold okfsDolstat
  cases hcached : cacheFindInode M v (M.full p) with
  | some r => exact Iff.rfl
  | none =>
    unfold epLstat
    rw [Mount.components_rel hp, Backend.lstat, hs]
    cases htree : v.backend.tree p with
    | none => exact Iff.rfl
    | some f =>
      have hkey := Mount.cachePath_lstat (M := M) hp
      simp only [addToCache_of_none (hkey ▸ hcached), hkey, cacheFindInode_cacheAddInode_self]
      rw [HasNode, HasNode, cacheAddInode_ipathCache, Buckets.count_insert_of_ne h]

/-- `cache_add_entry` caches the file if there is a listing to add it to. -/
theorem cacheAddEntry_nodes (hs : M.sb.entry = .shfs) (hp : ValidPath p) (hne : p ≠ [])
    (found : ∃ f, v.backend.tree p = some f) (hadd : cacheAddEntry M v (M.full p) = some v') :
    (∀ k, k ≠ M.full p → (HasNode M v' k ↔ HasNode M v k)) ∧
      (HasNode M v' (M.full p) ↔
        HasNode M v (M.full p) ∨ cacheFindDentry M v (M.full p.dropLast) ≠ none) := by
  obtain ⟨q, n, rfl⟩ := exists_concat hne
  obtain ⟨⟨newpath, name⟩, hsplit, hadd⟩ := Option.bind_eq_some_iff.mp hadd
  rw [Mount.splitPath_full hp, Option.some.injEq, Prod.mk.injEq] at hsplit
  obtain ⟨rfl, rfl⟩ := hsplit
  rw [List.dropLast_concat]
  simp only at hadd
  cases hdent : cacheFindDentry M v (M.full q) with
  | none =>
    rw [hdent, Option.some.injEq] at hadd
    rw [← hadd]
    exact ⟨fun _ _ => Iff.rfl, by simp⟩
  | some l =>
    rw [hdent, arglstat_full hp] at hadd
    have hothers : ∀ k, k ≠ M.full (q ++ [n]) →
        (HasNode M (okfsDolstat M v (M.full (q ++ [n])) (M.rel (q ++ [n]))).1 k ↔ HasNode M v k) :=
      fun k hk => okfsDolstat_nodes hs hp hk
    obtain ⟨w, buf, heq, hcached⟩ : ∃ w buf,
        okfsDolstat M v (M.full (q ++ [n])) (M.rel (q ++ [n])) = (w, .ok buf) ∧
          cacheFindInode M w (M.full (q ++ [n])) ≠ none := by
      rcases okfsDolstat_spec (M := M) (v := v) hp with
        ⟨r, hr, heq⟩ | ⟨-, hnone, -⟩ | ⟨f, w, i, j, -, -, heq, -, r, hr⟩
      · exact ⟨_, _, heq, by rw [hr]; exact Option.some_ne_none r⟩
      · obtain ⟨f, hf⟩ := found
        rw [hnone] at hf
        cases hf
      · exact ⟨_, _, heq, by rw [hr]; exact Option.some_ne_none r⟩
    rw [heq] at hadd hothers
    have hv' : v'.ipathCache = w.ipathCache := by
      rw [← Option.some.inj hadd]
      exact (addDirent_touched ..).ipathCache
    have hnodes : ∀ k, HasNode M v' k ↔ HasNode M w k := fun k => by rw [HasNode, HasNode, hv']
    refine ⟨fun k hk => (hnodes k).trans (hothers k hk), ?_⟩
    rw [hnodes]
    exact iff_of_true (hasNode_iff.mpr hcached) (.inr (Option.some_ne_none l))

theorem rename_eq_some (hp₁ : ValidPath p₁) (hp₂ : ValidPath p₂) (hne : p₁ ≠ [])
    (hstep : nsStep M v (.rename p₁ p₂ (.ok ())) = some v') :
    cacheAddEntry M (dropEntry M { v with backend := v.backend.rename p₁ p₂ } p₁) (M.full p₂) =
      some v' := by
  obtain ⟨⟨_, ret⟩, hrun, rfl⟩ := Option.map_eq_some_iff.mp hstep
  rw [okfsRename] at hrun
  simp only [Mount.components_rel hp₁, Mount.components_rel hp₂] at hrun
  obtain ⟨v₁, hremove, hrun⟩ := Option.bind_eq_some_iff.mp hrun
  obtain ⟨v₂, hadd, heq⟩ := Option.bind_eq_some_iff.mp hrun
  obtain ⟨-, rfl⟩ := (cacheRemoveEntry_iff hp₁ hne).mp hremove
  exact (Prod.mk.inj (Option.some.inj heq)).1 ▸ hadd

/-- Nothing is found behind the target of a move, and the two are no prefixes of one path. -/
theorem not_prefix_target {b : Backend} (hmove : b.CanMove p₁ p₂) (h₁ : p₁ <+: q) : ¬ p₂ <+: q := by
  intro h₂
  rcases List.prefix_or_prefix_of_prefix h₁ h₂ with h | ⟨r, rfl⟩
  · exact hmove.notInside h
  · have hr : r ≠ [] := by
      rintro rfl
      exact hmove.notInside (by simp)
    obtain ⟨f, hf⟩ := hmove.source
    rw [hmove.empty r hr] at hf
    cases hf

/-- What a rename leaves of a directory. -/
theorem rename_there {b : Backend} (hcan : b.CanRename p₁ p₂) (hq : ∃ f, b.tree q = some f)
    (hkeep : b.tree p₁ ≠ b.tree p₂ → ¬ p₁ <+: q) : ∃ f, (b.rename p₁ p₂).tree q = some f := by
  by_cases hsame : b.tree p₁ = b.tree p₂
  · rwa [Backend.rename_of_eq hsame]
  · have hmove : b.CanMove p₁ p₂ := by
      rcases hcan with ⟨-, -, f, h₁, h₂⟩ | ⟨-, hmove⟩
      · exact absurd (h₁.trans h₂.symm) hsame
      · exact hmove
    by_cases h₂ : p₂ <+: q
    · obtain ⟨r, rfl⟩ := h₂
      by_cases hr : r = []
      · obtain ⟨f, hf⟩ := hcan.target
        exact ⟨f, by rw [hr, List.append_nil, hf]⟩
      · obtain ⟨f, hf⟩ := hq
        rw [hmove.empty r hr] at hf
        cases hf
    · obtain ⟨f, hf⟩ := hq
      refine ⟨f, ?_⟩
      rw [Backend.rename_of_ne hsame]
      exact (move_of_not_below (hkeep hsame) h₂).trans hf

theorem readsDirAt_added (hdots : Dotted M v) (hadded : Added M v p v') (hfiles : v'.files = v.files) :
    ReadsDirAt M v' path ↔ ReadsDirAt M v path := by
  have hdots' := hdots.added hadded
  obtain ⟨-, htypes⟩ := hadded.backend
  obtain ⟨v₁, e, -, -, -, hdcache⟩ := hadded
  have hdentry : cacheFindDentry M v' path = none ↔ cacheFindDentry M v path = none := by
    unfold cacheFindDentry
    rw [hdcache]
    by_cases hkey : path = M.full p.dropLast
    · rw [hkey, Buckets.find_modifyFirst_self, Option.map_eq_none_iff]
    · rw [Buckets.find_modifyFirst_of_ne hkey]
  have hdir : v'.backend.IsDir = v.backend.IsDir := by
    funext f
    rw [Backend.IsDir, Backend.IsDir, htypes]
  unfold ReadsDirAt
  rw [hdots'.uncached_iff, hdots.uncached_iff, hdentry, hdir, hfiles]

/-- **rename.** -/
theorem renamed_iff (hs : M.sb.entry = .shfs) (hdots : Dotted M v) (hok : OpenOk M v)
    (hok' : OpenOk M v') (hp₁ : ValidPath p₁) (hp₂ : ValidPath p₂)
    (hcan : v.backend.CanRename p₁ p₂) (hv : LookupsSucceed M v)
    (hstep : nsStep M v (.rename p₁ p₂ (.ok ())) = some v') :
    LookupsSucceed M v' ↔ KeepsNumbers M v (.ns (.rename p₁ p₂ (.ok ()))) := by
  obtain ⟨hne₁, hne₂⟩ := hcan.ne_nil
  have hadd := rename_eq_some hp₁ hp₂ hne₁ hstep
  have htarget : ∃ f, (v.backend.rename p₁ p₂).tree p₂ = some f := hcan.target
  obtain ⟨v'', hadd', hadded⟩ := cacheAddEntry_added (M := M)
    (v := dropEntry M { v with backend := v.backend.rename p₁ p₂ } p₁) hp₂ hne₂ htarget
  obtain rfl := Option.some.inj (hadd'.symm.trans hadd)
  -- what is open is what was, and the tables are known
  have hwdots : Dotted M ({ v with backend := v.backend.rename p₁ p₂ } : Vfs) := hdots.of_dcache rfl
  have hreads : ∀ k, ReadsDirAt M v'' k ↔ ReadsDirAt M v k := fun k =>
    (readsDirAt_added (hwdots.dropEntry hp₁) hadded (cacheAddEntry_sameOpen hadd).files).trans
      (readsDirAt_dropEntry hdots hp₁ Backend.attr_rename)
  obtain ⟨hothers, hself⟩ := cacheAddEntry_nodes hs hp₂ hne₂ htarget hadd
  have hleaves := LeavesNumbers.added hadded
  have hstays : ∀ q, ValidPath q → StaysCached M v p₁ q → HasNode M v'' (M.full q) :=
    fun q hq h => hleaves.hasNode ((hasNode_dropEntry hp₁ hq).mpr h)
  have hgone : ∀ q, ValidPath q → q ≠ p₂ → HasNode M v'' (M.full q) → StaysCached M v p₁ q := by
    intro q hq hqp h
    have hk : M.full q ≠ M.full p₂ := fun heq => hqp (Mount.full_injective hq hp₂ heq)
    exact (hasNode_dropEntry hp₁ hq).mp ((hothers _ hk).mp h)
  have hlisting : cacheFindDentry M (dropEntry M { v with backend := v.backend.rename p₁ p₂ } p₁)
      (M.full p₁.dropLast) ≠ none ↔ cacheFindDentry M v (M.full p₁.dropLast) ≠ none := by
    unfold cacheFindDentry dropEntry
    rw [Buckets.find_modifyFirst_self, ne_eq, Option.map_eq_none_iff]
  have hthere : v''.backend.tree = (v.backend.rename p₁ p₂).tree := by
    obtain ⟨v₁, e, hcaches, htouched, -, -⟩ := hadded
    rw [htouched.tree, hcaches.frame.backend]
    rfl
  rw [lookupsSucceed_iff hok] at hv
  rw [lookupsSucceed_iff hok']
  simp only [hreads]
  constructor
  · intro h d hd hread
    obtain ⟨hnode, habove⟩ := h d hd hread
    constructor
    · rintro rfl
      by_cases heq : d = p₂
      · rw [← heq] at hself
        rcases hself.mp hnode with hleft | hleft
        · exact .inl ((hasNode_dropEntry hd hd).mp hleft)
        · exact .inr ⟨heq, hlisting.mp hleft⟩
      · exact .inl (hgone d hd heq hnode)
    · intro hne hbelow hmoved
      have hmove : v.backend.CanMove p₁ p₂ := by
        rcases hcan with ⟨-, -, f, h₁, h₂⟩ | ⟨-, hmove⟩
        · exact absurd (h₁.trans h₂.symm) hmoved
        · exact hmove
      have hno : ¬ p₂ <+: d.dropLast := not_prefix_target hmove hbelow
      rw [AboveKnown, if_neg hne, hthere, Backend.rename_of_ne hmoved] at habove
      refine hgone _ hd.dropLast (fun heq => hno (heq ▸ List.prefix_rfl)) (habove.resolve_right ?_)
      rintro ⟨f, hf⟩
      have hnone : FileTree.move v.backend.tree p₁ p₂ d.dropLast = none := move_source hbelow hno
      cases hnone.symm.trans hf
  · intro h d hd hread
    obtain ⟨hnode, habove⟩ := hv d hd hread
    obtain ⟨hkept, hkeptAbove⟩ := h d hd hread
    constructor
    · by_cases hd₁ : d = p₁
      · rcases hkept hd₁ with hleft | ⟨rfl, hleft⟩
        · exact hstays d hd hleft
        · rw [hd₁]
          exact hself.mpr (.inr (hlisting.mpr hleft))
      · exact hstays d hd (stays_of_ne hd₁ hnode)
    · by_cases hne : d = []
      · rw [hne] at habove ⊢
        exact hleaves.aboveKnown (aboveKnown_nil_dropEntry hp₁ habove)
      · rw [AboveKnown, if_neg hne, hthere]
        rw [AboveKnown, if_neg hne] at habove
        by_cases hmoved : v.backend.tree p₁ ≠ v.backend.tree p₂ ∧ p₁ <+: d.dropLast
        · exact .inl (hstays _ hd.dropLast (hkeptAbove hne hmoved.2 hmoved.1))
        · have hkeep : v.backend.tree p₁ ≠ v.backend.tree p₂ → ¬ p₁ <+: d.dropLast :=
            fun h₁ h₂ => hmoved ⟨h₁, h₂⟩
          by_cases hq : d.dropLast = p₁
          · -- both names are the same file
            rcases hcan with ⟨-, -, f, h₁, h₂⟩ | ⟨hsame, -⟩
            · refine .inr ⟨f, ?_⟩
              rw [Backend.rename_of_eq (h₁.trans h₂.symm), hq, h₁]
            · exact absurd (hq ▸ List.prefix_rfl) (hkeep hsame)
          · rcases habove with hcached | hfound
            · exact .inl (hstays _ hd.dropLast (stays_of_ne hq hcached))
            · exact .inr (rename_there hcan hfound hkeep)

-- ---------------------------------------------------------------------
-- Opening a directory
-- ---------------------------------------------------------------------

theorem afterOpen_iff {i : Nat} (hok : OpenOk M v) (hok' : OpenOk M v') (hv : LookupsSucceed M v)
    (hstep : nsStep M v (.afterOpen i true) = some v') :
    LookupsSucceed M v' ↔ KeepsNumbers M v (.ns (.afterOpen i true)) := by
  obtain ⟨o, ho, rfl⟩ := Option.map_eq_some_iff.mp hstep
  simp only [if_true] at hok' ⊢
  obtain ⟨filep₀, hfiles, hpath₀, hfile₀⟩ : ∃ filep₀ : OkfsFile,
      (addNewFd M { v with pending := v.pending.eraseIdx i } o).files =
        Function.update v.files v.nextFile (some filep₀) ∧
      filep₀.path = o.canonPath ∧ filep₀.file = o.file := ⟨_, rfl, rfl, rfl⟩
  rw [lookupsSucceed_iff hok] at hv
  rw [lookupsSucceed_iff hok']
  constructor
  · intro h o' ho' hdir hlisted d hd hpath
    obtain rfl := Option.some.inj (ho.symm.trans ho')
    refine h d hd ⟨hpath ▸ hlisted, v.nextFile, filep₀, ?_, hpath₀.trans hpath, hfile₀ ▸ hdir⟩
    rw [hfiles, Function.update_self]
  · rintro h d hd ⟨hlisted, fd, filep, hfile, hpath, hdir⟩
    rw [hfiles] at hfile
    by_cases hfd : fd = v.nextFile
    · rw [hfd, Function.update_self, Option.some.injEq] at hfile
      rw [← hfile] at hpath hdir
      rw [hpath₀] at hpath
      exact h o ho (hfile₀ ▸ hdir) (hpath ▸ hlisted) d hd hpath
    · rw [Function.update_of_ne hfd] at hfile
      exact hv d hd ⟨hlisted, fd, filep, hfile, hpath, hdir⟩

-- ---------------------------------------------------------------------
-- Runs
-- ---------------------------------------------------------------------

/-- What all runs keep. -/
structure NumbersInv (M : Mount) (v : Vfs) : Prop where
  base : Base M v
  made : OpenMade v
  dotted : Dotted M v

theorem NumbersInv.mounted {b : Backend} (hwf : b.WF) : NumbersInv M (Vfs.mounted b) :=
  ⟨.mounted hwf, .mounted b, fun _ _ h => by cases h⟩

theorem NumbersInv.vfsStep {op : VfsOp} (h : NumbersInv M v) (hadm : VfsAdmissible M v op)
    (hstep : vfsStep M links v op = some v') : NumbersInv M v' := by
  refine ⟨h.base.vfsStep hadm hstep, ?_, ?_⟩
  · by_cases hns : ∃ op', op = .ns op'
    · obtain ⟨op', rfl⟩ := hns
      exact h.made.nsStep h.base hadm hstep
    · have hop := OnFiles.vfsStep (fun op' heq => hns ⟨op', heq⟩) h.base hstep
      exact h.made.of_opensNone hop.opens (Nat.le_of_eq hop.nextId.symm) hop.pending
  · by_cases hns : ∃ op', op = .ns op'
    · obtain ⟨op', rfl⟩ := hns
      exact h.dotted.effect hadm ((nsStep_spec h.base hadm).1 v' hstep)
    · exact h.dotted.of_dcache (OnFiles.vfsStep (fun op' heq => hns ⟨op', heq⟩) h.base hstep).dcache

/-- What is open after a close was open before. -/
theorem closeFile_files {fd fd' : FileRef} {filep : OkfsFile}
    (h : (closeFile v fd).files fd' = some filep) : v.files fd' = some filep := by
  by_cases hfd : fd' = fd
  · rw [hfd] at h
    have hnone : (closeFile v fd).files fd = none := Function.update_self ..
    cases hnone.symm.trans h
  · exact (Function.update_of_ne hfd ..).symm.trans h

theorem NumbersInv.closeFile (h : NumbersInv M v) (fd : FileRef) :
    NumbersInv M (closeFile v fd) := by
  refine ⟨⟨⟨h.base.refs.ipath, h.base.refs.inr, h.base.refs.ino⟩, h.base.wf, ?_⟩, ?_, h.dotted⟩
  · exact ⟨fun fd' filep hfile => h.base.openOk.files fd' filep (closeFile_files hfile),
      h.base.openOk.pending⟩
  · exact ⟨fun fd' filep hfile => h.made.files fd' filep (closeFile_files hfile), h.made.pending⟩

theorem NumbersInv.mountStep {op : MountOp} (h : NumbersInv M v) (hadm : MountAdmissible M v op)
    (hstep : mountStep M links v op = some v') : NumbersInv M v' := by
  cases op with
  | call op => exact h.vfsStep hadm hstep
  | close fd =>
    obtain ⟨filep, -, rfl⟩ := Option.map_eq_some_iff.mp hstep
    exact h.closeFile fd

/-- The calls on the namespace that keep all numbers. -/
theorem nsStep_lookups {op : NsOp} (h : NumbersInv M v) (hadm : Admissible M v op)
    (hv : LookupsSucceed M v) (hstep : nsStep M v op = some v') (htakes : ∀ p, ¬ Takes op p)
    (hrename : ∀ p₁ p₂, op ≠ .rename p₁ p₂ (.ok ())) (hafter : ∀ i, op ≠ .afterOpen i true) :
    LookupsSucceed M v' := by
  have heffect := (nsStep_spec h.base hadm).1 v' hstep
  exact (LeavesNumbers.effect heffect hadm htakes hrename).lookupsSucceed
    (nsStep_opensNone hadm hafter hstep) heffect.types.2 h.made h.base.openOk
    (heffect.base h.base hadm).openOk hv

theorem nsStep_lookups_iff {op : NsOp} (hs : M.sb.entry = .shfs) (h : NumbersInv M v)
    (hadm : Admissible M v op) (hv : LookupsSucceed M v) (hstep : nsStep M v op = some v') :
    LookupsSucceed M v' ↔ KeepsNumbers M v (.ns op) := by
  have hok' : OpenOk M v' := (((nsStep_spec h.base hadm).1 v' hstep).base h.base hadm).openOk
  -- the calls that are not mentioned keep everything
  have hquiet : (∀ p, ¬ Takes op p) → (∀ p₁ p₂, op ≠ .rename p₁ p₂ (.ok ())) →
      (∀ i, op ≠ .afterOpen i true) → LookupsSucceed M v' := nsStep_lookups h hadm hv hstep
  cases op with
  | unlink p ret =>
    cases ret with
    | error e => exact iff_of_true (hquiet (by rintro _ ⟨⟩) (by rintro _ _ ⟨⟩) (by rintro _ ⟨⟩)) trivial
    | ok =>
      have hne : p ≠ [] := (hadm.2 rfl).1.ne_nil
      rw [nsStep, okfsUnlink, Mount.components_rel hadm.1] at hstep
      obtain ⟨-, rfl⟩ := (removingCall_ok hadm.1 hne).mp hstep
      exact taken_iff h.dotted h.base.openOk hadm.1 hv
  | rmdir p ret =>
    cases ret with
    | error e => exact iff_of_true (hquiet (by rintro _ ⟨⟩) (by rintro _ _ ⟨⟩) (by rintro _ ⟨⟩)) trivial
    | ok =>
      have hne : p ≠ [] := (hadm.2 rfl).1.ne_nil
      rw [nsStep, okfsRmdir, Mount.components_rel hadm.1] at hstep
      obtain ⟨-, rfl⟩ := (removingCall_ok hadm.1 hne).mp hstep
      exact taken_iff h.dotted h.base.openOk hadm.1 hv
  | rename p₁ p₂ ret =>
    cases ret with
    | error e => exact iff_of_true (hquiet (by rintro _ ⟨⟩) (by rintro _ _ ⟨⟩) (by rintro _ ⟨⟩)) trivial
    | ok =>
      exact renamed_iff hs h.dotted h.base.openOk hok' hadm.1 hadm.2.1 (hadm.2.2 rfl) hv hstep
  | afterOpen i opened =>
    cases opened with
    | true => exact afterOpen_iff h.base.openOk hok' hv hstep
    | false => exact iff_of_true (hquiet (by rintro _ ⟨⟩) (by rintro _ _ ⟨⟩) (by rintro _ ⟨⟩)) trivial
  | lookup | «open» | mkdir | symlink | link | getdents | tick =>
    exact iff_of_true (hquiet (by rintro _ ⟨⟩) (by rintro _ _ ⟨⟩) (by rintro _ ⟨⟩)) trivial

/-- One call. -/
theorem vfsStep_lookups_iff {op : VfsOp} (hs : M.sb.entry = .shfs) (h : NumbersInv M v)
    (hadm : VfsAdmissible M v op) (hv : LookupsSucceed M v)
    (hstep : vfsStep M links v op = some v') : LookupsSucceed M v' ↔ KeepsNumbers M v op := by
  by_cases hns : ∃ op', op = .ns op'
  · obtain ⟨op', rfl⟩ := hns
    exact nsStep_lookups_iff hs h hadm hv hstep
  · have hop := OnFiles.vfsStep (fun op' heq => hns ⟨op', heq⟩) h.base hstep
    have hv' := hop.leaves.lookupsSucceed hop.opens (fun f _ => hop.types f) h.made h.base.openOk
      (h.base.vfsStep hadm hstep).openOk hv
    refine iff_of_true hv' ?_
    cases op with
    | ns op => exact absurd ⟨op, rfl⟩ hns
    | _ => trivial

theorem mountStep_lookups_iff {op : MountOp} (hs : M.sb.entry = .shfs) (h : NumbersInv M v)
    (hadm : MountAdmissible M v op) (hv : LookupsSucceed M v)
    (hstep : mountStep M links v op = some v') : LookupsSucceed M v' ↔ MountKeepsNumbers M v op := by
  cases op with
  | call op => exact vfsStep_lookups_iff hs h hadm hv hstep
  | close fd =>
    obtain ⟨filep, -, rfl⟩ := Option.map_eq_some_iff.mp hstep
    have hleaves : LeavesNumbers M v (closeFile v fd) := .of_dcache rfl rfl rfl
    refine iff_of_true (hleaves.lookupsSucceed (fun fd' filep' hfile => ?_) (fun _ _ => rfl) h.made
      h.base.openOk (h.closeFile fd).base.openOk hv) trivial
    exact ⟨filep', closeFile_files hfile, rfl, rfl⟩

/-- **The lookups of `shfs_readdir`.** They succeed in all states of a run exactly if the run has
no call that takes the number of an open directory, or of the one above it, away. -/
theorem lookups_succeed_iff (hs : M.sb.entry = .shfs) {b : Backend} {ops : List MountOp}
    (hwf : b.WF) (hal : Runs.Along (mountStep M links) (MountAdmissible M) (Vfs.mounted b) ops)
    (hrun : Runs.exec (mountStep M links) (Vfs.mounted b) ops = some v) :
    Runs.Throughout (mountStep M links) (LookupsSucceed M) (Vfs.mounted b) ops ↔
      Runs.Along (mountStep M links) (MountKeepsNumbers M) (Vfs.mounted b) ops := by
  have hstart : LookupsSucceed M (Vfs.mounted b) := by
    rintro path ⟨-, fd, filep, hfile, -⟩
    cases hfile
  have hboth := hal.and (Runs.along_defined hrun)
  exact Runs.throughout_iff_along (I := NumbersInv M)
    (C := fun v op => MountAdmissible M v op ∧ ∃ v', mountStep M links v op = some v')
    (fun _ _ _ h hadm hstep => h.mountStep hadm.1 hstep)
    (fun _ _ _ h hv hadm hstep => mountStep_lookups_iff hs h hadm.1 hv hstep)
    (fun _ _ _ hadm _ => hadm.2) (.mounted hwf) hstart hboth

-- ---------------------------------------------------------------------
-- A directory that is gone
-- ---------------------------------------------------------------------

/-- `d` is made, looked up and opened. -/
def openDirRun : List MountOp :=
  [.call (.ns (.mkdir [ascii "d"] (Backend.newDir 3) (.ok ()))), .call (.ns (.lookup [ascii "d"])),
    .call (.ns (.open [ascii "d"] 0 (.ok ()) (.ok (Backend.newDir 3)))),
    .call (.ns (.afterOpen 0 true))]

/-- Then it is removed. -/
def rmdirRun : List MountOp := openDirRun ++ [.call (.ns (.rmdir [ascii "d"] (.ok ())))]

theorem rmdirRun_admissible :
    Runs.Along (mountStep shfsMount fun _ => none) (MountAdmissible shfsMount) (Vfs.mounted .rootOnly)
      rmdirRun := by
  have hcan : Backend.rootOnly.CanCreate [ascii "d"] (Backend.newDir 3) :=
    Backend.rootOnly_canCreate (by decide) (by decide)
  have hremove : (Backend.rootOnly.create [ascii "d"] (Backend.newDir 3)).CanRemove [ascii "d"] := by
    refine ⟨by decide, ⟨1, rfl⟩, fun q hq => ?_⟩
    cases h : (Backend.rootOnly.create [ascii "d"] (Backend.newDir 3)).tree ([ascii "d"] ++ q) with
    | none => rfl
    | some f => rcases Backend.tree_create_rootOnly h with ⟨h, -⟩ | ⟨h, -⟩ <;> simp [hq] at h
  refine ⟨⟨by decide, fun _ => ⟨hcan, rfl⟩⟩, fun v₁ h₁ => ?_⟩
  obtain rfl := Option.some.inj h₁
  refine ⟨(by decide : ValidPath [ascii "d"]), fun v₂ h₂ => ?_⟩
  obtain rfl := Option.some.inj h₂
  refine ⟨⟨by decide, fun _ _ hcreates => absurd rfl hcreates.1⟩, fun v₃ h₃ => ?_⟩
  obtain rfl := Option.some.inj h₃
  refine ⟨Nat.zero_lt_one, fun v₄ h₄ => ?_⟩
  obtain rfl := Option.some.inj h₄
  exact ⟨⟨by decide, fun _ => ⟨hremove, ⟨1, rfl, rfl⟩⟩⟩, fun _ _ => trivial⟩

/-- While it is there its numbers are found. -/
theorem lookups_succeed_open :
    Runs.Throughout (mountStep shfsMount fun _ => none) (LookupsSucceed shfsMount)
      (Vfs.mounted .rootOnly) openDirRun := by
  have hal : Runs.Along (mountStep shfsMount fun _ => none) (MountAdmissible shfsMount)
      (Vfs.mounted .rootOnly) openDirRun := rmdirRun_admissible.prefix
  refine (lookups_succeed_iff rfl Backend.rootOnly_wf hal rfl).mpr ?_
  refine ⟨trivial, fun v₁ h₁ => ?_⟩
  obtain rfl := Option.some.inj h₁
  refine ⟨trivial, fun v₂ h₂ => ?_⟩
  obtain rfl := Option.some.inj h₂
  refine ⟨trivial, fun v₃ h₃ => ?_⟩
  obtain rfl := Option.some.inj h₃
  refine ⟨?_, fun _ _ => trivial⟩
  intro o ho _ _ d hd hpath
  obtain rfl := Option.some.inj ho
  have hpath : shfsMount.full [ascii "d"] = shfsMount.full d := hpath
  rw [← Mount.full_injective (by decide) hd hpath, AboveKnown, if_neg (by decide)]
  exact ⟨Nat.zero_lt_one, .inr ⟨0, rfl⟩⟩

/-- The state after it was removed, with descriptor 0 on it. -/
def rmdirState : Vfs :=
  (Runs.exec (mountStep shfsMount fun _ => none) (Vfs.mounted .rootOnly) rmdirRun).getD
    (Vfs.mounted .rootOnly)

theorem rmdirState_file :
    rmdirState.files 0 = some ⟨ascii "/mnt/d", ascii "/d", some 0, 0, 1, 0, false⟩ :=
  rfl

/-- After `rmdir` `get_ino` finds nothing for the open directory. -/
theorem not_lookups_succeed :
    Backend.rootOnly.WF ∧
      Runs.Along (mountStep shfsMount fun _ => none) (MountAdmissible shfsMount) (Vfs.mounted .rootOnly)
        rmdirRun ∧
      Runs.exec (mountStep shfsMount fun _ => none) (Vfs.mounted .rootOnly) rmdirRun =
        some rmdirState ∧
      getIno shfsMount rmdirState (ascii "/mnt/d") = none ∧
      ¬ LookupsSucceed shfsMount rmdirState := by
  refine ⟨Backend.rootOnly_wf, rmdirRun_admissible, rfl, rfl, fun h => ?_⟩
  have hreads : ReadsDirAt shfsMount rmdirState (ascii "/mnt/d") :=
    ⟨rfl, 0, _, rmdirState_file, rfl, rfl⟩
  exact (h _ hreads).ino rfl

end Okfs
