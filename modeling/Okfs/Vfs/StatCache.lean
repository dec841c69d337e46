import Okfs.Vfs.SysCalls

/-!
# OKFS — what stat reports of a cached file

`okfs_dolstat` serves a path from the cache once it has been looked up, for good. Two
things are said of it.

* A path that is looked up for the first time is reported as the filesystem has it, but it
  may be attached to an inode record that was made earlier, for a file with the same
  numbers that is gone. The next lookup of the path reads that record
  (`dolstat_again_iff`).
* The handlers of chmod, chown and utime and those for descriptors change the backend and
  tell no cache. So stat goes on reporting the old attributes of a file that has a cached
  path, and those that are given a path have just cached it (`stats_right_iff`).

In runs of calls on attributes, nothing else can go wrong: the records agree with the
files (`AttrsOk`) as long as each change is reported.
-/

namespace Okfs

open Components FileTree

variable {M : Mount} {links : FileId → Option FileId} {v v' : Vfs} {b : Backend} {f : FileId}
  {fd : FileRef} {p q : Path} {st : Stat}

-- ---------------------------------------------------------------------
-- A lookup, and another one
-- ---------------------------------------------------------------------

/-- The two buffers have the same fields: which file they were read from is none of them. -/
def SameStat (st st' : Stat) : Prop := { st with file := 0 } = { st' with file := 0 }

instance (st st' : Stat) : Decidable (SameStat st st') := inferInstanceAs (Decidable (_ = _))

/-- What localfs reports is attached to the record that goes by its numbers, if there is one. -/
theorem okfsDolstat_miss_localfs (hs : M.sb.entry = .localfs) (hp : ValidPath p)
    (hmiss : cacheFindInode M v (M.full p) = none) (htree : v.backend.tree p = some f) :
    okfsDolstat M v (M.full p) (M.rel p) =
      ((cacheAddInode M v (M.full p) (v.backend.stat f)).1, .ok (v.backend.stat f)) := by
  have hep : epLstat M v (M.rel p) = (v, .ok (v.backend.stat f)) := by
    rw [epLstat, Mount.components_rel hp, Backend.lstat, htree, hs]
  simp only [okfsDolstat, hmiss, hep]

/-- On shfs the filesystem's `lstat` has attached it before, to a record with a new number. -/
theorem okfsDolstat_miss_shfs (hs : M.sb.entry = .shfs) (hp : ValidPath p)
    (hmiss : cacheFindInode M v (M.full p) = none) (htree : v.backend.tree p = some f) :
    okfsDolstat M v (M.full p) (M.rel p) =
      ((cacheAddInode M { v with nextInode := v.nextInode + 1 } (M.full p)
          { shfsStat (v.backend.stat f) with stIno := v.nextInode }).1,
        .ok { shfsStat (v.backend.stat f) with stIno := v.nextInode }) := by
  have hkey := Mount.cachePath_lstat (M := M) hp
  have hep : epLstat M v (M.rel p) =
      ((cacheAddInode M { v with nextInode := v.nextInode + 1 } (M.full p)
          { shfsStat (v.backend.stat f) with stIno := v.nextInode }).1,
        .ok { shfsStat (v.backend.stat f) with stIno := v.nextInode }) := by
    rw [epLstat, Mount.components_rel hp, Backend.lstat, htree, hs]
    simp only [addToCache_of_none (hkey ▸ hmiss), hkey]
  simp only [okfsDolstat, hmiss, hep, cacheFindInode_cacheAddInode_self]

/-- A miss reports the file, and attaches the path to the record that goes by its numbers,
or else to a new one. -/
theorem okfsDolstat_miss (hbase : Base M v) (hp : ValidPath p)
    (hmiss : cacheFindInode M v (M.full p) = none)
    (hstat : okfsDolstat M v (M.full p) (M.rel p) = (v', .ok st)) :
    ∃ f r, v.backend.tree p = some f ∧ cacheFindInode M v' (M.full p) = some r ∧
      match M.sb.entry with
      | .localfs => st = v.backend.stat f ∧
          match sameInoFind v st.stDev st.stIno with
          | some r' => v'.inode r = v.inode r'
          | none => v'.inode r = st
      | .shfs => v'.inode r = st := by
  cases htree : v.backend.tree p with
  | none =>
    rcases okfsDolstat_spec (M := M) (v := v) hp with ⟨r, hr, -⟩ | ⟨-, -, heq⟩ | ⟨f, -, -, -, -, hf, -⟩
    · rw [hmiss] at hr
      cases hr
    · rw [hstat] at heq
      cases (Prod.mk.inj heq).2
    · rw [htree] at hf
      cases hf
  | some f =>
    cases hs : M.sb.entry with
    | localfs =>
      obtain ⟨rfl, hst⟩ :=
        Prod.mk.inj (hstat.symm.trans (okfsDolstat_miss_localfs hs hp hmiss htree))
      obtain rfl := Except.ok.inj hst
      refine ⟨f, _, rfl, cacheFindInode_cacheAddInode_self, rfl, ?_⟩
      unfold cacheAddInode
      cases sameInoFind v (v.backend.stat f).stDev (v.backend.stat f).stIno with
      | some r' => rfl
      | none => exact Function.update_self ..
    | shfs =>
      obtain ⟨rfl, hst⟩ :=
        Prod.mk.inj (hstat.symm.trans (okfsDolstat_miss_shfs hs hp hmiss htree))
      obtain rfl := Except.ok.inj hst
      refine ⟨f, _, rfl, cacheFindInode_cacheAddInode_self, ?_⟩
      have hnone : sameInoFind { v with nextInode := v.nextInode + 1 }
          (shfsStat (v.backend.stat f)).stDev v.nextInode = none :=
        hbase.refs.sameInoFind_nextInode hs 73
      simp only [cacheAddInode, hnone]
      exact Function.update_self ..

/-- A symbolic link is made and looked up, and gets a second name. -/
def linkedRun : List SysOp :=
  [.call (.ns (.symlink [ascii "f"] { Backend.newFile 3 with stType := .lnk } (.ok ()))) true,
    .call (.ns (.lookup [ascii "f"])) true,
    .call (.ns (.link [ascii "f"] [ascii "g"] (.ok ()))) true]

def linked : Vfs :=
  (Runs.exec (sysStep localMount fun _ => none) (Vfs.mounted .rootOnly) linkedRun).getD
    (Vfs.mounted .rootOnly)

theorem linkedRun_exec :
    Runs.exec (sysStep localMount fun _ => none) (Vfs.mounted .rootOnly) linkedRun = some linked :=
  rfl

theorem linkedRun_admissible :
    Runs.Along (sysStep localMount fun _ => none) (SysAdmissible localMount)
      (Vfs.mounted .rootOnly) linkedRun := by
  have hmake : Backend.rootOnly.CanCreate [ascii "f"] { Backend.newFile 3 with stType := .lnk } :=
    Backend.rootOnly_canCreate (by decide) (by decide)
  have hlink : (Backend.rootOnly.create [ascii "f"]
      { Backend.newFile 3 with stType := .lnk }).CanLink [ascii "f"] [ascii "g"] :=
    ⟨by decide, by decide, ⟨1, rfl, by decide⟩, rfl, ⟨0, rfl, rfl⟩⟩
  have hno : ∀ p, (none : Option Path) = some p → ValidPath p := fun p h => by cases h
  refine ⟨⟨hno, ⟨by decide, fun _ => ⟨hmake, rfl⟩⟩⟩, fun v₁ h₁ => ?_⟩
  obtain rfl := Option.some.inj h₁
  refine ⟨⟨hno, (by decide : ValidPath [ascii "f"])⟩, fun v₂ h₂ => ?_⟩
  obtain rfl := Option.some.inj h₂
  exact ⟨⟨hno, ⟨by decide, by decide, fun _ => hlink⟩⟩, fun _ _ => trivial⟩

/-- A directory is looked up and removed, and a symbolic link gets its inode number. -/
def reusedRun : List SysOp :=
  [.call (.ns (.mkdir [ascii "d"] (Backend.newDir 3) (.ok ()))) true,
    .call (.ns (.lookup [ascii "d"])) true, .call (.ns (.rmdir [ascii "d"] (.ok ()))) true,
    .call (.ns (.symlink [ascii "g"] { Backend.newFile 3 with stType := .lnk } (.ok ()))) true]

def reused : Vfs :=
  (Runs.exec (sysStep localMount fun _ => none) (Vfs.mounted .rootOnly) reusedRun).getD
    (Vfs.mounted .rootOnly)

theorem reusedRun_exec :
    Runs.exec (sysStep localMount fun _ => none) (Vfs.mounted .rootOnly) reusedRun = some reused :=
  rfl

theorem reusedRun_admissible :
    Runs.Along (sysStep localMount fun _ => none) (SysAdmissible localMount)
      (Vfs.mounted .rootOnly) reusedRun := by
  have htree : ∀ {q f}, (Backend.rootOnly.create [ascii "d"] (Backend.newDir 3)).tree q = some f →
      (q = [] ∧ f = 0) ∨ (q = [ascii "d"] ∧ f = 1) := Backend.tree_create_rootOnly
  have hmake : Backend.rootOnly.CanCreate [ascii "d"] (Backend.newDir 3) :=
    Backend.rootOnly_canCreate (by decide) (by decide)
  have hremove : (Backend.rootOnly.create [ascii "d"] (Backend.newDir 3)).CanRemove [ascii "d"] := by
    refine ⟨by decide, ⟨1, rfl⟩, fun q hq => ?_⟩
    cases h : (Backend.rootOnly.create [ascii "d"] (Backend.newDir 3)).tree ([ascii "d"] ++ q) with
    | none => rfl
    | some f => rcases htree h with ⟨h, -⟩ | ⟨h, -⟩ <;> simp [hq] at h
  have hagain : ((Backend.rootOnly.create [ascii "d"] (Backend.newDir 3)).remove
      [ascii "d"]).CanCreate [ascii "g"] { Backend.newFile 3 with stType := .lnk } := by
    refine ⟨by decide, by decide, rfl, ⟨0, rfl, rfl⟩, fun q f hq => ?_⟩
    by_cases hqd : q = [ascii "d"]
    · subst hqd
      cases hq
    · have hq : (Backend.rootOnly.create [ascii "d"] (Backend.newDir 3)).tree q = some f := by
        rw [← hq]
        exact (Function.update_of_ne hqd ..).symm
      rcases htree hq with ⟨-, rfl⟩ | ⟨h, -⟩
      · exact (by decide : ¬ (1 = 1 ∧ 2 = 3))
      · exact absurd h hqd
  have hno : ∀ p, (none : Option Path) = some p → ValidPath p := fun p h => by cases h
  have hd : ∀ p, some [ascii "d"] = some p → ValidPath p := fun p h => Option.some.inj h ▸ by decide
  refine ⟨⟨hd, ⟨by decide, fun _ => ⟨hmake, rfl⟩⟩⟩, fun v₁ h₁ => ?_⟩
  obtain rfl := Option.some.inj h₁
  refine ⟨⟨hno, (by decide : ValidPath [ascii "d"])⟩, fun v₂ h₂ => ?_⟩
  obtain rfl := Option.some.inj h₂
  refine ⟨⟨hd, ⟨by decide, fun _ => ⟨hremove, ⟨1, rfl, rfl⟩⟩⟩⟩, fun v₃ h₃ => ?_⟩
  obtain rfl := Option.some.inj h₃
  exact ⟨⟨hno, ⟨by decide, fun _ => ⟨hagain, rfl⟩⟩⟩, fun _ _ => trivial⟩

/-- Permission bits, owner, group and times. -/
def attrs (st : Stat) : Nat × Nat × Nat × Nat × Nat × Nat :=
  (st.stPerm, st.stUid, st.stGid, st.stAtime, st.stMtime, st.stCtime)

/-- The calls on attributes, and opens of files that are there and are not truncated. -/
def AttrOp (v : Vfs) : VfsOp → Prop
  | .ns (.lookup p) => ValidPath p
  | .ns (.open p flags _ _) => ValidPath p ∧ (∃ f, v.backend.tree p = some f) ∧ ¬ OpenTruncates flags
  | .ns (.afterOpen i _) => i < v.pending.length
  | .ns (.tick _) | .fstat _ | .utime .. | .chmod .. | .chown .. | .fchmod .. | .fchown .. => True
  | _ => False

def AttrCall (v : Vfs) : SysOp → Prop
  | .call op named => (∀ p, (SysOp.call op named).looksUp = some p → ValidPath p) ∧ AttrOp v op
  | .settle .. => False

/-- The file that a call changes, if it succeeds. -/
def changed (links : FileId → Option FileId) (v : Vfs) (relPath : CStr) (c : Change) (ans : Ret) :
    Option (FileId × Change) :=
  match ans with
  | .ok () => (v.backend.slotFile links relPath).map (·, c)
  | .error _ => none

def VfsOp.changes (M : Mount) (links : FileId → Option FileId) (v : Vfs) :
    VfsOp → Option (FileId × Change)
  | .utime p atime mtime ctime ans => changed links v (M.rel p) (.utime atime mtime ctime) ans
  | .chmod p mode ctime ans => changed links v (M.rel p) (.chmod mode ctime) ans
  | .chown p owner group perm ctime ans =>
    changed links v (M.rel p) (.chown owner group perm ctime) ans
  | .fchmod fd mode ctime ans =>
    (v.files fd).bind fun filep => changed links v filep.relPath (.chmod mode ctime) ans
  | .fchown fd owner group perm ctime ans =>
    (v.files fd).bind fun filep =>
      changed links v filep.relPath (.chown owner group perm ctime) ans
  | _ => none

def SysOp.changes (M : Mount) (links : FileId → Option FileId) (v : Vfs) :
    SysOp → Option (FileId × Change)
  | .call op _ => op.changes M links v
  | .settle .. => none

/-- Every call of the stat family on the file reports the attributes that the backend has. -/
structure Reports (M : Mount) (v : Vfs) (f : FileId) : Prop where
  stat : ∀ p, v.backend.tree p = some f →
    ∃ v' st, okfsDolstat M v (M.full p) (M.rel p) = (v', .ok st) ∧
      attrs st = attrs (v.backend.stat f)
  fstat : ∀ fd filep, v.files fd = some filep → filep.file = f →
    ∃ v' st, okfsFstat M v fd = some (v', .ok st) ∧ attrs st = attrs (v.backend.stat f)

/-- The change leaves the attributes as they are, or no path of the file is cached. -/
def Unseen (M : Mount) (v : Vfs) (f : FileId) (c : Change) : Prop :=
  attrs (c.apply (v.backend.attr f)) = attrs (v.backend.attr f) ∨
    ∀ p, v.backend.tree p = some f → cacheFindInode M v (M.full p) = none

/-- The same for a call: its own lookup of its path counts. -/
def SysOp.Unseen (M : Mount) (v : Vfs) (call : SysOp) (f : FileId) (c : Change) : Prop :=
  attrs (c.apply (v.backend.attr f)) = attrs (v.backend.attr f) ∨
    ∀ p, v.backend.tree p = some f →
      cacheFindInode M v (M.full p) = none ∧ call.looksUp ≠ some p

/-- The records agree with the files, and open files are where they were opened. -/
structure AttrsOk (M : Mount) (v : Vfs) : Prop where
  base : Base M v
  agree : ∀ p f r, v.backend.tree p = some f → cacheFindInode M v (M.full p) = some r →
    attrs (v.inode r) = attrs (v.backend.attr f)
  /-- A record that can be found by its numbers is the one of a path of that file. -/
  linked : M.sb.entry = .localfs → ∀ h, ∀ r ∈ v.inrCache h, ∃ p f, v.backend.tree p = some f ∧
    cacheFindInode M v (M.full p) = some r ∧ (v.inode r).stDev = (v.backend.attr f).stDev ∧
      (v.inode r).stIno = (v.backend.attr f).stIno
  files : ∀ fd filep, v.files fd = some filep →
    ∃ p, v.backend.tree p = some filep.file ∧ filep.path = M.full p ∧ filep.relPath = M.rel p
  pending : ∀ o ∈ v.pending,
    ∃ p, v.backend.tree p = some o.file ∧ o.canonPath = M.full p ∧ o.relPath = M.rel p

theorem attrs_numberless : Numberless attrs := fun _ _ _ => rfl

theorem AttrsOk.mounted (hwf : b.WF) : AttrsOk M (Vfs.mounted b) where
  base := .mounted hwf
  agree := fun _ _ _ _ hr => by cases hr
  linked := fun _ _ _ hr => (List.not_mem_nil hr).elim
  files := fun _ _ h => by cases h
  pending := fun _ ho => (List.not_mem_nil ho).elim

/-- A second node for the record that a path has. -/
theorem cacheFindInode_pathInsert_again {key k : CStr} {r : InodeRef}
    (h : cacheFindInode M v key = some r) :
    cacheFindInode M (pathInsert M v key r) k = cacheFindInode M v k := by
  by_cases hk : k = key
  · rw [hk, cacheFindInode_pathInsert_self, h]
  · exact cacheFindInode_pathInsert_of_ne hk

namespace AttrsOk

/-- The record that a path has then is of the file as it is. -/
theorem agree_cachesOne {r : InodeRef} (h : AttrsOk M v) (hone : CachesOne M v v')
    (hf : v.backend.tree p = some f) (hr : cacheFindInode M v' (M.full p) = some r) :
    attrs (v'.inode r) = attrs (v.backend.attr f) := by
  cases hone with
  | @share q f' st n r' _ _ found record same =>
    by_cases hpq : M.full p = M.full q
    · obtain rfl := Mount.full_injective (h.base.wf.valid p f hf)
        (h.base.wf.valid q f' found) hpq
      obtain rfl := Option.some.inj (hf.symm.trans found)
      have hrr : r' = r := Option.some.inj (cacheFindInode_pathInsert_self.symm.trans hr)
      subst hrr
      cases record with
      | shfs hs =>
        have hnone := h.base.refs.sameInoFind_nextInode hs 73
        cases hnone.symm.trans same
      | localfs hs =>
        -- the record is that of another path of the file
        obtain ⟨hmem, hdev, hino⟩ := sameInoFind_spec same
        obtain ⟨p', f', hf', hr', hdev', hino'⟩ := h.linked hs _ _ hmem
        have hff : f' = f := h.base.wf.inoUnique p' p f' f hf' hf (hdev'.symm.trans hdev)
          (hino'.symm.trans hino)
        exact h.agree p' f r' (hff ▸ hf') hr'
    · exact h.agree p f r hf ((cacheFindInode_pathInsert_of_ne hpq).symm.trans hr)
  | @fresh q f' st n _ _ found record _ =>
    by_cases hpq : M.full p = M.full q
    · obtain rfl := Mount.full_injective (h.base.wf.valid p f hf)
        (h.base.wf.valid q f' found) hpq
      obtain rfl := Option.some.inj (hf.symm.trans found)
      have hrr : v.nextRef = r := Option.some.inj (cacheFindInode_pathInsert_self.symm.trans hr)
      subst hrr
      have hnew : attrs st = attrs (v.backend.attr f) := record.agrees attrs_numberless
      rw [← hnew]
      exact congrArg attrs (Function.update_self ..)
    · have hr : cacheFindInode M v (M.full p) = some r :=
        (cacheFindInode_pathInsert_of_ne hpq).symm.trans hr
      have hne : r ≠ v.nextRef := Nat.ne_of_lt (h.base.refs.find_lt hr)
      rw [← h.agree p f r hf hr]
      exact congrArg attrs (Function.update_of_ne hne ..)
  | again cached =>
    have hr : cacheFindInode M v (M.full p) = some r :=
      (cacheFindInode_pathInsert_again cached).symm.trans hr
    exact h.agree p f r hf hr

/-- Every record is still that of a path. -/
theorem linked_cachesOne {r : InodeRef} {k : Nat} (h : AttrsOk M v) (hone : CachesOne M v v')
    (hs : M.sb.entry = .localfs) (hr : r ∈ v'.inrCache k) :
    ∃ p f, v.backend.tree p = some f ∧ cacheFindInode M v' (M.full p) = some r ∧
      (v'.inode r).stDev = (v.backend.attr f).stDev ∧
      (v'.inode r).stIno = (v.backend.attr f).stIno := by
  have hold : r ∈ v.inrCache k → ∃ p f, v.backend.tree p = some f ∧
      cacheFindInode M v' (M.full p) = some r ∧
      (v'.inode r).stDev = (v.backend.attr f).stDev ∧
      (v'.inode r).stIno = (v.backend.attr f).stIno := by
    intro hr
    obtain ⟨p, f, hf, hfind, hdev, hino⟩ := h.linked hs k r hr
    refine ⟨p, f, hf, hone.keep hfind, ?_⟩
    rw [hone.inode_of_lt (h.base.refs.find_lt hfind)]
    exact ⟨hdev, hino⟩
  cases hone with
  | share | again => exact hold hr
  | @fresh q f' st n _ _ found record _ =>
    rcases mem_creatInode hr with rfl | hr
    · cases record with
      | shfs hs' => rw [hs] at hs'; cases hs'
      | localfs =>
        refine ⟨q, f', found, cacheFindInode_pathInsert_self, ?_⟩
        have hrec : (creatInode v (v.backend.stat f')).1.inode v.nextRef = v.backend.stat f' :=
          Function.update_self ..
        exact ⟨(congrArg Stat.stDev hrec).trans rfl, (congrArg Stat.stIno hrec).trans rfl⟩
    · exact hold hr

theorem cachesOne (h : AttrsOk M v) (hone : CachesOne M v v') : AttrsOk M v' := by
  have hframe := hone.frame
  refine ⟨h.base.caches (.single hone), ?_, ?_, ?_, ?_⟩
  · rw [hframe.backend]
    intro p f r hf hr
    exact h.agree_cachesOne hone hf hr
  · rw [hframe.backend]
    intro hs k r hr
    exact h.linked_cachesOne hone hs hr
  · rw [hframe.files, hframe.backend]
    exact h.files
  · rw [hframe.pending, hframe.backend]
    exact h.pending

theorem caches (h : AttrsOk M v) (hcaches : Caches M v v') : AttrsOk M v' := by
  induction hcaches with
  | refl => exact h
  | tail _ hone ih => exact ih.cachesOne hone

/-- The change of a file that no record speaks of, or of none of its attributes. -/
theorem changeFile {c : Change} (h : AttrsOk M v) (hunseen : Unseen M v f c) :
    AttrsOk M { v with backend := v.backend.changeFile f c.apply } := by
  have hkeeps := Backend.attr_changeFile_keeps c.keeps v.backend f
  refine ⟨h.base.changeFile c.keeps f, ?_, ?_, h.files, h.pending⟩
  · intro p f' r hf hr
    have hold := h.agree p f' r hf hr
    show attrs (v.inode r) = attrs ((v.backend.changeFile f c.apply).attr f')
    by_cases hff : f' = f
    · subst hff
      rw [Backend.attr_changeFile_self, hold]
      rcases hunseen with hsame | hnone
      · exact hsame.symm
      · have hr : cacheFindInode M v (M.full p) = some r := hr
        rw [hnone p hf] at hr
        cases hr
    · rw [Backend.attr_changeFile_of_ne _ hff, hold]
  · intro hs k r hr
    obtain ⟨p, f', hf, hfind, hdev, hino⟩ := h.linked hs k r hr
    exact ⟨p, f', hf, hfind, hdev.trans (hkeeps f').1.symm, hino.trans (hkeeps f').2.1.symm⟩

/-- Every file is reported as it is. -/
theorem reports (h : AttrsOk M v) (f : FileId) : Reports M v f := by
  have hstat : ∀ p, v.backend.tree p = some f →
      ∃ v' st, okfsDolstat M v (M.full p) (M.rel p) = (v', .ok st) ∧
        attrs st = attrs (v.backend.stat f) := by
    intro p hf
    rcases okfsDolstat_spec (M := M) (h.base.wf.valid p f hf) with
      ⟨r, hr, heq⟩ | ⟨-, hnone, -⟩ | ⟨f', v', d, i, -, hf', heq, -⟩
    · exact ⟨v, v.inode r, heq, h.agree p f r hf hr⟩
    · rw [hf] at hnone
      cases hnone
    · obtain rfl := Option.some.inj (hf.symm.trans hf')
      exact ⟨v', _, heq, attrs_numberless ..⟩
  refine ⟨hstat, fun fd filep hfile hff => ?_⟩
  obtain ⟨p, hp, hpath, hrel⟩ := h.files fd filep hfile
  obtain ⟨v', st, heq, hst⟩ := hstat p (hff ▸ hp)
  refine ⟨v', st, ?_, hst⟩
  rw [okfsFstat, hfile, Option.map_some, hpath, hrel, heq]

theorem openKnown {flags : UInt32} {trunc : Ret} {ans : Except Errno Stat} (h : AttrsOk M v)
    (hp : ValidPath p) (hthere : ∃ f, v.backend.tree p = some f) (htrunc : ¬ OpenTruncates flags)
    (hstep : nsStep M v (.open p flags trunc ans) = some v') : AttrsOk M v' := by
  obtain ⟨v₁, v₂, ret, heq, hcaches, -, v₃, htruncated, hopens⟩ :=
    okfsDoOpen_known (M := M) hp flags trunc ans fun _ => hthere
  have hv : v₂ = v' := by
    rw [Okfs.nsStep, heq] at hstep
    exact Option.some.inj hstep
  rw [← hv]
  have hok := h.caches hcaches
  obtain rfl := htruncated.resolve_right fun ht => htrunc ht.1
  rcases hopens with rfl | ⟨f, append, hf, rfl⟩
  · exact hok
  · refine ⟨⟨hok.base.refs.congr (fun _ _ hm => hm) rfl rfl rfl rfl, hok.base.wf,
      (pending_sameFs hp f append).openOk hok.base.openOk⟩, hok.agree, hok.linked, hok.files,
      fun o ho => ?_⟩
    rcases List.mem_append.mp ho with ho | ho
    · exact hok.pending o ho
    · obtain rfl := List.mem_singleton.mp ho
      exact ⟨p, hf, rfl, rfl⟩

theorem afterOpen {i : Nat} {opened : Bool} (h : AttrsOk M v) (hi : i < v.pending.length)
    (hstep : nsStep M v (.afterOpen i opened) = some v') : AttrsOk M v' := by
  have hadm : VfsAdmissible M v (.ns (.afterOpen i opened)) := hi
  have hstep' : vfsStep M (fun _ => none) v (.ns (.afterOpen i opened)) = some v' := hstep
  have hbase := h.base.vfsStep hadm hstep'
  obtain ⟨o, ho, heq⟩ := Option.map_eq_some_iff.mp hstep
  have hpending : ∀ o' ∈ v.pending.eraseIdx i,
      ∃ p, v.backend.tree p = some o'.file ∧ o'.canonPath = M.full p ∧ o'.relPath = M.rel p :=
    fun o' ho' => h.pending o' (List.mem_of_mem_eraseIdx ho')
  cases opened with
  | false =>
    subst heq
    exact ⟨hbase, h.agree, h.linked, h.files, hpending⟩
  | true =>
    have heq : addNewFd M { v with pending := v.pending.eraseIdx i } o = v' := heq
    subst heq
    refine ⟨hbase, h.agree, h.linked, fun fd filep hfile => ?_, hpending⟩
    by_cases hnew : fd = v.nextFile
    · obtain ⟨p, hp⟩ := h.pending o (List.mem_of_getElem? ho)
      rw [hnew, addNewFd] at hfile
      obtain rfl := Option.some.inj ((Vfs.setFile_self ..).symm.trans hfile)
      exact ⟨p, hp⟩
    · exact h.files fd filep ((Function.update_of_ne hnew ..).symm.trans hfile)

theorem nsStep {op : NsOp} (h : AttrsOk M v) (hcall : AttrOp v (.ns op))
    (hstep : nsStep M v op = some v') : AttrsOk M v' := by
  cases op with
  | lookup p =>
    have hcaches := arglstat_caches (M := M) (v := v) (show ValidPath p from hcall)
    rw [arglstat_full (show ValidPath p from hcall)] at hcaches
    rw [← Option.some.inj hstep]
    exact h.caches hcaches
  | «open» p flags trunc ans => exact h.openKnown hcall.1 hcall.2.1 hcall.2.2 hstep
  | afterOpen i opened => exact h.afterOpen hcall hstep
  | tick now =>
    rw [← Option.some.inj hstep]
    exact ⟨⟨h.base.refs.congr (fun _ _ hm => hm) rfl rfl rfl rfl, h.base.wf,
      h.base.openOk.files, h.base.openOk.pending⟩, h.agree, h.linked, h.files, h.pending⟩
  | mkdir | symlink | link | unlink | rmdir | rename | getdents => exact hcall.elim

end AttrsOk

/-- What is reported after a change says whether it was to be seen. -/
theorem Reports.unseen {c : Change} (hok : AttrsOk M v)
    (h : Reports M { v with backend := v.backend.changeFile f c.apply } f) : Unseen M v f c := by
  by_cases hnone : ∀ p, v.backend.tree p = some f → cacheFindInode M v (M.full p) = none
  · exact .inr hnone
  · simp only [not_forall] at hnone
    obtain ⟨p, hf, hcached⟩ := hnone
    obtain ⟨r, hr⟩ := Option.ne_none_iff_exists'.mp hcached
    obtain ⟨v', st, heq, hst⟩ := h.stat p hf
    have hhit : okfsDolstat M { v with backend := v.backend.changeFile f c.apply } (M.full p)
        (M.rel p) = ({ v with backend := v.backend.changeFile f c.apply }, .ok (v.inode r)) := by
      have hr : cacheFindInode M { v with backend := v.backend.changeFile f c.apply } (M.full p) =
          some r := hr
      simp only [okfsDolstat, hr]
    rw [hhit] at heq
    obtain rfl := Except.ok.inj (Prod.mk.inj heq).2
    have hnew : attrs ((v.backend.changeFile f c.apply).attr f) = attrs (c.apply (v.backend.attr f)) :=
      congrArg attrs (Backend.attr_changeFile_self ..)
    have hst : attrs (v.inode r) = attrs ((v.backend.changeFile f c.apply).attr f) := hst
    refine .inl ?_
    rw [← hnew, ← hst, hok.agree p f r hf hr]

/-- A call on attributes changes the file that it changes. -/
theorem changeAttr_eq (links : FileId → Option FileId) (relPath : CStr) (c : Change) (ans : Ret) :
    (changed links v relPath c ans = none ∧ (changeAttr links v relPath c ans).1 = v) ∨
      ∃ f, changed links v relPath c ans = some (f, c) ∧
        (changeAttr links v relPath c ans).1 =
          { v with backend := v.backend.changeFile f c.apply } := by
  unfold changeAttr changed
  cases v.backend.slotFile links relPath with
  | none => cases ans <;> exact .inl ⟨rfl, rfl⟩
  | some f =>
    cases ans with
    | error e => exact .inl ⟨rfl, rfl⟩
    | ok => exact .inr ⟨f, rfl, rfl⟩

/-- **What a call on attributes does.** It looks paths up and opens files, or it changes
the file that it changes. -/
theorem attrOp_step {op : VfsOp} (h : AttrsOk M v) (hcall : AttrOp v op)
    (hstep : vfsStep M links v op = some v') :
    (op.changes M links v = none ∧ AttrsOk M v') ∨
      ∃ f c, op.changes M links v = some (f, c) ∧
        v' = { v with backend := v.backend.changeFile f c.apply } := by
  have hchange : ∀ {relPath c ans}, (changeAttr links v relPath c ans).1 = v' →
      (changed links v relPath c ans = none ∧ AttrsOk M v') ∨
        ∃ f c', changed links v relPath c ans = some (f, c') ∧
          v' = { v with backend := v.backend.changeFile f c'.apply } := by
    intro relPath c ans heq
    rcases changeAttr_eq (v := v) links relPath c ans with ⟨hnone, hsame⟩ | ⟨f, hf, hnew⟩
    · rw [hsame] at heq
      exact .inl ⟨hnone, heq ▸ h⟩
    · exact .inr ⟨f, c, hf, heq.symm.trans hnew⟩
  have hfd : ∀ {fd c ans}, (changeFd links v fd c ans).map Prod.fst = some v' →
      (((v.files fd).bind fun filep => changed links v filep.relPath c ans) = none ∧ AttrsOk M v') ∨
        ∃ f c', ((v.files fd).bind fun filep => changed links v filep.relPath c ans) = some (f, c') ∧
          v' = { v with backend := v.backend.changeFile f c'.apply } := by
    intro fd c ans hstep
    obtain ⟨x, hx, heq⟩ := Option.map_eq_some_iff.mp hstep
    obtain ⟨filep, hfile, rfl⟩ := Option.map_eq_some_iff.mp hx
    rw [hfile]
    exact hchange heq
  cases op with
  | ns op => exact .inl ⟨rfl, h.nsStep hcall hstep⟩
  | fstat fd =>
    obtain ⟨⟨_, st⟩, hrun, rfl⟩ := Option.map_eq_some_iff.mp hstep
    exact .inl ⟨rfl, h.caches (okfsFstat_caches h.base hrun)⟩
  | utime p atime mtime ctime ans => exact hchange (Option.some.inj hstep)
  | chmod p mode ctime ans => exact hchange (Option.some.inj hstep)
  | chown p owner group perm ctime ans => exact hchange (Option.some.inj hstep)
  | fchmod fd mode ctime ans => exact hfd hstep
  | fchown fd owner group perm ctime ans => exact hfd hstep
  | read | write | lseek | ftruncate | truncate => exact hcall.elim

/-- Lookups leave alone what the calls ask for. -/
theorem AttrOp.frame {op : VfsOp} (h : AttrOp v op) (hframe : Frame v v') : AttrOp v' op := by
  unfold AttrOp at h ⊢
  rw [hframe.backend, hframe.pending]
  exact h

theorem VfsOp.changes_frame (op : VfsOp) (hframe : Frame v v') :
    op.changes M links v' = op.changes M links v := by
  unfold VfsOp.changes changed
  rw [hframe.backend, hframe.files]

theorem SysOp.unseen_iff {call : SysOp} {c : Change} (hwf : v.backend.WF)
    (hvalid : ∀ p, call.looksUp = some p → ValidPath p) :
    call.Unseen M v f c ↔ Okfs.Unseen M (call.enter M v) f c := by
  have hframe := (SysOp.enter_caches (M := M) (v := v) hvalid).frame
  unfold SysOp.Unseen Okfs.Unseen
  rw [hframe.backend]
  refine or_congr_right (forall_congr' fun p => imp_congr_right fun hp => ?_)
  exact (SysOp.enter_uncached_iff hvalid (hwf.valid p f hp) ⟨f, hp⟩).symm

/-- The path is looked up, and then the filesystem is called. -/
theorem attrCall_step {call : SysOp} (h : AttrsOk M v) (hcall : AttrCall v call)
    (hstep : sysStep M links v call = some v') :
    (call.changes M links v = none ∧ AttrsOk M v') ∨
      ∃ f c, call.changes M links v = some (f, c) ∧ AttrsOk M (call.enter M v) ∧
        (call.Unseen M v f c ↔ Okfs.Unseen M (call.enter M v) f c) ∧
        v' = { call.enter M v with backend := (call.enter M v).backend.changeFile f c.apply } := by
  cases call with
  | settle f st => exact hcall.elim
  | call op named =>
    have hcaches := SysOp.enter_caches (M := M) (v := v) hcall.1
    have hentered := h.caches hcaches
    have hchanges : (SysOp.call op named).changes M links v =
        op.changes M links ((SysOp.call op named).enter M v) :=
      (op.changes_frame hcaches.frame).symm
    rw [hchanges]
    rcases attrOp_step hentered (hcall.2.frame hcaches.frame) hstep with hquiet | ⟨f, c, hf, hv'⟩
    · exact .inl hquiet
    · exact .inr ⟨f, c, hf, hentered, SysOp.unseen_iff h.base.wf hcall.1, hv'⟩

end Okfs
