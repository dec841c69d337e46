import Okfs.Vfs.Descriptors

/-!
# OKFS — all calls on a mount

The calls that change the attributes of a file, and with the calls on the namespace
and those on descriptors one step relation over everything that is done to a mounted
filesystem. Every claim about the reachable states of a mount is about runs of it.

The slots behind chmod, chown and utime follow a symbolic link at the end of the path,
`lchown` too: `localfs_lchown` calls `chown`, and the servers of shfs have no other one.
What a link leads to is the environment's, like the answers of the backend. shfs sets
the owner and the group of a file in two commands; each of them is a call here.
-/

namespace Okfs

open Components FileTree

-- ---------------------------------------------------------------------
-- Changes of attributes
-- ---------------------------------------------------------------------

/-- What a truncation makes of a file's attributes. -/
def resize (length : Nat) (st : Stat) : Stat := { st with stSize := length }

/-- The file that a path leads to when a symbolic link at its end is followed; `links`
says where links lead, and never to another link. -/
def Backend.leads (b : Backend) (links : FileId → Option FileId) (f : FileId) : Option FileId :=
  if (b.attr f).stType = .lnk then (links f).filter fun t => (b.attr t).stType ≠ .lnk else some f

/-- The attributes of the file that was found change, unless the call is refused. -/
def setFound (b : Backend) (found : Option FileId) (g : Stat → Stat) (ans : Ret) :
    Backend × Ret :=
  match found, ans with
  | none, _ => (b, .error .ENOENT)
  | some _, .error e => (b, .error e)
  | some f, .ok () => (b.changeFile f g, .ok ())

/-- The file that a slot finds at a relative path. -/
def Backend.slotFile (b : Backend) (links : FileId → Option FileId) (relPath : CStr) :
    Option FileId :=
  (b.tree (components slash relPath)).bind (b.leads links)

section Source

variable (links : FileId → Option FileId) (v : Vfs)

/-- The handlers call the slot and return what it returns; no cache is told. -/
def changeAttr (relPath : CStr) (c : Change) (ans : Ret) : Vfs × Ret :=
  let (b, ret) := setFound v.backend (v.backend.slotFile links relPath) c.apply ans
  ({ v with backend := b }, ret)

def okfsUtime (relPath1 : CStr) (atime mtime ctime : Nat) (ans : Ret) : Vfs × Ret :=
  changeAttr links v relPath1 (.utime atime mtime ctime) ans

def okfsChmod (relPath1 : CStr) (mode ctime : Nat) (ans : Ret) : Vfs × Ret :=
  changeAttr links v relPath1 (.chmod mode ctime) ans

def okfsDochown (relPath1 : CStr) (owner group perm ctime : Nat) (ans : Ret) : Vfs × Ret :=
  changeAttr links v relPath1 (.chown owner group perm ctime) ans

/-- `okfs_fchmod` and `okfs_fchown` of a descriptor. -/
def changeFd (fd : FileRef) (c : Change) (ans : Ret) : Option (Vfs × Ret) :=
  (v.files fd).map fun filep => changeAttr links v filep.relPath c ans

end Source

-- ---------------------------------------------------------------------
-- Runs
-- ---------------------------------------------------------------------

/-- One call on the mount. -/
inductive VfsOp
  | ns (op : NsOp)
  | fstat (fd : FileRef)
  | read (fd : FileRef) (count : Nat) (ans : Except Errno Nat)
  | write (fd : FileRef) (count : Nat) (ans : Except Errno Nat)
  | lseek (fd : FileRef) (offset origin : Int) (ans : Ret)
  | ftruncate (fd : FileRef) (length : Nat) (ans : Ret)
  | truncate (p : Path) (length : Nat) (ans : Ret)
  | utime (p : Path) (atime mtime ctime : Nat) (ans : Ret)
  | chmod (p : Path) (mode ctime : Nat) (ans : Ret)
  | chown (p : Path) (owner group perm ctime : Nat) (ans : Ret)
  | fchmod (fd : FileRef) (mode ctime : Nat) (ans : Ret)
  | fchown (fd : FileRef) (owner group perm ctime : Nat) (ans : Ret)

def vfsStep (M : Mount) (links : FileId → Option FileId) (v : Vfs) : VfsOp → Option Vfs
  | .ns op => nsStep M v op
  | .fstat fd => (okfsFstat M v fd).map Prod.fst
  | .read fd count ans => (okfsRead v fd count ans).map Prod.fst
  | .write fd count ans => (okfsWrite M v fd count ans).map Prod.fst
  | .lseek fd offset origin ans => (okfsLseek M v fd offset origin ans).map Prod.fst
  | .ftruncate fd length ans => (okfsFtruncate v fd length ans).map Prod.fst
  | .truncate p length ans => some (okfsTruncate M v (M.full p) (M.rel p) length ans).1
  | .utime p atime mtime ctime ans => some (okfsUtime links v (M.rel p) atime mtime ctime ans).1
  | .chmod p mode ctime ans => some (okfsChmod links v (M.rel p) mode ctime ans).1
  | .chown p owner group perm ctime ans =>
    some (okfsDochown links v (M.rel p) owner group perm ctime ans).1
  | .fchmod fd mode ctime ans => (changeFd links v fd (.chmod mode ctime) ans).map Prod.fst
  | .fchown fd owner group perm ctime ans =>
    (changeFd links v fd (.chown owner group perm ctime) ans).map Prod.fst

/-- The answers of a POSIX backend: nothing but the namespace has rules. -/
def VfsAdmissible (M : Mount) (v : Vfs) : VfsOp → Prop
  | .ns op => Admissible M v op
  | _ => True

variable {M : Mount} {links : FileId → Option FileId} {v v' : Vfs} {b : Backend} {f t : FileId}
  {fd : FileRef} {p : Path}

-- ---------------------------------------------------------------------
-- Following links
-- ---------------------------------------------------------------------

/-- What a link leads to is no link. -/
theorem Backend.leads_leads (h : b.leads links f = some t) : b.leads links t = some t := by
  have hlnk : (b.attr t).stType ≠ .lnk := by
    unfold Backend.leads at h
    split at h
    · simpa using (Option.filter_eq_some_iff.mp h).2
    · next hf => rwa [← Option.some.inj h]
  rw [Backend.leads, if_neg hlnk]

theorem Backend.leads_of_not_link (h : (b.attr f).stType ≠ .lnk) : b.leads links f = some f := by
  rw [Backend.leads, if_neg h]

/-- A link leads to another file. -/
theorem Backend.leads_ne (hlnk : (b.attr f).stType = .lnk) (h : b.leads links f = some t) :
    t ≠ f := by
  rintro rfl
  rw [Backend.leads, if_pos hlnk] at h
  simpa [hlnk] using (Option.filter_eq_some_iff.mp h).2

/-- The slots that change attributes by path are of this kind. -/
theorem epSetAttr_eq_setFound (b : Backend) (path : CStr) (g : Stat → Stat) (ans : Ret) :
    epSetAttr b path g ans = setFound b (b.tree (components slash path)) g ans := by
  unfold epSetAttr setFound Backend.setAttr Backend.changeFile
  cases b.tree (components slash path) with
  | none => rfl
  | some f => cases ans <;> rfl

/-- Where the path does not end in a link, the slot finds what is there. -/
theorem Backend.slotFile_of_not_link {relPath : CStr}
    (hlnk : ∀ f, b.tree (components slash relPath) = some f → (b.attr f).stType ≠ .lnk) :
    b.slotFile links relPath = b.tree (components slash relPath) := by
  unfold Backend.slotFile
  cases htree : b.tree (components slash relPath) with
  | none => rfl
  | some f => exact Backend.leads_of_not_link (hlnk f htree)

/-- `okfs_fchmod` where the descriptor's path does not end in a link, -/
theorem okfsFchmod_eq {filep : OkfsFile} (hfile : v.files fd = some filep) {mode ctime : Nat} {ans : Ret}
    (hlnk : ∀ f, v.backend.tree (components slash filep.relPath) = some f →
      (v.backend.attr f).stType ≠ .lnk) :
    okfsFchmod v fd mode ctime ans = changeFd links v fd (.chmod mode ctime) ans := by
  rw [changeFd, okfsFchmod, hfile, Option.map_some, changeAttr, Backend.slotFile_of_not_link hlnk]
  simp only [Option.bind_eq_bind, Option.bind_some, epChmod, epSetAttr_eq_setFound]

/-- and `okfs_fchown`. -/
theorem okfsFchown_eq {filep : OkfsFile} (hfile : v.files fd = some filep)
    {owner group perm ctime : Nat} {ans : Ret}
    (hlnk : ∀ f, v.backend.tree (components slash filep.relPath) = some f →
      (v.backend.attr f).stType ≠ .lnk) :
    okfsFchown v fd owner group perm ctime ans =
      changeFd links v fd (.chown owner group perm ctime) ans := by
  rw [changeFd, okfsFchown, hfile, Option.map_some, changeAttr, Backend.slotFile_of_not_link hlnk]
  simp only [Option.bind_eq_bind, Option.bind_some, epLchown, epSetAttr_eq_setFound]

-- ---------------------------------------------------------------------
-- What all calls keep
-- ---------------------------------------------------------------------

/-- A change that leaves a file what and where it is. -/
def Keeps (g : Stat → Stat) : Prop :=
  ∀ st, (g st).stDev = st.stDev ∧ (g st).stIno = st.stIno ∧ (g st).stType = st.stType

theorem Change.keeps (c : Change) : Keeps c.apply := by
  intro st
  cases c <;> exact ⟨rfl, rfl, rfl⟩

theorem resize_keeps (n : Nat) : Keeps (resize n) := fun _ => ⟨rfl, rfl, rfl⟩

theorem Backend.attr_changeFile_keeps {g : Stat → Stat} (hg : Keeps g) (b : Backend) (f f' : FileId) :
    ((b.changeFile f g).attr f').stDev = (b.attr f').stDev ∧
      ((b.changeFile f g).attr f').stIno = (b.attr f').stIno ∧
      ((b.changeFile f g).attr f').stType = (b.attr f').stType := by
  by_cases hf : f' = f
  · rw [hf, Backend.attr_changeFile_self]
    exact hg (b.attr f)
  · rw [Backend.attr_changeFile_of_ne g hf]
    exact ⟨rfl, rfl, rfl⟩

/-- The tree stays one when a file's attributes change. -/
theorem Backend.WF.changeFile {g : Stat → Stat} (hg : Keeps g) (h : b.WF) (f : FileId) :
    (b.changeFile f g).WF := by
  have hdir : (b.changeFile f g).IsDir = b.IsDir := by
    funext f'
    rw [Backend.IsDir, Backend.IsDir, (Backend.attr_changeFile_keeps hg b f f').2.2]
  refine ⟨?_, h.valid, ?_, ?_, h.fresh, ?_⟩
  · rw [hdir]
    exact h.root
  · rw [hdir]
    exact h.closed
  · rw [hdir]
    exact h.dirsOnce
  · intro p q f₁ f₂ h₁ h₂
    rw [(Backend.attr_changeFile_keeps hg b f f₁).1, (Backend.attr_changeFile_keeps hg b f f₂).1,
      (Backend.attr_changeFile_keeps hg b f f₁).2.1, (Backend.attr_changeFile_keeps hg b f f₂).2.1]
    exact h.inoUnique p q f₁ f₂ h₁ h₂

/-- A call changes no file, or the one that it found. -/
theorem setFound_eq (b : Backend) (found : Option FileId) (g : Stat → Stat) (ans : Ret) :
    (∃ e, setFound b found g ans = (b, .error e)) ∨
      ∃ f, found = some f ∧ ans = .ok () ∧ setFound b found g ans = (b.changeFile f g, .ok ()) := by
  cases found with
  | none => exact .inl ⟨.ENOENT, rfl⟩
  | some f =>
    cases ans with
    | error e => exact .inl ⟨e, rfl⟩
    | ok => exact .inr ⟨f, rfl, rfl, rfl⟩

theorem Base.changeAttr (h : Base M v) (relPath : CStr) (c : Change) (ans : Ret) :
    Base M (changeAttr links v relPath c ans).1 := by
  rcases setFound_eq v.backend (v.backend.slotFile links relPath) c.apply ans with
    ⟨e, he⟩ | ⟨f, -, -, hf⟩
  · rw [Okfs.changeAttr, he]
    exact h
  · rw [Okfs.changeAttr, hf]
    exact h.backend (h.wf.changeFile c.keeps f)

theorem Base.changeFd {c : Change} {ans : Ret} (h : Base M v)
    (hstep : (changeFd links v fd c ans).map Prod.fst = some v') : Base M v' := by
  obtain ⟨r, hr, rfl⟩ := Option.map_eq_some_iff.mp hstep
  obtain ⟨filep, -, rfl⟩ := Option.map_eq_some_iff.mp hr
  exact h.changeAttr filep.relPath c ans

/-- A descriptor moves. -/
theorem Base.setFile {filep filep' : OkfsFile} (h : Base M v) (hfile : v.files fd = some filep)
    (hpath : filep'.path = filep.path) (hrel : filep'.relPath = filep.relPath) :
    Base M (v.setFile fd filep') := by
  refine ⟨h.refs.congr (fun _ _ hm => hm) rfl rfl rfl rfl, h.wf, fun fd' file hf => ?_,
    h.openOk.pending⟩
  by_cases hfd : fd' = fd
  · rw [hfd, Vfs.setFile_self, Option.some.injEq] at hf
    rw [hfd, ← hf, hpath, hrel]
    exact h.openOk.files fd filep hfile
  · rw [Vfs.setFile_of_ne hfd] at hf
    exact h.openOk.files fd' file hf

/-- A record is written over by one whose number shfs has given out. -/
theorem Base.setInode_ino (h : Base M v) {r : InodeRef} {st : Stat}
    (hino : M.sb.entry = .shfs → st.stIno < v.nextInode) : Base M (v.setInode r st) := by
  refine ⟨⟨h.refs.ipath, h.refs.inr, fun hs s hlt => ?_⟩, h.wf, h.openOk.files, h.openOk.pending⟩
  by_cases hsr : s = r
  · rw [hsr, Vfs.setInode_self]
    exact hino hs
  · rw [Vfs.setInode_of_ne hsr]
    exact h.refs.ino hs s hlt

/-- On shfs a file is reported with a number that was given out, for it or just now. -/
theorem okfsDolstat_ino (hrefs : RefsOk M v) (hs : M.sb.entry = .shfs) {st : Stat}
    (hp : ValidPath p) (h : okfsDolstat M v (M.full p) (M.rel p) = (v', .ok st)) :
    st.stIno < v'.nextInode := by
  unfold okfsDolstat at h
  cases hcached : cacheFindInode M v (M.full p) with
  | some r =>
    rw [hcached] at h
    obtain ⟨rfl, hst⟩ := Prod.mk.inj h
    rw [← Except.ok.inj hst]
    exact hrefs.ino hs r (hrefs.find_lt hcached)
  | none =>
    rw [hcached] at h
    simp only at h
    cases htree : v.backend.tree p with
    | none =>
      rw [epLstat, Mount.components_rel hp, Backend.lstat, htree] at h
      cases (Prod.mk.inj h).2
    | some f =>
      have hep : epLstat M v (M.rel p) =
          ((cacheAddInode M { v with nextInode := v.nextInode + 1 } (M.full p)
              { shfsStat (v.backend.stat f) with stIno := v.nextInode }).1,
            .ok { shfsStat (v.backend.stat f) with stIno := v.nextInode }) := by
        have hkey := Mount.cachePath_lstat (M := M) hp
        rw [epLstat, Mount.components_rel hp, Backend.lstat, htree, hs]
        simp only [addToCache_of_none (hkey ▸ hcached), hkey]
      rw [hep] at h
      simp only [cacheFindInode_cacheAddInode_self] at h
      obtain ⟨rfl, hst⟩ := Prod.mk.inj h
      rw [← Except.ok.inj hst]
      have hnext : (cacheAddInode M { v with nextInode := v.nextInode + 1 } (M.full p)
          { shfsStat (v.backend.stat f) with stIno := v.nextInode }).1.nextInode =
            v.nextInode + 1 := by
        unfold cacheAddInode
        cases sameInoFind { v with nextInode := v.nextInode + 1 }
          (shfsStat (v.backend.stat f)).stDev v.nextInode <;> rfl
      rw [hnext]
      exact Nat.lt_succ_self _

theorem Base.seekEnd {filep : OkfsFile} {size : Nat} (h : Base M v)
    (hopen : IsOpenPath M filep.path filep.relPath)
    (hseek : seekEnd M v filep = some (v', size)) : Base M v' ∧ v'.files = v.files := by
  obtain ⟨p, hp, hpath, -⟩ := hopen
  obtain ⟨ino, -, hseek⟩ := Option.bind_eq_some_iff.mp hseek
  rw [hpath, arglstat_full hp] at hseek
  have hcaches := arglstat_caches (M := M) (v := v) hp
  rw [arglstat_full hp] at hcaches
  rcases hstat : okfsDolstat M v (M.full p) (M.rel p) with ⟨v₁, _ | buf⟩
  · rw [hstat] at hseek hcaches
    obtain ⟨rfl, -⟩ := Prod.mk.inj (Option.some.inj hseek)
    exact ⟨h.caches hcaches, hcaches.frame.files⟩
  · rw [hstat] at hseek hcaches
    obtain ⟨rfl, -⟩ := Prod.mk.inj (Option.some.inj hseek)
    exact ⟨(h.caches hcaches).setInode_ino fun hs => okfsDolstat_ino h.refs hs hp hstat,
      hcaches.frame.files⟩

theorem Base.lseek {offset origin : Int} {ans : Ret} {ret : Except Errno Int} (h : Base M v)
    (hstep : okfsLseek M v fd offset origin ans = some (v', ret)) : Base M v' := by
  obtain ⟨filep, fPos, pos, hfile, rfl | ⟨v₁, size, hseek, rfl⟩⟩ := okfsLseek_eq_some hstep
  · exact h.setFile hfile rfl rfl
  · obtain ⟨hbase, hfiles⟩ := h.seekEnd (h.openOk.files fd filep hfile).2 hseek
    have hfile₁ : v₁.files fd = some filep := by rw [hfiles, hfile]
    exact hbase.setFile hfile₁ rfl rfl

theorem Base.read {count : Nat} {ans : Except Errno Nat} {ret : Int} (h : Base M v)
    (hstep : okfsRead v fd count ans = some (v', ret)) : Base M v' := by
  rcases okfsRead_eq_some hstep with rfl | ⟨filep, fPos, pos, hfile, rfl⟩
  · exact h
  · exact h.setFile hfile rfl rfl

/-- `okfs_write` changes the length of a file and the size of a record, and moves the
descriptor. -/
theorem okfsWrite_eq_some {count : Nat} {ans : Except Errno Nat} {ret : Int}
    (hstep : okfsWrite M v fd count ans = some (v', ret)) :
    v' = v ∨ ∃ filep f n fPos pos, v.files fd = some filep ∧
      (v' = ({ v with backend := v.backend.changeFile f (resize n) } : Vfs).setFile fd
          { filep with fPos := fPos, offset := pos } ∨
        ∃ ino size, filep.ino = some ino ∧
          v' = (({ v with backend := v.backend.changeFile f (resize n) } : Vfs).setInode ino
            { v.inode ino with stSize := size }).setFile fd
              { filep with fPos := fPos, offset := pos }) := by
  obtain ⟨filep, hfile, hstep⟩ := Option.bind_eq_some_iff.mp hstep
  split at hstep
  · exact .inl (Prod.mk.inj (Option.some.inj hstep)).1.symm
  · cases ans with
    | error e => exact .inl (Prod.mk.inj (Option.some.inj hstep)).1.symm
    | ok n =>
      simp only [epWrite] at hstep
      cases hat : epWriteAt M v.backend filep with
      | none =>
        rw [hat] at hstep
        exact .inl (Prod.mk.inj (Option.some.inj hstep)).1.symm
      | some target =>
        obtain ⟨f, pos⟩ := target
        rw [hat] at hstep
        simp only at hstep
        have hsize : v.backend.changeFile f (fun st => { st with stSize := max st.stSize (pos + n) }) =
            v.backend.changeFile f (resize (max (v.backend.attr f).stSize (pos + n))) := rfl
        rw [hsize] at hstep
        refine .inr ⟨filep, f, max (v.backend.attr f).stSize (pos + n), ?_⟩
        split at hstep
        · obtain ⟨ino, hino, hstep⟩ := Option.bind_eq_some_iff.mp hstep
          exact ⟨filep.fPos + n, pos + n, hfile, .inr ⟨ino, _, hino,
            (Prod.mk.inj (Option.some.inj hstep)).1.symm⟩⟩
        · exact ⟨filep.fPos, pos + n, hfile, .inl (Prod.mk.inj (Option.some.inj hstep)).1.symm⟩

/-- Records keep their numbers when their size changes. -/
theorem Base.setSize (h : Base M v) (ino : InodeRef) (size : Nat) :
    Base M (v.setInode ino { v.inode ino with stSize := size }) := by
  refine ⟨⟨h.refs.ipath, h.refs.inr, fun hs s hlt => ?_⟩, h.wf, h.openOk.files, h.openOk.pending⟩
  by_cases hsr : s = ino
  · rw [hsr, Vfs.setInode_self]
    exact h.refs.ino hs ino (hsr ▸ hlt)
  · rw [Vfs.setInode_of_ne hsr]
    exact h.refs.ino hs s hlt

theorem Base.changeFile (h : Base M v) {g : Stat → Stat} (hg : Keeps g) (f : FileId) :
    Base M { v with backend := v.backend.changeFile f g } :=
  h.backend (h.wf.changeFile hg f)

theorem Base.write {count : Nat} {ans : Except Errno Nat} {ret : Int} (h : Base M v)
    (hstep : okfsWrite M v fd count ans = some (v', ret)) : Base M v' := by
  rcases okfsWrite_eq_some hstep with
    rfl | ⟨filep, f, n, fPos, pos, hfile, rfl | ⟨ino, size, -, rfl⟩⟩
  · exact h
  · exact Base.setFile (h.changeFile (resize_keeps n) f) hfile rfl rfl
  · exact Base.setFile ((h.changeFile (resize_keeps n) f).setSize ino size) hfile rfl rfl

/-- A truncation changes one file's length or nothing. -/
theorem epTruncate_eq (b : Backend) (path : CStr) (length : Nat) (ans : Ret) :
    (∃ e, epTruncate b path length ans = (b, .error e)) ∨
      ∃ f, b.tree (components slash path) = some f ∧
        epTruncate b path length ans = (b.changeFile f (resize length), .ok ()) := by
  rw [epTruncate, epSetAttr_eq_setFound]
  rcases setFound_eq b (b.tree (components slash path)) (resize length) ans with
    ⟨e, he⟩ | ⟨f, hf, -, hset⟩
  · exact .inl ⟨e, he⟩
  · exact .inr ⟨f, hf, hset⟩

theorem Base.ftruncate {length : Nat} {ans ret : Ret} (h : Base M v)
    (hstep : okfsFtruncate v fd length ans = some (v', ret)) : Base M v' := by
  obtain ⟨filep, hfile, hstep⟩ := Option.bind_eq_some_iff.mp hstep
  rcases epTruncate_eq v.backend filep.relPath length ans with ⟨e, he⟩ | ⟨f, -, hf⟩
  · rw [he] at hstep
    rw [← (Prod.mk.inj (Option.some.inj hstep)).1]
    exact h
  · rw [hf] at hstep
    obtain ⟨ino, -, hstep⟩ := Option.bind_eq_some_iff.mp hstep
    rw [← (Prod.mk.inj (Option.some.inj hstep)).1]
    exact (h.changeFile (resize_keeps length) f).setSize ino 0

theorem changeFileSize_touched (path : CStr) (size : Nat) :
    Touched v (changeFileSize M v path size) := by
  unfold changeFileSize
  cases cacheFindInode M v path with
  | none => exact .refl v
  | some ino =>
    refine ⟨rfl, rfl, rfl, rfl, rfl, rfl, rfl, rfl, rfl, fun _ => .refl _, fun r => ?_⟩
    by_cases hr : r = ino
    · exact ⟨_, _, _, by rw [hr]; exact Function.update_self ..⟩
    · exact ⟨_, _, _, Function.update_of_ne hr ..⟩

theorem Base.truncate (h : Base M v) (canonPath relPath : CStr) (length : Nat) (ans : Ret) :
    Base M (okfsTruncate M v canonPath relPath length ans).1 := by
  rcases epTruncate_eq v.backend relPath length ans with ⟨e, he⟩ | ⟨f, -, hf⟩
  · rw [okfsTruncate, he]
    exact h
  · rw [okfsTruncate, hf]
    exact (h.changeFile (resize_keeps length) f).touched (changeFileSize_touched ..)

/-- Looking up the path of an open file is looking up a path. -/
theorem okfsFstat_caches {st : Except Errno Stat} (h : Base M v)
    (hstep : okfsFstat M v fd = some (v', st)) : Caches M v v' := by
  obtain ⟨filep, hfile, heq⟩ := Option.map_eq_some_iff.mp hstep
  obtain ⟨-, p, hp, hpath, hrel⟩ := h.openOk.files fd filep hfile
  have hcaches := arglstat_caches (M := M) (v := v) hp
  rw [arglstat_full hp, ← hpath, ← hrel, heq] at hcaches
  exact hcaches

/-- **Every call keeps the tree a tree and the references in order.** -/
theorem Base.vfsStep {op : VfsOp} (h : Base M v) (hadm : VfsAdmissible M v op)
    (hstep : vfsStep M links v op = some v') : Base M v' := by
  cases op with
  | ns op => exact ((nsStep_spec h hadm).1 v' hstep).base h hadm
  | fstat fd =>
    obtain ⟨⟨_, st⟩, hrun, rfl⟩ := Option.map_eq_some_iff.mp hstep
    exact h.caches (okfsFstat_caches h hrun)
  | read fd count ans =>
    obtain ⟨⟨_, ret⟩, hrun, rfl⟩ := Option.map_eq_some_iff.mp hstep
    exact h.read hrun
  | write fd count ans =>
    obtain ⟨⟨_, ret⟩, hrun, rfl⟩ := Option.map_eq_some_iff.mp hstep
    exact h.write hrun
  | lseek fd offset origin ans =>
    obtain ⟨⟨_, ret⟩, hrun, rfl⟩ := Option.map_eq_some_iff.mp hstep
    exact h.lseek hrun
  | ftruncate fd length ans =>
    obtain ⟨⟨_, ret⟩, hrun, rfl⟩ := Option.map_eq_some_iff.mp hstep
    exact h.ftruncate hrun
  | truncate p length ans =>
    rw [← Option.some.inj hstep]
    exact h.truncate _ _ length ans
  | utime p atime mtime ctime ans =>
    rw [← Option.some.inj hstep]
    exact h.changeAttr _ _ ans
  | chmod p mode ctime ans =>
    rw [← Option.some.inj hstep]
    exact h.changeAttr _ _ ans
  | chown p owner group perm ctime ans =>
    rw [← Option.some.inj hstep]
    exact h.changeAttr _ _ ans
  | fchmod fd mode ctime ans => exact h.changeFd hstep
  | fchown fd owner group perm ctime ans => exact h.changeFd hstep

/-- It holds in every state that a run reaches. -/
theorem Base.of_run {ops : List VfsOp} (hwf : b.WF)
    (hal : Runs.Along (Okfs.vfsStep M links) (VfsAdmissible M) (Vfs.mounted b) ops)
    (hrun : Runs.exec (Okfs.vfsStep M links) (Vfs.mounted b) ops = some v) : Base M v :=
  Runs.inv_of_exec (fun _ _ _ h hadm hstep => h.vfsStep hadm hstep) (Base.mounted hwf) hal hrun

-- ---------------------------------------------------------------------
-- What the calls on the namespace do to descriptors
-- ---------------------------------------------------------------------

/-- The two states have the same open files, and the same opens under way. -/
structure SameOpen (v v' : Vfs) : Prop where
  files : v'.files = v.files
  nextFile : v'.nextFile = v.nextFile
  pending : v'.pending = v.pending

theorem SameOpen.refl (v : Vfs) : SameOpen v v := ⟨rfl, rfl, rfl⟩

theorem SameOpen.trans {v'' : Vfs} (h : SameOpen v v') (h' : SameOpen v' v'') : SameOpen v v'' :=
  ⟨h'.files.trans h.files, h'.nextFile.trans h.nextFile, h'.pending.trans h.pending⟩

theorem Frame.sameOpen (h : Frame v v') : SameOpen v v' := ⟨h.files, h.nextFile, h.pending⟩

theorem Touched.sameOpen (h : Touched v v') : SameOpen v v' := ⟨h.files, h.nextFile, h.pending⟩

theorem cacheAddEntry_sameOpen {path : CStr} (h : cacheAddEntry M v path = some v') :
    SameOpen v v' := by
  obtain ⟨⟨newpath, name⟩, -, h⟩ := Option.bind_eq_some_iff.mp h
  simp only at h
  split at h
  · rw [← Option.some.inj h]
    exact .refl v
  · have hframe := (arglstat_frame (M := M) (v := v) path).sameOpen
    rcases hstat : arglstat M v path with ⟨v₁, _ | buf⟩
    · rw [hstat] at h hframe
      rw [← Option.some.inj h]
      exact hframe
    · rw [hstat] at h hframe
      rw [← Option.some.inj h]
      exact hframe.trans (addDirent_touched newpath name buf).sameOpen

theorem cacheRemoveEntry_sameOpen {path : CStr} (h : cacheRemoveEntry M v path = some v') :
    SameOpen v v' := by
  obtain ⟨v₁, h₁, h⟩ := Option.bind_eq_some_iff.mp h
  obtain ⟨-, rfl⟩ := pathRemove_eq_some.mp h₁
  obtain ⟨⟨newpath, name⟩, -, h⟩ := Option.bind_eq_some_iff.mp h
  obtain ⟨-, rfl⟩ := dropDirent_eq_some.mp h
  exact ⟨rfl, rfl, rfl⟩

theorem addingCall_sameOpen {path : CStr} {b : Backend} {ret : Ret}
    (h : (addingCall M v path b ret).map Prod.fst = some v') : SameOpen v v' := by
  obtain ⟨⟨_, r⟩, hrun, rfl⟩ := Option.map_eq_some_iff.mp h
  cases ret with
  | error e =>
    rw [← (Prod.mk.inj (Option.some.inj hrun)).1]
    exact .refl v
  | ok =>
    obtain ⟨v₁, h₁, heq⟩ := Option.map_eq_some_iff.mp hrun
    have hadd := cacheAddEntry_sameOpen h₁
    rw [← (Prod.mk.inj heq).1]
    exact ⟨hadd.files, hadd.nextFile, hadd.pending⟩

theorem removingCall_sameOpen {path : CStr} {b : Backend} {ret : Ret}
    (h : (removingCall M v path b ret).map Prod.fst = some v') : SameOpen v v' := by
  obtain ⟨⟨_, r⟩, hrun, rfl⟩ := Option.map_eq_some_iff.mp h
  cases ret with
  | error e =>
    rw [← (Prod.mk.inj (Option.some.inj hrun)).1]
    exact .refl v
  | ok =>
    obtain ⟨v₁, h₁, heq⟩ := Option.map_eq_some_iff.mp hrun
    have hremove := cacheRemoveEntry_sameOpen h₁
    rw [← (Prod.mk.inj heq).1]
    exact ⟨hremove.files, hremove.nextFile, hremove.pending⟩

theorem okfsRename_sameOpen {path₁ rel₁ path₂ rel₂ : CStr} {ret : Ret}
    (h : (okfsRename M v path₁ rel₁ path₂ rel₂ ret).map Prod.fst = some v') : SameOpen v v' := by
  obtain ⟨⟨_, r⟩, hrun, rfl⟩ := Option.map_eq_some_iff.mp h
  cases ret with
  | error e =>
    rw [← (Prod.mk.inj (Option.some.inj hrun)).1]
    exact .refl v
  | ok =>
    obtain ⟨v₁, h₁, hrest⟩ := Option.bind_eq_some_iff.mp hrun
    obtain ⟨v₂, h₂, heq⟩ := Option.bind_eq_some_iff.mp hrest
    have hremove := cacheRemoveEntry_sameOpen h₁
    have hadd := hremove.trans (cacheAddEntry_sameOpen h₂)
    rw [← (Prod.mk.inj (Option.some.inj heq)).1]
    exact ⟨hadd.files, hadd.nextFile, hadd.pending⟩

theorem lstatAdd_sameOpen (path relPath : CStr) : SameOpen v (lstatAdd M v path relPath).1 := by
  have hframe := (epLstat_frame (M := M) (v := v) relPath).sameOpen
  unfold lstatAdd
  rcases hstat : epLstat M v relPath with ⟨v₁, _ | buf⟩
  · rw [hstat] at hframe
    exact hframe
  · rw [hstat] at hframe
    exact hframe.trans (cacheAddInode_frame v₁.nextInode path buf).sameOpen

/-- The flags that the filesystem's `open` is given: `O_CREAT` only for a file that was not
there, and never `O_TRUNC`. -/
def sentFlags (flags : UInt32) (fexist : Bool) : UInt32 :=
  let flags := if flags &&& O_CREAT ≠ 0 ∧ fexist then flags &&& ~~~O_CREAT else flags
  if flags &&& O_TRUNC ≠ 0 then flags &&& ~~~O_TRUNC else flags

/-- `fexist` of `okfs_do_open`. -/
def fileExists (M : Mount) (v : Vfs) (canonPath relPath : CStr) : Bool :=
  (cacheFindInode M v canonPath).isSome || (lstatAdd M v canonPath relPath).2.isSome

/-- The open of a file is under way. -/
def OpenUnderWay (v v' : Vfs) (path relPath : CStr) (flags : UInt32) : Prop :=
  ∃ v₁ file, SameOpen v v₁ ∧
    v' = { v₁ with pending := v₁.pending ++ [⟨path, relPath, file, flags &&& O_APPEND ≠ 0⟩] }

theorem openDone_underWay {path relPath : CStr} {flags : UInt32} {ip : Option InodeRef} {file : FileId}
    (h : openDone M v path relPath flags ip file = some v') :
    OpenUnderWay v v' path relPath flags := by
  cases ip with
  | some r =>
    simp only [openDone, Option.isNone_some, Bool.false_eq_true, false_and, if_false,
      Option.bind_eq_bind, Option.bind_some, Option.some.injEq] at h
    exact ⟨v, file, .refl v, h.symm⟩
  | none =>
    have hadd := lstatAdd_sameOpen (M := M) (v := v) path relPath
    rcases hl : lstatAdd M v path relPath with ⟨w, _ | r⟩
    · simp only [openDone, hl, Option.bind_eq_bind, Option.bind_none, reduceCtorEq] at h
    · rw [hl] at hadd
      simp only [openDone, hl, Option.isNone_none, true_and, Option.bind_eq_bind,
        Option.bind_some] at h
      split at h
      · obtain ⟨v₂, h₂, h⟩ := Option.bind_eq_some_iff.mp h
        exact ⟨v₂, file, hadd.trans (cacheAddEntry_sameOpen h₂), (Option.some.inj h).symm⟩
      · exact ⟨w, file, hadd, (Option.some.inj h).symm⟩

theorem OpenUnderWay.of_same {w : Vfs} {path relPath : CStr} {flags : UInt32} (hsame : SameOpen v w)
    (h : OpenUnderWay w v' path relPath flags) : OpenUnderWay v v' path relPath flags := by
  obtain ⟨v₁, file, hsame', hpending⟩ := h
  exact ⟨v₁, file, hsame.trans hsame', hpending⟩

theorem openWith_underWay {path relPath : CStr} {flags : UInt32} {trunc : Ret}
    {ans : Except Errno Stat} {ip : Option InodeRef} {ret : Ret}
    (h : openWith M v path relPath flags trunc ans ip = some (v', ret)) :
    SameOpen v v' ∨ OpenUnderWay v v' path relPath (sentFlags flags ip.isSome) := by
  have hbackend : ∀ {w : Vfs} (b : Backend), SameOpen v w → SameOpen v { w with backend := b } :=
    fun b hw => ⟨hw.files, hw.nextFile, hw.pending⟩
  have htrunc : ∀ (c : Prop) (inst : Decidable c) (b : Backend),
      SameOpen v (@ite _ c inst { v with backend := b } v) := by
    intro c inst b
    split
    · exact hbackend b (.refl v)
    · exact .refl v
  unfold openWith at h
  simp only at h
  split at h
  · rw [← (Prod.mk.inj (Option.some.inj h)).1]
    exact .inl (.refl v)
  · split at h
    · rw [← (Prod.mk.inj (Option.some.inj h)).1]
      exact .inl (htrunc _ _ _)
    · obtain ⟨v₁, h₁, heq⟩ := Option.map_eq_some_iff.mp h
      rw [← (Prod.mk.inj heq).1]
      exact .inr ((openDone_underWay h₁).of_same (hbackend _ (htrunc _ _ _)))

/-- An open is refused, or it is under way, and the filesystem was given these flags. -/
theorem okfsDoOpen_underWay {path relPath : CStr} {flags : UInt32} {trunc : Ret}
    {ans : Except Errno Stat} {ret : Ret}
    (h : okfsDoOpen M v path relPath flags trunc ans = some (v', ret)) :
    SameOpen v v' ∨
      OpenUnderWay v v' path relPath (sentFlags flags (fileExists M v path relPath)) := by
  cases hcached : cacheFindInode M v path with
  | some ip =>
    have hexist : fileExists M v path relPath = (some ip).isSome := by
      rw [fileExists, hcached, Option.isSome_some, Bool.true_or]
    simp only [okfsDoOpen, hcached] at h
    rw [hexist]
    exact openWith_underWay h
  | none =>
    have hadd := lstatAdd_sameOpen (M := M) (v := v) path relPath
    rcases hl : lstatAdd M v path relPath with ⟨w, ip⟩
    have hexist : fileExists M v path relPath = ip.isSome := by
      rw [fileExists, hcached, hl, Option.isSome_none, Bool.false_or]
    simp only [okfsDoOpen, hcached, hl] at h
    rw [hl] at hadd
    rw [hexist]
    exact (openWith_underWay h).imp hadd.trans (.of_same hadd)

/-- Only the two halves of an open and reading a directory touch what is open. -/
theorem nsStep_sameOpen {op : NsOp} (hopen : ∀ p flags trunc ans, op ≠ .open p flags trunc ans)
    (hafter : ∀ i opened, op ≠ .afterOpen i opened)
    (hread : ∀ g fd count raw, op ≠ .getdents g fd count raw) (h : nsStep M v op = some v') :
    SameOpen v v' := by
  cases op with
  | lookup p =>
    rw [← Option.some.inj h]
    exact (okfsDolstat_frame ..).sameOpen
  | «open» p flags trunc ans => exact absurd rfl (hopen p flags trunc ans)
  | afterOpen i opened => exact absurd rfl (hafter i opened)
  | mkdir p st ret => exact addingCall_sameOpen h
  | symlink p st ret => exact addingCall_sameOpen h
  | link p₁ p₂ ret => exact addingCall_sameOpen h
  | unlink p ret => exact removingCall_sameOpen h
  | rmdir p ret => exact removingCall_sameOpen h
  | rename p₁ p₂ ret => exact okfsRename_sameOpen h
  | getdents g fd count raw => exact absurd rfl (hread g fd count raw)
  | tick now =>
    rw [← Option.some.inj h]
    exact ⟨rfl, rfl, rfl⟩

/-- A first half of an open touches no open file. -/
theorem nsStep_files {op : NsOp} (hafter : ∀ i opened, op ≠ .afterOpen i opened)
    (hread : ∀ g fd count raw, op ≠ .getdents g fd count raw) (h : nsStep M v op = some v') :
    v'.files = v.files := by
  by_cases hopen : ∃ p flags trunc ans, op = .open p flags trunc ans
  · obtain ⟨p, flags, trunc, ans, rfl⟩ := hopen
    obtain ⟨⟨_, ret⟩, hrun, rfl⟩ := Option.map_eq_some_iff.mp h
    rcases okfsDoOpen_underWay hrun with hsame | ⟨v₁, file, hsame, hpending⟩
    · exact hsame.files
    · have hfiles := hsame.files
      rw [hpending]
      exact hfiles
  · refine (nsStep_sameOpen (fun p flags trunc ans heq => ?_) hafter hread h).files
    exact hopen ⟨p, flags, trunc, ans, heq⟩

/-- The calls that open, read, write or move no descriptor. -/
def VfsOp.LeavesOpen : VfsOp → Prop
  | .ns (.open ..) | .ns (.afterOpen ..) | .ns (.getdents ..) | .read .. | .write .. | .lseek .. =>
    False
  | _ => True

theorem vfsStep_sameOpen {op : VfsOp} (hop : op.LeavesOpen) (h : vfsStep M links v op = some v') :
    SameOpen v v' := by
  have htruncate : ∀ {w : Vfs} {path : CStr} {length : Nat} {ans : Ret} {b : Backend} {ret : Ret},
      epTruncate w.backend path length ans = (b, ret) → SameOpen w { w with backend := b } :=
    fun _ => ⟨rfl, rfl, rfl⟩
  cases op with
  | ns op =>
    refine nsStep_sameOpen ?_ ?_ ?_ h
    · rintro p flags trunc ans rfl
      exact hop
    · rintro i opened rfl
      exact hop
    · rintro g fd count raw rfl
      exact hop
  | fstat fd =>
    obtain ⟨⟨_, st⟩, hrun, rfl⟩ := Option.map_eq_some_iff.mp h
    obtain ⟨filep, -, heq⟩ := Option.map_eq_some_iff.mp hrun
    have hframe := (okfsDolstat_frame (M := M) (v := v) filep.path filep.relPath).sameOpen
    rw [heq] at hframe
    exact hframe
  | ftruncate fd length ans =>
    obtain ⟨⟨_, ret⟩, hrun, rfl⟩ := Option.map_eq_some_iff.mp h
    obtain ⟨filep, -, hrun⟩ := Option.bind_eq_some_iff.mp hrun
    rcases hset : epTruncate v.backend filep.relPath length ans with ⟨b, _ | _⟩
    · rw [hset] at hrun
      rw [← (Prod.mk.inj (Option.some.inj hrun)).1]
      exact htruncate hset
    · rw [hset] at hrun
      obtain ⟨ino, -, hrun⟩ := Option.bind_eq_some_iff.mp hrun
      rw [← (Prod.mk.inj (Option.some.inj hrun)).1]
      exact ⟨rfl, rfl, rfl⟩
  | truncate p length ans =>
    rw [← Option.some.inj h]
    rcases hset : epTruncate v.backend (M.rel p) length ans with ⟨b, _ | _⟩
    · simp only [okfsTruncate, hset]
      exact htruncate hset
    · simp only [okfsTruncate, hset]
      have htouched := changeFileSize_touched (M := M) (v := { v with backend := b }) (M.full p) length
      exact (htruncate hset).trans htouched.sameOpen
  | utime p atime mtime ctime ans =>
    rw [← Option.some.inj h]
    exact ⟨rfl, rfl, rfl⟩
  | chmod p mode ctime ans =>
    rw [← Option.some.inj h]
    exact ⟨rfl, rfl, rfl⟩
  | chown p owner group perm ctime ans =>
    rw [← Option.some.inj h]
    exact ⟨rfl, rfl, rfl⟩
  | fchmod fd mode ctime ans | fchown fd owner group perm ctime ans =>
    obtain ⟨⟨_, ret⟩, hrun, rfl⟩ := Option.map_eq_some_iff.mp h
    obtain ⟨filep, -, heq⟩ := Option.map_eq_some_iff.mp hrun
    rw [← (Prod.mk.inj heq).1]
    exact ⟨rfl, rfl, rfl⟩
  | read | write | lseek => exact hop.elim

/-- A shfs filesystem on `/mnt`. -/
def shfsMount : Mount :=
  { localMount with sb := ⟨ascii "/mnt", ascii "host", .shfs⟩, mntPoint_eq := by decide }

end Okfs
