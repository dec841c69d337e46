import Okfs.Vfs.Calls

/-!
# OKFS — the cached size of a file

`okfs_read` stops at `st_size` of the descriptor's inode record, so the record has to
follow the file's length. Each call that changes the length does something else about
it: `okfs_write` adds what it wrote, wherever it wrote it; `okfs_ftruncate` stores 0;
`okfs_truncate` stores the length in the record of its path, if that is cached; an
open with `O_TRUNC` does nothing. `SizeFollows` says when this comes to the length.

The calls here are those on one file, in any number of descriptors; the file is not
moved, and backend calls succeed.
-/

namespace Okfs

open Components FileTree

/-- A call on the file, or a lookup. -/
inductive FileOp
  | lookup (q : Path)
  | open (q : Path) (flags : UInt32) (trunc : Ret) (ans : Except Errno Stat)
  | afterOpen (i : Nat) (opened : Bool)
  | read (fd : FileRef) (count : Nat) (ans : Except Errno Nat)
  | write (fd : FileRef) (count : Nat) (ans : Except Errno Nat)
  | lseek (fd : FileRef) (offset origin : Int) (ans : Ret)
  | ftruncate (fd : FileRef) (length : Nat) (ans : Ret)
  | truncate (q : Path) (length : Nat) (ans : Ret)

def fileStep (M : Mount) (v : Vfs) : FileOp → Option Vfs
  | .lookup q => nsStep M v (.lookup q)
  | .open q flags trunc ans => nsStep M v (.open q flags trunc ans)
  | .afterOpen i opened => nsStep M v (.afterOpen i opened)
  | .read fd count ans => (okfsRead v fd count ans).map Prod.fst
  | .write fd count ans => (okfsWrite M v fd count ans).map Prod.fst
  | .lseek fd offset origin ans => (okfsLseek M v fd offset origin ans).map Prod.fst
  | .ftruncate fd length ans => (okfsFtruncate v fd length ans).map Prod.fst
  | .truncate q length ans => some (okfsTruncate M v (M.full q) (M.rel q) length ans).1

/-- Opened and truncated by path is the file `f` only; reads, writes and truncations
succeed, and write all they were given. -/
def FileAdmissible (v : Vfs) (f : FileId) : FileOp → Prop
  | .lookup q => ValidPath q
  | .open q _ trunc _ => v.backend.tree q = some f ∧ trunc = .ok ()
  | .afterOpen i _ => i < v.pending.length
  | .read _ count ans => ∃ n ≤ count, ans = .ok n
  | .write _ count ans => ans = .ok count
  | .lseek .. => True
  | .ftruncate _ _ ans => ans = .ok ()
  | .truncate q _ ans => v.backend.tree q = some f ∧ ans = .ok ()

/-- The file's true length. -/
def Vfs.length (v : Vfs) (f : FileId) : Nat := (v.backend.attr f).stSize

/-- The records that the file is known by: those of its paths, those of its descriptors,
and those that go by its inode number. -/
inductive RecordOf (M : Mount) (v : Vfs) (f : FileId) : InodeRef → Prop
  | path {q : Path} {r : InodeRef} (found : v.backend.tree q = some f)
      (cached : Buckets.Mem M.nameHash v.ipathCache (M.full q) r) : RecordOf M v f r
  | descriptor {fd : FileRef} {filep : OkfsFile} {r : InodeRef} (file : v.files fd = some filep)
      (ino : filep.ino = some r) : RecordOf M v f r
  | number {h : Nat} {r : InodeRef} (localfs : M.sb.entry = .localfs) (mem : r ∈ v.inrCache h)
      (dev : (v.inode r).stDev = (v.backend.attr f).stDev)
      (ino : (v.inode r).stIno = (v.backend.attr f).stIno) : RecordOf M v f r

/-- What the call does to the cached size is what it does to the length. -/
def SizeFollows (M : Mount) (v : Vfs) (f : FileId) : FileOp → Prop
  | .open _ flags _ _ => OpenTruncates flags → v.length f = 0
  | .write fd count _ =>
    if count = 0 then M.stack = 0
    else ∀ filep r, v.files fd = some filep → filep.ino = some r →
      AtEnd filep ∧ v.length f + count < 2 ^ 32 ∧ count < 2 ^ 31 ∧ Sole r
  | .ftruncate fd length _ => ∀ filep r, v.files fd = some filep → filep.ino = some r →
      length = 0 ∧ (v.length f = 0 ∨ Sole r)
  | .truncate q length _ =>
    length = v.length f ∨ ∃ r, cacheFindInode M v (M.full q) = some r ∧ Sole r
  | _ => True
where
  /-- The backend writes at the end of the file. -/
  AtEnd (filep : OkfsFile) : Prop := epWriteAt M v.backend filep = some (f, v.length f)
  /-- The file has one record. -/
  Sole (r : InodeRef) : Prop := ∀ r', RecordOf M v f r' → r' = r

/-- The path of an open file leads to it, and is cached. -/
def LeadsTo (M : Mount) (v : Vfs) (f : FileId) (path relPath : CStr) (file : FileId) : Prop :=
  file = f ∧ ∃ q r, v.backend.tree q = some f ∧ path = M.full q ∧ relPath = M.rel q ∧
    cacheFindInode M v path = some r

/-- The file's records have its length, and what is open, or being opened, is the file. -/
structure SizeOk (M : Mount) (v : Vfs) (f : FileId) : Prop where
  base : Base M v
  live : ∃ p, v.backend.tree p = some f
  sizes : ∀ r, RecordOf M v f r → (v.inode r).stSize = v.length f
  files : ∀ fd filep, v.files fd = some filep → LeadsTo M v f filep.path filep.relPath filep.file ∧
    ∃ r, filep.ino = some r ∧ r < v.nextRef
  pending : ∀ o ∈ v.pending, LeadsTo M v f o.canonPath o.relPath o.file

variable {M : Mount} {v v' : Vfs} {f : FileId} {fd : FileRef} {filep filep' : OkfsFile}

theorem stSize_numberless : Numberless Stat.stSize := fun _ _ _ => rfl

/-- One record is written over by another. -/
theorem Base.setInode (h : Base M v) {r r' : InodeRef} (hr' : r' < v.nextRef) :
    Base M (v.setInode r (v.inode r')) :=
  h.setInode_ino fun hs => h.refs.ino hs r' hr'

theorem LeadsTo.caches {path relPath : CStr} {file : FileId} (h : LeadsTo M v f path relPath file)
    (hcaches : Caches M v v') : LeadsTo M v' f path relPath file := by
  obtain ⟨hfile, q, r, hq, hpath, hrel, hr⟩ := h
  exact ⟨hfile, q, r, by rw [hcaches.frame.backend]; exact hq, hpath, hrel, hcaches.keep hr⟩

theorem LeadsTo.touched {path relPath : CStr} {file : FileId} (h : LeadsTo M v f path relPath file)
    (htouched : Touched v v') : LeadsTo M v' f path relPath file := by
  obtain ⟨hfile, q, r, hq, hpath, hrel, hr⟩ := h
  exact ⟨hfile, q, r, by rw [htouched.tree]; exact hq, hpath, hrel, by rw [htouched.find]; exact hr⟩

namespace SizeOk

theorem caches (h : SizeOk M v f) (hcaches : Caches M v v') : SizeOk M v' f := by
  have hframe := hcaches.frame
  have hlen : v'.length f = v.length f := by rw [Vfs.length, hframe.backend]; rfl
  have hrecords : RecordsOk Stat.stSize M v f := fun hl b r hr hdev hino => h.sizes r (.number hl hr hdev hino)
  have hcached : ∀ q, v.backend.tree q = some f → CachedOk Stat.stSize M v q :=
    fun q hq r hr => ⟨f, hq, h.sizes r (.path hq hr)⟩
  refine ⟨h.base.caches hcaches, by rw [hframe.backend]; exact h.live, fun r hr => ?_,
    fun fd filep hfile => ?_, fun o ho => ?_⟩
  · rw [hlen]
    cases hr with
    | @path q _ hq hmem =>
      rw [hframe.backend] at hq
      have hq' := hcaches.cachedOk stSize_numberless h.base.refs h.base.wf
        (h.base.wf.valid q f hq) (fun g hg => by
          rw [hq, Option.some.injEq] at hg
          exact hg ▸ hrecords) (hcached q hq)
      obtain ⟨g, hg, heq⟩ := hq' r hmem
      rw [hframe.backend, hq, Option.some.injEq] at hg
      rw [heq, ← hg, hframe.backend]
      rfl
    | descriptor hfile hino =>
      rw [hframe.files] at hfile
      obtain ⟨-, r', hr', hlt⟩ := h.files _ _ hfile
      rw [hino, Option.some.injEq] at hr'
      rw [hcaches.inode_of_lt (hr' ▸ hlt)]
      exact h.sizes r (.descriptor hfile hino)
    | number hl hmem hdev hino =>
      have hr' := hcaches.recordsOk h.base.refs h.base.wf h.live hrecords hl _ r hmem hdev hino
      rw [hr', hframe.backend]
      rfl
  · obtain ⟨hleads, r, hr, hlt⟩ := h.files fd filep (hframe.files ▸ hfile)
    exact ⟨hleads.caches hcaches, r, hr, Nat.lt_of_lt_of_le hlt hcaches.nextRef_le⟩
  · exact (h.pending o (hframe.pending ▸ ho)).caches hcaches

/-- Sizes change: those of the file's records to what the length becomes. -/
theorem touched (h : SizeOk M v f) (htouched : Touched v v')
    (hsizes : ∀ r, RecordOf M v f r → (v'.inode r).stSize = v'.length f) : SizeOk M v' f := by
  refine ⟨h.base.touched htouched, by rw [htouched.tree]; exact h.live, fun r hr => hsizes r ?_,
    fun fd filep hfile => ?_, fun o ho => ?_⟩
  · cases hr with
    | path hq hmem => exact .path (htouched.tree ▸ hq) (htouched.ipathCache ▸ hmem)
    | descriptor hfile hino => exact .descriptor (htouched.files ▸ hfile) hino
    | number hl hmem hdev hino =>
      obtain ⟨s, a, m, heq⟩ := htouched.inode r
      obtain ⟨s', a', m', heq'⟩ := htouched.attr f
      rw [heq, heq'] at hdev hino
      exact .number hl (htouched.inrCache ▸ hmem) hdev hino
  · obtain ⟨hleads, r, hr, hlt⟩ := h.files fd filep (htouched.files ▸ hfile)
    exact ⟨hleads.touched htouched, r, hr, htouched.nextRef ▸ hlt⟩
  · exact (h.pending o (htouched.pending ▸ ho)).touched htouched

/-- A descriptor moves. -/
theorem setFile (h : SizeOk M v f) (hfile : v.files fd = some filep)
    (hsame : filep'.path = filep.path ∧ filep'.relPath = filep.relPath ∧ filep'.file = filep.file ∧
      filep'.ino = filep.ino) : SizeOk M (v.setFile fd filep') f := by
  obtain ⟨hpath, hrel, hid, hino⟩ := hsame
  have hold : ∀ {fd' file}, (v.setFile fd filep').files fd' = some file →
      ∃ file', v.files fd' = some file' ∧ file.path = file'.path ∧ file.relPath = file'.relPath ∧
        file.file = file'.file ∧ file.ino = file'.ino := by
    intro fd' file hf
    by_cases hfd : fd' = fd
    · rw [hfd, Vfs.setFile_self, Option.some.injEq] at hf
      exact ⟨filep, hfd ▸ hfile, hf ▸ hpath, hf ▸ hrel, hf ▸ hid, hf ▸ hino⟩
    · rw [Vfs.setFile_of_ne hfd] at hf
      exact ⟨file, hf, rfl, rfl, rfl, rfl⟩
  refine ⟨h.base.setFile hfile hpath hrel, h.live, fun r hr => h.sizes r ?_, fun fd' file hf => ?_,
    h.pending⟩
  · cases hr with
    | path hq hmem => exact .path hq hmem
    | descriptor hf hr =>
      obtain ⟨file', hf', -, -, -, hino'⟩ := hold hf
      exact .descriptor hf' (hino' ▸ hr)
    | number hl hmem hdev hino => exact .number hl hmem hdev hino
  · obtain ⟨file', hf', h₁, h₂, h₃, h₄⟩ := hold hf
    rw [h₁, h₂, h₃, h₄]
    exact h.files fd' file' hf'

/-- One of the file's records is copied over another record. -/
theorem setInode (h : SizeOk M v f) {r r' : InodeRef} (hr' : RecordOf M v f r')
    (hlt : r' < v.nextRef) : SizeOk M (v.setInode r (v.inode r')) f := by
  refine ⟨h.base.setInode hlt, h.live, fun s hs => ?_, h.files, h.pending⟩
  by_cases hsr : s = r
  · rw [hsr, Vfs.setInode_self]
    exact h.sizes r' hr'
  · rw [Vfs.setInode_of_ne hsr]
    refine h.sizes s ?_
    cases hs with
    | path hq hmem => exact .path hq hmem
    | descriptor hfile hino => exact .descriptor hfile hino
    | number hl hmem hdev hino =>
      rw [Vfs.setInode_of_ne hsr] at hdev hino
      exact .number hl hmem hdev hino

/-- The length changes, and with it the size in one record. -/
theorem resize (h : SizeOk M v f) (n : Nat) (r : InodeRef) (s a m : Nat)
    (hsizes : ∀ r', RecordOf M v f r' → r' ≠ r → v.length f = n) (hs : RecordOf M v f r → s = n) :
    SizeOk M (({ v with backend := v.backend.changeFile f fun st => { st with stSize := n } } :
      Vfs).setInode r { v.inode r with stSize := s, stAtime := a, stMtime := m }) f := by
  refine h.touched ⟨rfl, rfl, rfl, rfl, rfl, rfl, rfl, rfl, rfl,
    fun g => Backend.attr_changeFile_resized v.backend f n g, fun r' => ?_⟩ fun r' hr' => ?_
  · by_cases hr : r' = r
    · exact ⟨_, _, _, by rw [hr]; exact Vfs.setInode_self ..⟩
    · exact ⟨_, _, _, Vfs.setInode_of_ne hr⟩
  · show _ = ((v.backend.changeFile f fun st => { st with stSize := n }).attr f).stSize
    rw [Backend.attr_changeFile_self]
    by_cases hr : r' = r
    · rw [hr, Vfs.setInode_self]
      exact hs (hr ▸ hr')
    · rw [Vfs.setInode_of_ne hr]
      exact (h.sizes r' hr').trans (hsizes r' hr' hr)

/-- Another open is under way. -/
theorem pend (h : SizeOk M v f) {o : PendingOpen} {q : Path} {r : InodeRef}
    (hq : v.backend.tree q = some f) (hpath : o.canonPath = M.full q) (hrel : o.relPath = M.rel q)
    (hfile : o.file = f) (hr : cacheFindInode M v (M.full q) = some r) :
    SizeOk M { v with pending := v.pending ++ [o] } f := by
  have hall : ∀ o' ∈ v.pending ++ [o], LeadsTo M v f o'.canonPath o'.relPath o'.file := by
    intro o' ho'
    rcases List.mem_append.mp ho' with ho' | ho'
    · exact h.pending o' ho'
    · rw [List.mem_singleton.mp ho']
      exact ⟨hfile, q, r, hq, hpath, hrel, hpath ▸ hr⟩
  refine ⟨⟨⟨h.base.refs.ipath, h.base.refs.inr, h.base.refs.ino⟩, h.base.wf,
    ⟨h.base.openOk.files, fun o' ho' => ?_⟩⟩, h.live,
    fun s hs => h.sizes s ?_, h.files, hall⟩
  · obtain ⟨-, q', -, hq', hpath', hrel', -⟩ := hall o' ho'
    exact ⟨q', h.base.wf.valid q' f hq', hpath', hrel'⟩
  · cases hs with
    | path hq hmem => exact .path hq hmem
    | descriptor hfile hino => exact .descriptor hfile hino
    | number hl hmem hdev hino => exact .number hl hmem hdev hino

theorem «open» (h : SizeOk M v f) {q : Path} {flags : UInt32} {ans : Except Errno Stat}
    (hq : v.backend.tree q = some f) (hinv : OpenTruncates flags → v.length f = 0)
    (hstep : nsStep M v (.open q flags (.ok ()) ans) = some v') : SizeOk M v' f := by
  have hp := h.base.wf.valid q f hq
  obtain ⟨v₁, w, ret, heq, hcaches, ⟨r, hr⟩, v₂, htrunc, hopen⟩ :=
    okfsDoOpen_known (M := M) hp flags (.ok ()) ans fun _ => ⟨f, hq⟩
  rw [nsStep, heq, Option.map_some, Option.some.injEq] at hstep
  have h₁ := h.caches hcaches
  have hq₁ : v₁.backend.tree q = some f := by rw [hcaches.frame.backend]; exact hq
  have h₂ : SizeOk M v₂ f ∧ v₂.backend.tree = v₁.backend.tree ∧
      cacheFindInode M v₂ (M.full q) = some r := by
    rcases htrunc with rfl | ⟨hflags, rfl⟩
    · exact ⟨h₁, rfl, hr⟩
    · -- the length was 0 before
      have htouched := epTruncate_touched (v := v₁) (M.rel q) 0 (.ok ())
      refine ⟨h₁.touched htouched fun s hs => ?_, htouched.tree, hr⟩
      have hlen : v₁.length f = 0 := by
        rw [Vfs.length, hcaches.frame.backend]
        exact hinv hflags
      have hset : epTruncate v₁.backend (M.rel q) 0 (.ok ()) =
          (v₁.backend.changeFile f fun st => { st with stSize := 0 }, .ok ()) :=
        (epSetAttr_ok_iff hp).mpr ⟨f, hq₁, rfl⟩
      rw [Vfs.length, hset, Backend.attr_changeFile_self]
      exact (h₁.sizes s hs).trans hlen
  obtain ⟨h₂, htree, hr₂⟩ := h₂
  have hw : SizeOk M w f := by
    rcases hopen with rfl | ⟨g, append, hg, rfl⟩
    · exact h₂
    · rw [hq₁, Option.some.injEq] at hg
      exact h₂.pend (by rw [htree]; exact hq₁) rfl rfl hg.symm hr₂
  exact hstep ▸ hw

/-- The new descriptor's record is the one its path leads to. -/
theorem afterOpen (h : SizeOk M v f) {i : Nat} {opened : Bool}
    (hstep : nsStep M v (.afterOpen i opened) = some v') : SizeOk M v' f := by
  have hbase := h.base.sameFs (okfsAfterOkfsOpen_sameFs hstep)
  obtain ⟨o, ho, rfl⟩ := Option.map_eq_some_iff.mp hstep
  have hmem : o ∈ v.pending := List.mem_of_getElem? ho
  have hpending : ∀ o' ∈ v.pending.eraseIdx i, LeadsTo M v f o'.canonPath o'.relPath o'.file :=
    fun o' ho' => h.pending o' (List.mem_of_mem_eraseIdx ho')
  cases opened with
  | false =>
    refine ⟨hbase, h.live, fun s hs => h.sizes s ?_, h.files, hpending⟩
    cases hs with
    | path hq hmem => exact .path hq hmem
    | descriptor hfile hino => exact .descriptor hfile hino
    | number hl hmem hdev hino => exact .number hl hmem hdev hino
  | true =>
    obtain ⟨hfile, q, r, hq, hpath, hrel, hr⟩ := h.pending o hmem
    have hrec : RecordOf M v f r := .path hq (hpath ▸ Buckets.mem_of_find hr)
    have hnew : ∀ {fd filep}, (addNewFd M { v with pending := v.pending.eraseIdx i } o).files fd =
        some filep → (v.files fd = some filep ∨
          (filep.path = o.canonPath ∧ filep.relPath = o.relPath ∧ filep.file = o.file ∧
            filep.ino = some r)) := by
      intro fd filep hf
      have hf : Function.update v.files v.nextFile _ fd = some filep := hf
      by_cases hfd : fd = v.nextFile
      · rw [hfd, Function.update_self, Option.some.injEq] at hf
        rw [← hf]
        exact .inr ⟨rfl, rfl, rfl, hr⟩
      · rw [Function.update_of_ne hfd] at hf
        exact .inl hf
    refine ⟨hbase, h.live, fun s hs => h.sizes s ?_, fun fd filep hf => ?_, hpending⟩
    · cases hs with
      | path hq hmem => exact .path hq hmem
      | descriptor hf hino =>
        rcases hnew hf with hf | ⟨-, -, -, hino'⟩
        · exact .descriptor hf hino
        · rw [hino, Option.some.injEq] at hino'
          exact hino' ▸ hrec
      | number hl hmem hdev hino => exact .number hl hmem hdev hino
    · rcases hnew hf with hf | ⟨h₁, h₂, h₃, h₄⟩
      · exact h.files fd filep hf
      · rw [h₁, h₂, h₃, h₄]
        exact ⟨⟨hfile, q, r, hq, hpath, hrel, hr⟩, r, rfl, h.base.refs.find_lt hr⟩

theorem read (h : SizeOk M v f) {count : Nat} {ans : Except Errno Nat} {ret : Int}
    (hstep : okfsRead v fd count ans = some (v', ret)) : SizeOk M v' f := by
  rcases okfsRead_eq_some hstep with rfl | ⟨filep, fPos, pos, hfile, rfl⟩
  · exact h
  · exact h.setFile hfile ⟨rfl, rfl, rfl, rfl⟩

theorem write (h : SizeOk M v f) {count : Nat} {ret : Int}
    (hinv : SizeFollows M v f (.write fd count (.ok count)))
    (hstep : okfsWrite M v fd count (.ok count) = some (v', ret)) : SizeOk M v' f := by
  by_cases hcount : count = 0
  · obtain ⟨filep, -, hstep⟩ := Option.bind_eq_some_iff.mp hstep
    rw [if_pos hcount] at hstep
    rw [← (Prod.mk.inj (Option.some.inj hstep)).1]
    exact h
  · obtain ⟨filep, hfile, -⟩ := Option.bind_eq_some_iff.mp hstep
    obtain ⟨-, r, hino, -⟩ := h.files fd filep hfile
    rw [SizeFollows, if_neg hcount] at hinv
    obtain ⟨hat, hfits, hlt, hsole⟩ := hinv filep r hfile hino
    rw [okfsWrite_of_ok hfile hino hat hcount hlt, Option.some.injEq, Prod.mk.injEq] at hstep
    rw [← hstep.1]
    refine SizeOk.setFile (h.resize _ r _ _ _ ?_ fun hr => ?_) hfile ⟨rfl, rfl, rfl, rfl⟩
    · exact fun r' hr' hne => absurd (hsole r' hr') hne
    · -- at the end, the length grows by what is written
      rw [h.sizes r hr, Nat.mod_eq_of_lt hfits]
      exact (Nat.max_eq_right (Nat.le_add_right ..)).symm

theorem lseek (h : SizeOk M v f) {offset origin : Int} {ans : Ret} {ret : Except Errno Int}
    (hstep : okfsLseek M v fd offset origin ans = some (v', ret)) : SizeOk M v' f := by
  obtain ⟨filep, fPos, pos, hfile, rfl | ⟨v₁, size, hseek, rfl⟩⟩ := okfsLseek_eq_some hstep
  · exact h.setFile hfile ⟨rfl, rfl, rfl, rfl⟩
  · obtain ⟨⟨-, q, r', hq, hpath, -, hr'⟩, r, hino, -⟩ := h.files fd filep hfile
    have hcached : cacheFindInode M v (M.full q) = some r' := hpath ▸ hr'
    have hstat : arglstat M v filep.path = (v, .ok (v.inode r')) := by
      rw [hpath, arglstat_full (h.base.wf.valid q f hq), okfsDolstat, hcached]
    have hseek' : seekEnd M v { filep with offset := pos } =
        some (v.setInode r (v.inode r'), ((v.setInode r (v.inode r')).inode r).stSize) := by
      simp only [seekEnd, hino, hstat]
      rfl
    rw [hseek', Option.some.injEq, Prod.mk.injEq] at hseek
    rw [← hseek.1]
    have hrec : RecordOf M v f r' := .path hq (Buckets.mem_of_find hcached)
    exact SizeOk.setFile (h.setInode hrec (h.base.refs.find_lt hr')) hfile ⟨rfl, rfl, rfl, rfl⟩

theorem ftruncate (h : SizeOk M v f) {length : Nat} {ret : Ret}
    (hinv : SizeFollows M v f (.ftruncate fd length (.ok ())))
    (hstep : okfsFtruncate v fd length (.ok ()) = some (v', ret)) : SizeOk M v' f := by
  obtain ⟨filep, hfile, -⟩ := Option.bind_eq_some_iff.mp hstep
  obtain ⟨⟨-, q, -, hq, -, hrel, -⟩, r, hino, -⟩ := h.files fd filep hfile
  have hset : epTruncate v.backend filep.relPath length (.ok ()) =
      (v.backend.changeFile f fun st => { st with stSize := length }, .ok ()) := by
    rw [hrel]
    exact (epSetAttr_ok_iff (h.base.wf.valid q f hq)).mpr ⟨f, hq, rfl⟩
  have hrun := (okfsFtruncate_ok_iff hfile).mpr ⟨_, r, hset, hino, rfl⟩
  rw [hrun, Option.some.injEq, Prod.mk.injEq] at hstep
  rw [← hstep.1]
  obtain ⟨hzero, hother⟩ := hinv filep r hfile hino
  refine h.resize length r 0 _ _ (fun r' hr' hne => ?_) fun _ => hzero.symm
  rcases hother with hlen | hsole
  · exact hlen.trans hzero.symm
  · exact absurd (hsole r' hr') hne

theorem truncate (h : SizeOk M v f) {q : Path} {length : Nat} (hq : v.backend.tree q = some f)
    (hinv : SizeFollows M v f (.truncate q length (.ok ()))) :
    SizeOk M (okfsTruncate M v (M.full q) (M.rel q) length (.ok ())).1 f := by
  have hset : epTruncate v.backend (M.rel q) length (.ok ()) =
      (v.backend.changeFile f fun st => { st with stSize := length }, .ok ()) :=
    (epSetAttr_ok_iff (h.base.wf.valid q f hq)).mpr ⟨f, hq, rfl⟩
  rw [okfsTruncate, hset]
  show SizeOk M (changeFileSize M _ (M.full q) length) f
  unfold changeFileSize
  rw [show cacheFindInode M { v with backend := v.backend.changeFile f fun st =>
    { st with stSize := length } } (M.full q) = cacheFindInode M v (M.full q) from rfl]
  cases hcached : cacheFindInode M v (M.full q) with
  | some r =>
    refine h.resize length r length v.now v.now (fun r' hr' hne => ?_) fun _ => rfl
    rcases hinv with hlen | ⟨r₁, hr₁, hsole⟩
    · exact hlen.symm
    · rw [hcached, Option.some.injEq] at hr₁
      exact absurd (hr₁ ▸ hsole r' hr') hne
  | none =>
    have hlen : length = v.length f := by
      rcases hinv with hlen | ⟨r₁, hr₁, -⟩
      · exact hlen
      · rw [hcached] at hr₁
        cases hr₁
    refine h.touched ⟨rfl, rfl, rfl, rfl, rfl, rfl, rfl, rfl, rfl,
      fun g => Backend.attr_changeFile_resized v.backend f length g, fun r => .refl _⟩ fun r hr => ?_
    rw [Vfs.length, Backend.attr_changeFile_self, hlen]
    exact h.sizes r hr

/-- One step. -/
theorem step (h : SizeOk M v f) {op : FileOp} (hadm : FileAdmissible v f op)
    (hinv : SizeFollows M v f op) (hstep : fileStep M v op = some v') : SizeOk M v' f := by
  cases op with
  | lookup q =>
    have hcaches := arglstat_caches (M := M) (v := v) hadm
    rw [arglstat_full hadm] at hcaches
    rw [← show (okfsDolstat M v (M.full q) (M.rel q)).1 = v' from Option.some.inj hstep]
    exact h.caches hcaches
  | «open» q flags trunc ans =>
    obtain ⟨hq, rfl⟩ := hadm
    exact h.open hq hinv hstep
  | afterOpen i opened => exact h.afterOpen hstep
  | read fd count ans =>
    obtain ⟨⟨v', ret⟩, hrun, rfl⟩ := Option.map_eq_some_iff.mp hstep
    exact h.read hrun
  | write fd count ans =>
    obtain rfl : ans = .ok count := hadm
    obtain ⟨⟨v', ret⟩, hrun, rfl⟩ := Option.map_eq_some_iff.mp hstep
    exact h.write hinv hrun
  | lseek fd offset origin ans =>
    obtain ⟨⟨v', ret⟩, hrun, rfl⟩ := Option.map_eq_some_iff.mp hstep
    exact h.lseek hrun
  | ftruncate fd length ans =>
    obtain rfl : ans = .ok () := hadm
    obtain ⟨⟨v', ret⟩, hrun, rfl⟩ := Option.map_eq_some_iff.mp hstep
    exact h.ftruncate hinv hrun
  | truncate q length ans =>
    obtain ⟨hq, rfl⟩ := hadm
    rw [← Option.some.inj hstep]
    exact h.truncate hq hinv

/-- Nothing is known of a file that was not looked up yet. -/
theorem mounted {b : Backend} (hwf : b.WF) {p : Path} (hp : b.tree p = some f) :
    SizeOk M (Vfs.mounted b) f := by
  refine ⟨.mounted hwf, ⟨p, hp⟩, fun r hr => ?_, fun _ _ h => (by cases h),
    fun _ h => (List.not_mem_nil h).elim⟩
  cases hr with
  | path _ hmem => exact (List.not_mem_nil hmem).elim
  | descriptor hfile => cases hfile
  | number _ hmem => exact (List.not_mem_nil hmem).elim

/-- A write returns what it moves the descriptor by. -/
theorem write_returns (h : SizeOk M v f) {count : Nat} {ret : Int}
    (hinv : SizeFollows M v f (.write fd count (.ok count)))
    (hstep : okfsWrite M v fd count (.ok count) = some (v', ret)) :
    ∃ filep filep', v.files fd = some filep ∧ v'.files fd = some filep' ∧
      ret = filep'.fPos - filep.fPos := by
  obtain ⟨filep, hfile, -⟩ := Option.bind_eq_some_iff.mp hstep
  by_cases hcount : count = 0
  · rw [SizeFollows, if_pos hcount] at hinv
    rw [okfsWrite, hfile] at hstep
    simp only [Option.bind_eq_bind, Option.bind_some, if_pos hcount] at hstep
    obtain ⟨rfl, rfl⟩ := Prod.mk.inj (Option.some.inj hstep)
    exact ⟨filep, filep, hfile, hfile, by rw [hinv]; omega⟩
  · obtain ⟨-, r, hino, -⟩ := h.files fd filep hfile
    rw [SizeFollows, if_neg hcount] at hinv
    obtain ⟨hat, -, hlt, -⟩ := hinv filep r hfile hino
    rw [okfsWrite_of_ok hfile hino hat hcount hlt] at hstep
    obtain ⟨rfl, rfl⟩ := Prod.mk.inj (Option.some.inj hstep)
    exact ⟨filep, _, hfile, Vfs.setFile_self .., by simp⟩

end SizeOk

/-- **The cached size.** In every state that a run with fitting updates reaches, each
descriptor's record has the file's length, and the next such write returns what it
moves its descriptor by. -/
theorem sizes_follow {b : Backend} (hwf : b.WF) {p : Path} (hp : b.tree p = some f)
    {ops : List FileOp}
    (hal : Runs.Along (fileStep M) (fun v op => FileAdmissible v f op ∧ SizeFollows M v f op)
      (Vfs.mounted b) ops)
    (hrun : Runs.exec (fileStep M) (Vfs.mounted b) ops = some v) :
    (∀ fd filep, v.files fd = some filep →
      ∃ r, filep.ino = some r ∧ (v.inode r).stSize = v.length f) ∧
    ∀ fd count v' ret, SizeFollows M v f (.write fd count (.ok count)) →
      okfsWrite M v fd count (.ok count) = some (v', ret) →
      ∃ filep filep', v.files fd = some filep ∧ v'.files fd = some filep' ∧
        ret = filep'.fPos - filep.fPos := by
  have hok : SizeOk M v f := by
    refine Runs.inv_of_exec (I := fun v => SizeOk M v f) (fun v op v' hok hcond hstep => ?_)
      (SizeOk.mounted hwf hp) hal hrun
    exact hok.step hcond.1 hcond.2 hstep
  refine ⟨fun fd filep hfile => ?_, fun fd count v' ret hinv hstep => hok.write_returns hinv hstep⟩
  obtain ⟨-, r, hino, -⟩ := hok.files fd filep hfile
  exact ⟨r, hino, hok.sizes r (.descriptor hfile hino)⟩

/-! ## Two files -/

/-- A filesystem with a file of `n` bytes. -/
def oneFile (n : Nat) : Backend :=
  Backend.rootOnly.create [ascii "f"] { Backend.newFile 3 with stSize := n }

theorem oneFile_wf (n : Nat) : (oneFile n).WF :=
  Backend.rootOnly_wf.create (Backend.rootOnly_canCreate (by decide) fun h => by simp [Backend.newFile] at h)

/-- It is opened for writing. -/
def openForWriting : List FileOp :=
  [.open [ascii "f"] O_WRONLY (.ok ()) (.ok (Backend.newFile 3)), .afterOpen 0 true]

/-- One byte is written to it then. -/
def writeRun : List FileOp := openForWriting ++ [.write 0 1 (.ok 1)]

def emptyFile : Vfs :=
  (Runs.exec (fileStep localMount) (Vfs.mounted (oneFile 0)) openForWriting).getD
    (Vfs.mounted (oneFile 0))

theorem emptyFile_files : emptyFile.files =
    Function.update (fun _ => none) 0
      (some ⟨ascii "/mnt/f", ascii "/f", some 0, 0, 1, 0, false⟩) :=
  rfl

theorem emptyFile_inrCache :
    emptyFile.inrCache = Function.update (fun _ => []) (inoHash 1 3) [0] :=
  rfl

theorem emptyFile_sole : SizeFollows.Sole localMount emptyFile 1 0 := by
  intro r hr
  cases hr with
  | @path q _ hq hmem =>
    have hq : (oneFile 0).tree q = some 1 := hq
    rcases Backend.tree_create_rootOnly hq with ⟨-, h⟩ | ⟨rfl, -⟩
    · exact absurd h (by decide)
    · have hmem : (localMount.full [ascii "f"], r) ∈ [(localMount.full [ascii "f"], 0)] := hmem
      rw [List.mem_singleton, Prod.mk.injEq] at hmem
      exact hmem.2
  | @descriptor fd filep _ hfile hino =>
    rw [emptyFile_files] at hfile
    by_cases hfd : fd = 0
    · rw [hfd, Function.update_self, Option.some.injEq] at hfile
      rw [← hfile] at hino
      exact (Option.some.inj hino).symm
    · rw [Function.update_of_ne hfd] at hfile
      cases hfile
  | @number h _ _ hmem =>
    rw [emptyFile_inrCache] at hmem
    by_cases hh : h = inoHash 1 3
    · rw [hh, Function.update_self, List.mem_singleton] at hmem
      exact hmem
    · rw [Function.update_of_ne hh] at hmem
      exact (List.not_mem_nil hmem).elim

/-- On an empty file the byte is written at the end. -/
theorem sizes_follow_emptyFile :
    ∃ v, Runs.exec (fileStep localMount) (Vfs.mounted (oneFile 0)) writeRun = some v ∧
      ∀ fd filep, v.files fd = some filep →
        ∃ r, filep.ino = some r ∧ (v.inode r).stSize = v.length 1 := by
  have hal : Runs.Along (fileStep localMount)
      (fun v op => FileAdmissible v 1 op ∧ SizeFollows localMount v 1 op)
      (Vfs.mounted (oneFile 0)) writeRun := by
    refine ⟨⟨⟨rfl, rfl⟩, fun h => absurd h.2.1 (by decide)⟩, fun v₁ h₁ => ?_⟩
    obtain rfl := Option.some.inj h₁
    refine ⟨⟨Nat.zero_lt_one, trivial⟩, fun v₂ h₂ => ?_⟩
    obtain rfl : emptyFile = v₂ := Option.some.inj h₂
    refine ⟨⟨rfl, fun filep r hfile hino => ?_⟩, fun _ _ => trivial⟩
    rw [emptyFile_files, Function.update_self, Option.some.injEq] at hfile
    subst hfile
    obtain rfl : 0 = r := Option.some.inj hino
    exact ⟨rfl, by decide, by decide, emptyFile_sole⟩
  exact ⟨_, rfl, (sizes_follow (p := [ascii "f"]) (oneFile_wf 0) rfl hal rfl).1⟩

/-- On a file of five bytes it overwrites the first one, and the cached size grows. -/
theorem size_drifts_on_overwrite :
    ∃ v filep r, (oneFile 5).WF ∧ (oneFile 5).tree [ascii "f"] = some 1 ∧
      Runs.Along (fileStep localMount) (fun v op => FileAdmissible v 1 op)
        (Vfs.mounted (oneFile 5)) writeRun ∧
      Runs.exec (fileStep localMount) (Vfs.mounted (oneFile 5)) writeRun = some v ∧
      v.files 0 = some filep ∧ filep.ino = some r ∧ (v.inode r).stSize = 6 ∧ v.length 1 = 5 := by
  refine ⟨_, ⟨ascii "/mnt/f", ascii "/f", some 0, 1, 1, 1, false⟩, 0, oneFile_wf 5, rfl, ?_, rfl,
    rfl, rfl, rfl, rfl⟩
  refine ⟨⟨rfl, rfl⟩, fun v₁ h₁ => ?_⟩
  obtain rfl := Option.some.inj h₁
  exact ⟨Nat.zero_lt_one, fun v₂ _ => ⟨rfl, fun _ _ => trivial⟩⟩

end Okfs
