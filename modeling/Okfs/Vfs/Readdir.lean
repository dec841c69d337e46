import Okfs.Vfs.Dcache

/-!
# OKFS — reading directories

A listing is read from the backend once and then served from `dcache`. The two
`getdents` calls copy it to the caller in pieces: `creat_dirent64` and
`creat_dirent` skip to where the last call stopped and pack records until the
buffer is full. They are one walk over two record formats (`packDirents`).

Where a call resumes is `f_pos`. The caller advances it by the bytes of the records
it got, the encoder counts it off in bytes of names, and a record is longer than
its name. So the second call skips more than the first one delivered, unless the
first one delivered everything. The main result is `readsAll_iff`.
-/

namespace Okfs

open Components FileTree

/-! ## The source: reading a listing -/

section Source

variable (M : Mount) (v : Vfs)

def getIno (path : CStr) : Option Nat := (cacheFindInode M v path).map fun inop => (v.inode inop).stIno

/-- `get_parent_ino`: when `okfs_arglstat` fails, `buf` is read as the stack left it. -/
def getParentIno (path : CStr) : Option (Vfs × Nat) :=
  if path = [slash] then (getIno M v path).map fun ino => (v, ino)
  else
    (splitPath path).map fun (newpath, _) =>
      match cacheFindInode M v newpath with
      | some inop => (v, (v.inode inop).stIno)
      | none =>
        match arglstat M v newpath with
        | (v, .ok buf) => (v, buf.stIno)
        | (v, .error _) => (v, M.stack)

/-- One line of the listing that `do_ls` reads: what it says of the file, and what goes
in front of `okfs_dir`. Lines for `.` and `..` are skipped. -/
def doLsLine (path : CStr) : Vfs × List OkfsDirent → OkfsDirent → Vfs × List OkfsDirent
  | (v, okfsDir), line =>
    if line.name = ascii "." ∨ line.name = ascii ".." then (v, okfsDir)
    else
      match v.backend.tree (components slash path ++ [line.name]) with
      | none => (v, okfsDir)
      | some f =>
        let (v, statbuf) := addToCache M v (some path) line.name (shfsStat (v.backend.stat f))
        (v, ⟨statbuf.stIno, DT_UNKNOWN, line.name⟩ :: okfsDir)

def shfsReaddir (filep : OkfsFile) (raw : Except Errno (List OkfsDirent)) :
    Option (Vfs × Except Errno (List OkfsDirent)) := do
  let curi ← getIno M v filep.path
  let (v, pari) ← getParentIno M v filep.path
  match raw with
  | .error e => some (v, .error e)
  | .ok lines =>
    let dirp := [⟨pari, DT_DIR, ascii ".."⟩, ⟨curi, DT_DIR, ascii "."⟩]
    let (v, dirp) := lines.foldl (doLsLine M filep.relPath) (v, dirp)
    some (v, .ok dirp)

/-- `okfs_add_dirent` puts each entry in front of those read before. -/
def localfsReaddir (raw : Except Errno (List OkfsDirent)) : Except Errno (List OkfsDirent) :=
  raw.map List.reverse

/-- The `readdir` slot of the filesystem's row. -/
def epReaddir (filep : OkfsFile) (raw : Except Errno (List OkfsDirent)) :
    Option (Vfs × Except Errno (List OkfsDirent)) :=
  match M.sb.entry with
  | .localfs => some (v, localfsReaddir raw)
  | .shfs => shfsReaddir M v filep raw

/-- `okfs_do_readdir`; `raw` is what the backend's directory reads as, entry by entry. -/
def okfsDoReaddir (filep : OkfsFile) (raw : Except Errno (List OkfsDirent)) :
    Option (Vfs × Except Errno (List OkfsDirent)) :=
  match cacheFindDirent M v filep.path with
  | d :: ds => some (v, .ok (d :: ds))
  | [] => do
    let (v, ret) ← epReaddir M v filep raw
    match ret with
    | .error e => some (v, .error e)
    | .ok dp => some (cacheAddDirent M v filep.path dp, .ok dp)

end Source

/-! ## The source: packing records -/

/-- What `struct dirent64` and `struct dirent` differ in: the bytes before `d_name`, and
whether there is a `d_type`. -/
structure DirentFormat where
  header : Nat
  hasType : Bool
  deriving DecidableEq, Repr

/-- `d_ino`, `d_off`, `d_type` and `d_reclen` of `struct dirent64` -/
def dirent64Format : DirentFormat := ⟨8 + 8 + 1 + 2, true⟩

/-- `d_ino`, `d_off` and `d_reclen` of `struct dirent` -/
def direntFormat : DirentFormat := ⟨4 + 4 + 2, false⟩

/-- A record as the caller gets it. -/
structure UserDirent where
  dIno : Nat
  dOff : Nat
  dReclen : Nat
  dType : Option Nat
  dName : Name
  deriving DecidableEq, Repr

/-- An `unsigned` returned as `int`. -/
def toInt32 (n : Nat) : Int := if n < 2 ^ 31 then n else (n : Int) - 2 ^ 32

/-- The bytes of `d_ino`. -/
def DirentFormat.inoBytes (fmt : DirentFormat) : Nat := if fmt.hasType then 8 else 4

/-- What is in `d_ino` for an inode number, which `struct okfs_dirent` keeps in a `long`. -/
def DirentFormat.dIno (fmt : DirentFormat) (ino : Nat) : Nat :=
  (toInt32 ino % 256 ^ fmt.inoBytes).toNat

/-- The record of one entry; `i` is the length of the names before it. -/
def OkfsDirent.record (fmt : DirentFormat) (d : OkfsDirent) (i : Nat) : UserDirent :=
  let n := min 256 (d.nameLen + 1)
  { dIno := fmt.dIno d.ino
    dOff := i
    dReclen := n + fmt.header
    dType := if fmt.hasType then some d.type else none
    dName := d.name.take (n - 1) }

/-- `while (okfs_dir && i < start)`: what is left, and the length of the names skipped. -/
def skipEntries (start : Int) : Nat → List OkfsDirent → Nat × List OkfsDirent
  | i, [] => (i, [])
  | i, d :: ds => if (i : Int) < start then skipEntries start (i + d.nameLen) ds else (i, d :: ds)

/-- The second loop: the records that fit, and the `size` they have. `size` is 32 bits
wide, so the test for the end of the buffer can wrap around and let `okfs_memcpy` pass it. -/
def fillRecords (fmt : DirentFormat) (count : Nat) :
    Nat → Nat → List OkfsDirent → Option (List UserDirent × Nat)
  | _, size, [] => some ([], size)
  | i, size, d :: ds =>
    let newdir := d.record fmt i
    if (newdir.dReclen + size) % 2 ^ 32 > count then some ([], size)
    else if newdir.dReclen + size > count then none
    else
      (fillRecords fmt count (i + d.nameLen) (newdir.dReclen + size) ds).map fun (recs, size) =>
        (newdir :: recs, size)

/-- The body of `creat_dirent64` and `creat_dirent`. -/
def packDirents (fmt : DirentFormat) (okfsDir : List OkfsDirent) (start : Int) (count : Nat) :
    Option (Int × List UserDirent) :=
  match skipEntries start 0 okfsDir with
  | (_, []) => some (0, [])
  | (i, ds) => (fillRecords fmt count i 0 ds).map fun (recs, size) =>
    if size = 0 then (-Errno.EINVAL.code, recs) else (toInt32 size, recs)

def creatDirent64 := packDirents dirent64Format

def creatDirent := packDirents direntFormat

section Source

variable (M : Mount) (v : Vfs)

/-- The body of `okfs_getdents64` and `okfs_getdents`: what is returned and what is
copied to the caller's buffer of `count` bytes. -/
def getdentsWith (creat : List OkfsDirent → Int → Nat → Option (Int × List UserDirent))
    (fd : FileRef) (count : Nat) (raw : Except Errno (List OkfsDirent)) :
    Option (Vfs × Int × List UserDirent) := do
  let filep ← v.files fd
  if count = 0 then some (v, -Errno.EINVAL.code, [])
  else
    let (v, ret) ← okfsDoReaddir M v filep raw
    match ret with
    | .error e => some (v, -e.code, [])
    | .ok dp =>
      let (ret, recs) ← creat dp filep.fPos count
      if ret > 0 then some (v.setFile fd { filep with fPos := filep.fPos + ret }, ret, recs)
      else some (v, ret, [])

def okfsGetdents64 := getdentsWith M v creatDirent64

def okfsGetdents := getdentsWith M v creatDirent

end Source

/-- The two calls that read a directory. -/
inductive GetdentsCall
  | getdents64 | getdents
  deriving DecidableEq, Repr

def GetdentsCall.format : GetdentsCall → DirentFormat
  | .getdents64 => dirent64Format
  | .getdents => direntFormat

def GetdentsCall.run : GetdentsCall → Mount → Vfs → FileRef → Nat →
    Except Errno (List OkfsDirent) → Option (Vfs × Int × List UserDirent)
  | .getdents64 => okfsGetdents64
  | .getdents => okfsGetdents

/-! ## What reading a directory is for -/

/-- The records of a whole listing, in order; `i` is the length of the names before it. -/
def records (fmt : DirentFormat) : Nat → List OkfsDirent → List UserDirent
  | _, [] => []
  | i, d :: ds => d.record fmt i :: records fmt (i + d.nameLen) ds

/-- The call is made until it returns 0; what it delivered on the way. -/
def readAll (call : Vfs → Option (Vfs × Int × List UserDirent)) :
    Nat → Vfs → Option (List UserDirent)
  | 0, _ => none
  | fuel + 1, v => do
    let (v, ret, recs) ← call v
    if ret = 0 then some [] else (readAll call fuel v).map (recs ++ ·)

/-- Reading to the end comes to an end and delivers exactly the records `recs`. The
offset in a record tells apart entries that look alike otherwise. -/
def ReadsAll (c : GetdentsCall) (M : Mount) (v : Vfs) (fd : FileRef) (count : Nat)
    (raw : Except Errno (List OkfsDirent)) (recs : List UserDirent) : Prop :=
  ∃ fuel, readAll (fun v => c.run M v fd count raw) fuel v = some recs

/-- The size of an entry's record. -/
def OkfsDirent.reclen (fmt : DirentFormat) (d : OkfsDirent) : Nat := (d.record fmt 0).dReclen

def recordBytes (fmt : DirentFormat) (ds : List OkfsDirent) : Nat :=
  (ds.map (OkfsDirent.reclen fmt)).sum

def nameBytes (ds : List OkfsDirent) : Nat := (ds.map OkfsDirent.nameLen).sum

/-! ## Lookups leave the open files alone -/

theorem Frame.refl (v : Vfs) : Frame v v := ⟨rfl, rfl, rfl, rfl, rfl⟩

theorem Frame.trans {v v' v'' : Vfs} (h : Frame v v') (h' : Frame v' v'') : Frame v v'' :=
  ⟨h'.backend.trans h.backend, h'.dcache.trans h.dcache, h'.files.trans h.files,
    h'.nextFile.trans h.nextFile, h'.pending.trans h.pending⟩

variable {M : Mount} {v v' : Vfs}

theorem cacheAddInode_frame (n : Nat) (path : CStr) (st : Stat) :
    Frame v (cacheAddInode M { v with nextInode := n } path st).1 := by
  unfold cacheAddInode
  cases sameInoFind { v with nextInode := n } st.stDev st.stIno <;> exact ⟨rfl, rfl, rfl, rfl, rfl⟩

theorem addToCache_frame (dir : Option CStr) (file : CStr) (st : Stat) :
    Frame v (addToCache M v dir file st).1 := by
  cases h : cacheFindInode M v (cachePath M dir file) with
  | some r =>
    rw [addToCache_of_some h]
    exact .refl v
  | none =>
    rw [addToCache_of_none h]
    exact cacheAddInode_frame ..

theorem epLstat_frame (path : CStr) : Frame v (epLstat M v path).1 := by
  unfold epLstat
  cases v.backend.lstat (components slash path) with
  | error e => exact .refl v
  | ok st =>
    cases M.sb.entry with
    | localfs => exact .refl v
    | shfs => exact addToCache_frame ..

theorem okfsDolstat_frame (fullpath path : CStr) :
    Frame v (okfsDolstat M v fullpath path).1 := by
  unfold okfsDolstat
  cases cacheFindInode M v fullpath with
  | some r => exact .refl v
  | none =>
    have hep := epLstat_frame (M := M) (v := v) path
    generalize epLstat M v path = r at hep ⊢
    rcases r with ⟨v', _ | st⟩
    · exact hep
    · simp only
      cases h : cacheFindInode M v' fullpath with
      | some r => exact hep
      | none => exact hep.trans (cacheAddInode_frame v'.nextInode ..)

theorem arglstat_frame (path : CStr) : Frame v (arglstat M v path).1 := by
  unfold arglstat okfsArglstat
  cases mountedFor [M.sb] path with
  | none => exact .refl v
  | some fsp => exact okfsDolstat_frame ..

theorem getParentIno_frame {path : CStr} {ino : Nat} (h : getParentIno M v path = some (v', ino)) :
    Frame v v' := by
  unfold getParentIno at h
  split at h
  · obtain ⟨_, _, heq⟩ := Option.map_eq_some_iff.mp h
    rw [(Prod.mk.inj heq).1]
    exact .refl _
  · obtain ⟨⟨newpath, n⟩, -, heq⟩ := Option.map_eq_some_iff.mp h
    simp only at heq
    have harg := arglstat_frame (M := M) (v := v) newpath
    split at heq
    · rw [← (Prod.mk.inj heq).1]
      exact .refl _
    · split at heq <;> rename_i w _ hw <;> rw [hw] at harg <;> rwa [← (Prod.mk.inj heq).1]

theorem doLsLine_frame (path : CStr) (ds : List OkfsDirent) (line : OkfsDirent) :
    Frame v (doLsLine M path (v, ds) line).1 := by
  unfold doLsLine
  simp only
  split
  · exact .refl v
  · split
    · exact .refl v
    · exact addToCache_frame ..

theorem doLs_frame (path : CStr) (ds lines : List OkfsDirent) :
    Frame v (lines.foldl (doLsLine M path) (v, ds)).1 := by
  induction lines generalizing v ds with
  | nil => exact .refl v
  | cons line lines ih => exact (doLsLine_frame path ds line).trans (ih ..)

theorem shfsReaddir_frame {filep : OkfsFile} {raw ret : Except Errno (List OkfsDirent)}
    (h : shfsReaddir M v filep raw = some (v', ret)) : Frame v v' := by
  unfold shfsReaddir at h
  obtain ⟨curi, -, h⟩ := Option.bind_eq_some_iff.mp h
  obtain ⟨⟨w, pari⟩, hpar, h⟩ := Option.bind_eq_some_iff.mp h
  have hw := getParentIno_frame hpar
  cases raw with
  | error e =>
    rw [← (Prod.mk.inj (Option.some.inj h)).1]
    exact hw
  | ok lines =>
    rw [← (Prod.mk.inj (Option.some.inj h)).1]
    exact hw.trans (doLs_frame ..)

theorem epReaddir_frame {filep : OkfsFile} {raw ret : Except Errno (List OkfsDirent)}
    (h : epReaddir M v filep raw = some (v', ret)) : Frame v v' := by
  unfold epReaddir at h
  cases hs : M.sb.entry with
  | localfs =>
    rw [hs] at h
    rw [← (Prod.mk.inj (Option.some.inj h)).1]
    exact .refl v
  | shfs =>
    rw [hs] at h
    exact shfsReaddir_frame h

/-- A listing that was read is in `dcache` from then on. -/
theorem okfsDoReaddir_cached {filep : OkfsFile} {raw : Except Errno (List OkfsDirent)}
    {ls : List OkfsDirent} (h : okfsDoReaddir M v filep raw = some (v', .ok ls)) :
    v'.files = v.files ∧ cacheFindDirent M v' filep.path = ls := by
  unfold okfsDoReaddir at h
  cases hc : cacheFindDirent M v filep.path with
  | cons d ds =>
    rw [hc] at h
    obtain ⟨rfl, heq⟩ := Prod.mk.inj (Option.some.inj h)
    exact ⟨rfl, hc.trans (Except.ok.inj heq)⟩
  | nil =>
    rw [hc] at h
    obtain ⟨⟨w, ret⟩, hret, h⟩ := Option.bind_eq_some_iff.mp h
    have hw := (epReaddir_frame hret).files
    cases ret with
    | error e => exact absurd h (by simp)
    | ok dp =>
      obtain ⟨rfl, heq⟩ := Prod.mk.inj (Option.some.inj h)
      rw [Except.ok.inj heq]
      exact ⟨hw, by simp [cacheFindDirent, cacheFindDentry, cacheAddDirent]⟩

/-! ## The two loops -/

variable {fmt : DirentFormat} {count i size : Nat} {ds ls : List OkfsDirent}

theorem fillRecords_cons (d : OkfsDirent) (ds : List OkfsDirent) :
    fillRecords fmt count i size (d :: ds) =
      if (d.reclen fmt + size) % 2 ^ 32 > count then some ([], size)
      else if d.reclen fmt + size > count then none
      else
        (fillRecords fmt count (i + d.nameLen) (d.reclen fmt + size) ds).map fun (recs, size) =>
          (d.record fmt i :: recs, size) := rfl

@[simp] theorem recordBytes_cons (d : OkfsDirent) (ds : List OkfsDirent) :
    recordBytes fmt (d :: ds) = d.reclen fmt + recordBytes fmt ds := List.sum_cons

@[simp] theorem nameBytes_cons (d : OkfsDirent) (ds : List OkfsDirent) :
    nameBytes (d :: ds) = d.nameLen + nameBytes ds := List.sum_cons

theorem records_append (i : Nat) (ds es : List OkfsDirent) :
    records fmt i (ds ++ es) = records fmt i ds ++ records fmt (i + nameBytes ds) es := by
  induction ds generalizing i with
  | nil => rfl
  | cons d ds ih => simp [records, ih, Nat.add_assoc]

/-- An entry of at most 255 bytes has its whole name in a record that is longer. -/
theorem nameLen_lt_reclen {d : OkfsDirent} (h : d.nameLen ≤ 255) : d.nameLen < d.reclen fmt := by
  simp only [OkfsDirent.reclen, OkfsDirent.record]
  omega

theorem nameBytes_lt_recordBytes (hne : ds ≠ []) (h : ∀ d ∈ ds, d.nameLen ≤ 255) :
    nameBytes ds < recordBytes fmt ds := by
  induction ds with
  | nil => exact absurd rfl hne
  | cons d ds ih =>
    have hd : d.nameLen < d.reclen fmt := nameLen_lt_reclen (h d (List.mem_cons_self ..))
    rw [nameBytes_cons, recordBytes_cons]
    by_cases hds : ds = []
    · rw [hds]
      exact Nat.add_lt_add_right hd 0
    · have := ih hds fun e he => h e (List.mem_cons_of_mem _ he)
      omega

/-- Every record of the rest starts at or behind the rest. -/
theorem le_dOff {r : UserDirent} (hr : r ∈ records fmt i ds) : i ≤ r.dOff := by
  induction ds generalizing i with
  | nil => cases hr
  | cons d ds ih =>
    rcases List.mem_cons.mp hr with rfl | hr
    · exact Nat.le_refl _
    · exact Nat.le_trans (Nat.le_add_right ..) (ih hr)

/-- Skipping leaves a suffix that starts no earlier than asked for. -/
theorem skipEntries_spec {start : Int} {i' : Nat} {rest : List OkfsDirent}
    (h : skipEntries start i ds = (i', rest)) (hne : rest ≠ []) : start ≤ i' := by
  induction ds generalizing i with
  | nil => exact absurd (Prod.mk.inj h).2.symm hne
  | cons d ds ih =>
    rw [skipEntries] at h
    split at h
    · exact ih h
    · rename_i hi
      rw [← (Prod.mk.inj h).1]
      omega

/-- Skipping to the start or before it skips nothing. -/
theorem skipEntries_of_le {start : Int} (h : start ≤ i) : skipEntries start i ds = (i, ds) := by
  cases ds with
  | nil => rfl
  | cons d ds => rw [skipEntries, if_neg (by omega)]

/-- Skipping more than all the names have leaves nothing. -/
theorem skipEntries_past {start : Int} (h : (i + nameBytes ds : Nat) < start) :
    (skipEntries start i ds).2 = [] := by
  induction ds generalizing i with
  | nil => rfl
  | cons d ds ih =>
    rw [nameBytes_cons] at h
    rw [skipEntries, if_pos (by omega)]
    exact ih (by omega)

/-- What fits is a prefix, recorded in order; an entry is left out only when its record
does not fit any more. -/
theorem fillRecords_spec {recs : List UserDirent} {size' : Nat}
    (h : fillRecords fmt count i size ds = some (recs, size')) :
    ∃ del rest, ds = del ++ rest ∧ recs = records fmt i del ∧
      size' = size + recordBytes fmt del ∧
      (size ≤ count → size' ≤ count) ∧
      (∀ d, rest.head? = some d → count < (d.reclen fmt + size') % 2 ^ 32) := by
  induction ds generalizing i size recs with
  | nil =>
    obtain ⟨rfl, rfl⟩ := Prod.mk.inj (Option.some.inj h)
    exact ⟨[], [], rfl, rfl, rfl, id, fun d hd => by cases hd⟩
  | cons d ds ih =>
    rw [fillRecords_cons] at h
    split at h
    · rename_i hfull
      obtain ⟨rfl, rfl⟩ := Prod.mk.inj (Option.some.inj h)
      refine ⟨[], d :: ds, rfl, rfl, rfl, id, fun e he => ?_⟩
      rw [← Option.some.inj he]
      exact hfull
    · split at h
      · cases h
      · rename_i hfits
        obtain ⟨⟨recs', size₁⟩, hrest, heq⟩ := Option.map_eq_some_iff.mp h
        obtain ⟨rfl, rfl⟩ := Prod.mk.inj heq
        obtain ⟨del, rest, rfl, rfl, rfl, hle, hnext⟩ := ih hrest
        refine ⟨d :: del, rest, rfl, rfl, ?_, fun _ => hle (by omega), hnext⟩
        rw [recordBytes_cons]
        omega

/-- A listing that fits is packed whole. -/
theorem fillRecords_all (h : size + recordBytes fmt ds ≤ count) (hwidth : count < 2 ^ 32) :
    fillRecords fmt count i size ds = some (records fmt i ds, size + recordBytes fmt ds) := by
  induction ds generalizing i size with
  | nil => rfl
  | cons d ds ih =>
    rw [recordBytes_cons] at h
    have hmod : (d.reclen fmt + size) % 2 ^ 32 = d.reclen fmt + size := Nat.mod_eq_of_lt (by omega)
    rw [fillRecords_cons, hmod, if_neg (by omega), if_neg (by omega), ih (by omega),
      recordBytes_cons, Option.map_some, records]
    have hsum : d.reclen fmt + size + recordBytes fmt ds =
        size + (d.reclen fmt + recordBytes fmt ds) := by omega
    rw [hsum]

/-! ## One call after another -/

/-- The descriptor stands at `c` in a directory whose listing is cached. -/
def Ready (M : Mount) (v : Vfs) (fd : FileRef) (c : Int) (ls : List OkfsDirent) : Prop :=
  ∃ filep, v.files fd = some filep ∧ filep.fPos = c ∧ cacheFindDirent M v filep.path = ls

variable {g : GetdentsCall} {fd : FileRef} {c : Int} {raw : Except Errno (List OkfsDirent)}
  {recs : List UserDirent}

theorem GetdentsCall.run_eq (g : GetdentsCall) :
    g.run M v fd count raw = getdentsWith M v (packDirents g.format) fd count raw := by
  cases g <;> rfl

/-- A call packs the listing from where the descriptor stands, and moves the descriptor
by what it returns. -/
theorem run_of_listing {filep : OkfsFile} (hfile : v.files fd = some filep) (hcount : 0 < count)
    (hlisting : okfsDoReaddir M v filep raw = some (v', .ok ls)) :
    g.run M v fd count raw =
      match packDirents g.format ls filep.fPos count with
      | none => none
      | some (ret, recs) =>
        if ret > 0 then some (v'.setFile fd { filep with fPos := filep.fPos + ret }, ret, recs)
        else some (v', ret, []) := by
  rw [g.run_eq, getdentsWith, hfile]
  simp only [Option.bind_eq_bind, Option.bind_some, if_neg (Nat.ne_of_gt hcount), hlisting]
  cases packDirents g.format ls filep.fPos count <;> rfl

/-- On a cached listing. -/
theorem Ready.run (h : Ready M v fd c ls) (hne : ls ≠ []) (hcount : 0 < count) (g : GetdentsCall)
    (raw : Except Errno (List OkfsDirent)) :
    ∃ v₁ : Int → Vfs, (∀ c', Ready M (v₁ c') fd c' ls) ∧
      g.run M v fd count raw =
        match packDirents g.format ls c count with
        | none => none
        | some (ret, recs) =>
          if ret > 0 then some (v₁ (c + ret), ret, recs) else some (v, ret, []) := by
  obtain ⟨filep, hfile, rfl, hcached⟩ := h
  refine ⟨fun c' => v.setFile fd { filep with fPos := c' }, fun c' => ?_, ?_⟩
  · exact ⟨{ filep with fPos := c' }, Function.update_self .., rfl, hcached⟩
  · obtain ⟨d, ds, rfl⟩ := List.exists_cons_of_ne_nil hne
    exact run_of_listing hfile hcount (by rw [okfsDoReaddir, hcached])

/-- What is left after skipping is packed, if anything is left. -/
theorem packDirents_of_skip {e : OkfsDirent} {es : List OkfsDirent}
    (h : skipEntries c 0 ls = (i, e :: es)) :
    packDirents fmt ls c count =
      match fillRecords fmt count i 0 (e :: es) with
      | none => none
      | some (recs, size) =>
        some (if size = 0 then -Errno.EINVAL.code else toInt32 size, recs) := by
  rw [packDirents, h]
  simp only
  rcases fillRecords fmt count i 0 (e :: es) with _ | ⟨recs, size⟩
  · rfl
  · by_cases hsize : size = 0 <;> simp [hsize]

/-- Nothing is delivered from before the place where the descriptor stands. -/
theorem le_dOff_of_packDirents {ret : Int} (h : packDirents fmt ls c count = some (ret, recs))
    {r : UserDirent} (hr : r ∈ recs) : c ≤ r.dOff := by
  rcases hskip : skipEntries c 0 ls with ⟨i', _ | ⟨e, es⟩⟩
  · rw [packDirents, hskip] at h
    rw [← (Prod.mk.inj (Option.some.inj h)).2] at hr
    cases hr
  · rw [packDirents_of_skip hskip] at h
    rcases hfill : fillRecords fmt count i' 0 (e :: es) with _ | ⟨recs', size⟩
    · rw [hfill] at h
      cases h
    · rw [hfill] at h
      obtain ⟨del, rest, -, hdel, -, -⟩ := fillRecords_spec hfill
      have hi : c ≤ i' := skipEntries_spec hskip (by simp)
      rw [← (Prod.mk.inj (Option.some.inj h)).2, hdel] at hr
      have := le_dOff hr
      omega

variable {call : Vfs → Option (Vfs × Int × List UserDirent)} {ret : Int}

theorem readAll_of_none (h : call v = none) (fuel : Nat) : readAll call fuel v = none := by
  cases fuel with
  | zero => rfl
  | succ fuel => rw [readAll, h]; rfl

theorem readAll_of_zero (h : call v = some (v', 0, recs)) (fuel : Nat) :
    readAll call (fuel + 1) v = some [] := by
  rw [readAll, h]
  rfl

theorem readAll_of_ne_zero (h : call v = some (v', ret, recs)) (hret : ret ≠ 0) (fuel : Nat) :
    readAll call (fuel + 1) v = (readAll call fuel v').map (recs ++ ·) := by
  rw [readAll, h]
  simp [hret]

/-- A call that fails and moves nothing is repeated for ever. -/
theorem readAll_of_stuck (h : call v = some (v, ret, [])) (hret : ret ≠ 0) (fuel : Nat) :
    readAll call fuel v = none := by
  induction fuel with
  | zero => rfl
  | succ fuel ih =>
    rw [readAll_of_ne_zero h hret, ih]
    rfl

/-- From a place behind `x` on, nothing is delivered from `x` or before it. -/
theorem lt_dOff_of_readAll {x : Int} (hne : ls ≠ []) (hcount : 0 < count) (fuel : Nat) :
    ∀ {v c recs}, Ready M v fd c ls → x < c →
      readAll (fun v => g.run M v fd count raw) fuel v = some recs → ∀ r ∈ recs, x < r.dOff := by
  induction fuel with
  | zero => exact fun _ _ hread => by cases hread
  | succ fuel ih =>
    intro v c recs hready hx hread r hr
    obtain ⟨v₁, hready₁, hrun⟩ := hready.run hne hcount g raw
    rcases hpack : packDirents g.format ls c count with _ | ⟨ret, recs₁⟩
    · rw [hpack] at hrun
      rw [readAll_of_none hrun] at hread
      cases hread
    · rw [hpack] at hrun
      simp only at hrun
      rcases Int.lt_trichotomy ret 0 with hret | hret | hret
      · rw [if_neg (by omega)] at hrun
        rw [readAll_of_stuck hrun (by omega)] at hread
        cases hread
      · rw [if_neg (by omega), hret] at hrun
        rw [readAll_of_zero hrun] at hread
        rw [← Option.some.inj hread] at hr
        cases hr
      · rw [if_pos hret] at hrun
        rw [readAll_of_ne_zero hrun (by omega)] at hread
        obtain ⟨recs₂, hrest, rfl⟩ := Option.map_eq_some_iff.mp hread
        rcases List.mem_append.mp hr with hr | hr
        · exact Int.lt_of_lt_of_le hx (le_dOff_of_packDirents hpack hr)
        · exact ih (hready₁ _) (by omega) hrest r hr

/-- What is returned for `n` bytes of records. -/
theorem toInt32_of_lt {n : Nat} (h : n < 2 ^ 31) : toInt32 n = n := by
  rw [toInt32, if_pos h]

theorem toInt32_neg {n : Nat} (h : 2 ^ 31 ≤ n) (hwidth : n < 2 ^ 32) : toInt32 n < 0 := by
  rw [toInt32, if_neg (by omega)]
  omega

theorem Ready.readsAll_of_fits (h : Ready M v fd 0 ls) (hne : ls ≠ []) (hcount : 0 < count)
    (hnames : ∀ d ∈ ls, d.nameLen ≤ 255) (hfit : ∀ d ∈ ls, d.reclen g.format ≤ count)
    (hwidth : count < 2 ^ 32) :
    ReadsAll g M v fd count raw (records g.format 0 ls) ↔
      recordBytes g.format ls ≤ count ∧ recordBytes g.format ls < 2 ^ 31 := by
  obtain ⟨v₁, hready₁, hrun⟩ := h.run hne hcount g raw
  obtain ⟨e, es, rfl⟩ := List.exists_cons_of_ne_nil hne
  rw [packDirents_of_skip (skipEntries_of_le (Int.le_refl 0))] at hrun
  constructor
  · rintro ⟨fuel, hread⟩
    rcases hfill : fillRecords g.format count 0 0 (e :: es) with _ | ⟨recs, size⟩
    · rw [hfill] at hrun
      rw [readAll_of_none hrun] at hread
      cases hread
    · obtain ⟨del, rest, hsplit, hrecs, hsize, hle, hnext⟩ := fillRecords_spec hfill
      rw [Nat.zero_add] at hsize
      -- the first record fits, so something is delivered
      have hdel : del ≠ [] := by
        rintro rfl
        have hbig := hnext e (by rw [← List.nil_append rest, ← hsplit]; rfl)
        have hfits := hfit e (List.mem_cons_self ..)
        have hmod := Nat.mod_le (e.reclen g.format + size) (2 ^ 32)
        rw [show size = 0 from hsize] at hbig hmod
        omega
      have hlt : nameBytes del < recordBytes g.format del :=
        nameBytes_lt_recordBytes hdel fun d hd => hnames d (by simp [hsplit, hd])
      have hsize_le : size ≤ count := hle (Nat.zero_le _)
      rw [hfill] at hrun
      simp only [if_neg (show ¬ size = 0 by omega)] at hrun
      by_cases hsigned : size < 2 ^ 31
      · rw [toInt32_of_lt hsigned, if_pos (by omega)] at hrun
        cases fuel with
        | zero => cases hread
        | succ fuel =>
          rw [readAll_of_ne_zero hrun (by omega)] at hread
          obtain ⟨recs', hrest, happ⟩ := Option.map_eq_some_iff.mp hread
          rw [hrecs, hsplit, records_append, List.append_cancel_left_eq] at happ
          cases rest with
          | nil =>
            rw [List.append_nil] at hsplit
            rw [hsplit, ← hsize]
            exact ⟨hsize_le, hsigned⟩
          | cons d ds =>
            -- the next entry starts where the delivered names end, and is skipped
            have hlater := lt_dOff_of_readAll (x := nameBytes del) hne hcount fuel (hready₁ _)
              (by omega) hrest
            have := hlater (d.record g.format (0 + nameBytes del))
              (by rw [happ]; exact List.mem_cons_self ..)
            simp only [OkfsDirent.record] at this
            omega
      · have hneg := toInt32_neg (n := size) (by omega) (by omega)
        rw [if_neg (by omega)] at hrun
        rw [readAll_of_stuck hrun (by omega)] at hread
        cases hread
  · rintro ⟨htotal, hsigned⟩
    have hpos : nameBytes (e :: es) < recordBytes g.format (e :: es) :=
      nameBytes_lt_recordBytes hne hnames
    generalize htot : recordBytes g.format (e :: es) = total at htotal hsigned hpos
    rw [fillRecords_all (by omega) hwidth, htot, Nat.zero_add] at hrun
    simp only [if_neg (show ¬ total = 0 by omega)] at hrun
    rw [toInt32_of_lt hsigned, if_pos (by omega)] at hrun
    -- the second call finds nothing left
    obtain ⟨v₂, -, hrun₂⟩ := (hready₁ (0 + total)).run hne hcount g raw
    have hend : packDirents g.format (e :: es) (0 + total) count = some (0, []) := by
      have hskip : (skipEntries (0 + total) 0 (e :: es)).2 = [] := skipEntries_past (by omega)
      rw [packDirents]
      rcases hs : skipEntries (0 + total) 0 (e :: es) with ⟨i', rest⟩
      rw [hs] at hskip
      rw [show rest = [] from hskip]
    rw [hend] at hrun₂
    simp only [if_neg (show ¬ (0 : Int) > 0 by omega)] at hrun₂
    refine ⟨2, ?_⟩
    rw [readAll_of_ne_zero hrun (by omega), readAll_of_zero hrun₂, Option.map_some, List.append_nil]

/-- **Reading a directory.** On a fresh descriptor, with a buffer that holds every
record, either call delivers the listing exactly when all of it fits into the buffer
at once, and its size into an `int`. -/
theorem readsAll_iff {filep : OkfsFile} (hfile : v.files fd = some filep) (hpos : filep.fPos = 0)
    (hlisting : okfsDoReaddir M v filep raw = some (v', .ok ls))
    (hnames : ∀ d ∈ ls, d.nameLen ≤ 255) (hfit : ∀ d ∈ ls, d.reclen g.format ≤ count)
    (hwidth : count < 2 ^ 32) :
    ReadsAll g M v fd count raw (records g.format 0 ls) ↔
      0 < count ∧ recordBytes g.format ls ≤ count ∧ recordBytes g.format ls < 2 ^ 31 := by
  by_cases hcount : 0 < count
  · have hcall := run_of_listing (g := g) hfile hcount hlisting
    obtain ⟨hfiles, hcached⟩ := okfsDoReaddir_cached hlisting
    by_cases hne : ls = []
    · subst hne
      have hzero : g.run M v fd count raw = some (v', 0, []) := hcall
      refine ⟨fun _ => ⟨hcount, Nat.zero_le _, by simp [recordBytes]⟩, fun _ => ⟨1, ?_⟩⟩
      exact readAll_of_zero hzero 0
    · have hready : Ready M v' fd 0 ls := ⟨filep, hfiles ▸ hfile, hpos, hcached⟩
      -- the first call too could as well have found the listing cached
      have hsame : g.run M v fd count raw = g.run M v' fd count raw := by
        obtain ⟨d, ds, rfl⟩ := List.exists_cons_of_ne_nil hne
        have hagain : okfsDoReaddir M v' filep raw = some (v', .ok (d :: ds)) := by
          rw [okfsDoReaddir, hcached]
        rw [hcall, run_of_listing (hfiles ▸ hfile) hcount hagain]
      have hreads : ∀ fuel, readAll (fun v => g.run M v fd count raw) fuel v =
          readAll (fun v => g.run M v fd count raw) fuel v' := by
        intro fuel
        cases fuel with
        | zero => rfl
        | succ fuel => simp only [readAll, hsame]
      have hiff : ReadsAll g M v' fd count raw (records g.format 0 ls) ↔ _ :=
        hready.readsAll_of_fits hne hcount hnames hfit hwidth
      simp only [ReadsAll, hreads, hcount, true_and] at hiff ⊢
      exact hiff
  · have hstuck : g.run M v fd count raw = some (v, -Errno.EINVAL.code, []) := by
      rw [g.run_eq, getdentsWith, hfile]
      simp [Nat.eq_zero_of_not_pos hcount]
    constructor
    · rintro ⟨fuel, hread⟩
      rw [readAll_of_stuck hstuck (by decide)] at hread
      cases hread
    · exact fun h => absurd h.1 hcount

/-! ## A small directory -/

/-- The mount point of a backend that has nothing else, open as descriptor 0; its
listing is cached. -/
def smallDirectory : Vfs :=
  let listing : List OkfsDirent :=
    [⟨3, DT_UNKNOWN, ascii "a"⟩, ⟨1, DT_DIR, ascii ".."⟩, ⟨2, DT_DIR, ascii "."⟩]
  (cacheAddDirent localMount (Vfs.mounted .rootOnly) (ascii "/mnt") listing).setFile 0
    ⟨ascii "/mnt", [], none, 0, 0, 0, false⟩

/-- The three entries take 63 bytes. -/
theorem readsAll_iff_smallDirectory :
    ReadsAll .getdents64 localMount smallDirectory 0 4096 (.ok [])
        (records dirent64Format 0 (cacheFindDirent localMount smallDirectory (ascii "/mnt"))) ↔
      0 < 4096 ∧
        recordBytes dirent64Format (cacheFindDirent localMount smallDirectory (ascii "/mnt")) ≤ 4096 ∧
        recordBytes dirent64Format (cacheFindDirent localMount smallDirectory (ascii "/mnt")) <
          2 ^ 31 :=
  readsAll_iff (g := .getdents64)
    (show smallDirectory.files 0 = some ⟨ascii "/mnt", [], none, 0, 0, 0, false⟩ from rfl) rfl
    (show okfsDoReaddir localMount smallDirectory _ _ = some (smallDirectory, .ok _) from rfl)
    (by decide) (by decide) (by decide)

/-- With 24 bytes of buffer the first call delivers `a`; the second one skips the other
two entries, whose records the buffer would hold. -/
theorem smallDirectory_not_readsAll :
    ∃ (v v' : Vfs) (filep : OkfsFile) (ls : List OkfsDirent) (count : Nat),
      v.files 0 = some filep ∧ filep.fPos = 0 ∧
      okfsDoReaddir localMount v filep (.ok []) = some (v', .ok ls) ∧
      (∀ d ∈ ls, d.name ≠ [] ∧ d.nameLen ≤ 255) ∧ (∀ d ∈ ls, d.reclen dirent64Format ≤ count) ∧
      ¬ ReadsAll .getdents64 localMount v 0 count (.ok []) (records dirent64Format 0 ls) := by
  refine ⟨smallDirectory, smallDirectory, ⟨ascii "/mnt", [], none, 0, 0, 0, false⟩,
    [⟨3, DT_UNKNOWN, ascii "a"⟩, ⟨1, DT_DIR, ascii ".."⟩, ⟨2, DT_DIR, ascii "."⟩], 24,
    rfl, rfl, rfl, by decide, by decide, fun hreads => ?_⟩
  have hready : Ready localMount smallDirectory 0 0
      [⟨3, DT_UNKNOWN, ascii "a"⟩, ⟨1, DT_DIR, ascii ".."⟩, ⟨2, DT_DIR, ascii "."⟩] :=
    ⟨⟨ascii "/mnt", [], none, 0, 0, 0, false⟩, rfl, rfl, rfl⟩
  have hfits := (hready.readsAll_of_fits (g := .getdents64) (by decide) (by decide) (by decide)
    (by decide) (by decide)).mp hreads
  exact absurd hfits.1 (by decide)

end Okfs
