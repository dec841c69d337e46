import Okfs.Lib.Runs
import Okfs.Vfs.Dispatch
import Okfs.Vfs.Namei
import Okfs.Shfs.MountSpec

/-!
# OKFS — mounting from fstab

`mount_from_fstab` calls `add_entry_point` for each entry of a table of filesystems. An entry goes
through the checks of `add_entry_point`, then through those of its filesystem, and is put in front
of `mounted_fs` if it passes all of them. `is_dir` is among them twice, and takes directories for
what they are not.
-/

namespace Okfs

open Runs

-- ---------------------------------------------------------------------------
-- The source
-- ---------------------------------------------------------------------------

/-- `struct mntent`, the fields that are handed on. -/
structure FstabEntry where
  mntFsname : CStr
  mntDir : CStr
  mntType : CStr
  mntOpts : CStr

/-- What is outside of OKFS while an entry is added: Linux, the servers of what is mounted, and the
connection that is asked for. -/
structure MountHost where
  stat : CStr → Except Errno FileType
  lstat : CStr → Except Errno FileType
  readlink : CStr → Nat → Except Errno CStr
  okfsDolstat : OkfsSuperblock → CStr → CStr → Except Errno FileType
  entryReadlink : OkfsSuperblock → Option (CStr → Nat → Except Errno CStr)
  sys : Shfs.System
  /-- What an uninitialised local of `parse_options` holds. -/
  stack : Int
  /-- The socket of `create_socket_sh`. -/
  createSocketSh : Shfs.MountData → Option Nat
  /-- Linux has no links with longer texts. -/
  readlink_short : ∀ path text, readlink path PATH_MAX = .ok text → text.length < PATH_MAX

structure MountCall extends FstabEntry where
  host : MountHost

/-- `struct okfs_superblock` as it is mounted. -/
structure MountedFs where
  mntPoint : CStr
  mntPointLen : Nat
  fsSpec : CStr
  fsSpecLen : Nat
  entry : FsType
  mntOpts : CStr
  /-- The data of shfs, and its socket. -/
  fsdata : Option (Shfs.MountData × Nat)
  deriving DecidableEq

/-- What dispatch reads of it. -/
def MountedFs.superblock (m : MountedFs) : OkfsSuperblock := ⟨m.mntPoint, m.fsSpec, m.entry⟩

namespace MountHost

/-- 0 is `.ok`, and -1 an `errno`. -/
def isDir (host : MountHost) (path : CStr) : Except Errno Unit :=
  match host.stat path with
  | .error e => .error e
  | .ok stMode => if stMode = .dir then .error .ENOTDIR else .ok ()

/-- The tree that the resolver sees through what is mounted. -/
def namei (host : MountHost) (mountedFs : List MountedFs) : NameiFs where
  arglstat path :=
    okfsArglstat host.lstat host.okfsDolstat (mountedFs.map MountedFs.superblock) path
  argreadlink path :=
    okfsArgreadlink host.readlink host.entryReadlink (mountedFs.map MountedFs.superblock) path
      PATH_MAX

/-- `canonicalize(NULL, name)`; there is no result where it writes behind its buffer. -/
def canonicalize (host : MountHost) (mountedFs : List MountedFs) (name : CStr) :
    Option (Except Errno CStr) :=
  match canonical (host.namei mountedFs) none (some name) true with
  | .returned r => some r
  | _ => none

end MountHost

/-- The rows of `fs_table`. -/
def fsTable : List (CStr × FsType) := [(ascii "localfs", .localfs), (ascii "shfs", .shfs)]

namespace MountHost

def localfsMount (host : MountHost) (mountedFs : List MountedFs) (mi : MountedFs) :
    Option (Except Unit MountedFs) :=
  if mi.fsSpec.head? ≠ some slash then some (.error ())
  else if mi.mntOpts ≠ [] then some (.error ())
  else
    match host.isDir mi.fsSpec with
    | .error _ => some (.error ())
    | .ok () =>
      match host.canonicalize mountedFs mi.fsSpec with
      | none => none
      | some (.error _) => some (.error ())
      | some (.ok srcdir) => some (.ok { mi with fsSpec := srcdir, fsSpecLen := srcdir.length })

def shfsMount (host : MountHost) (mi : MountedFs) : Option (Except Unit MountedFs) :=
  match Shfs.shfsMountData host.sys host.stack mi.fsSpec mi.mntOpts with
  | none => none
  | some (.error ()) => some (.error ())
  | some (.ok dp) =>
    match host.createSocketSh dp with
    | none => some (.error ())
    | some sock => some (.ok { mi with fsdata := some (dp, sock) })

/-- The `mount` slot of a row. -/
def entryMount (host : MountHost) (mountedFs : List MountedFs) (mi : MountedFs) :
    Option (Except Unit MountedFs) :=
  match mi.entry with
  | .localfs => host.localfsMount mountedFs mi
  | .shfs => host.shfsMount mi

end MountHost

/-- The list behind a call. -/
def addEntryPoint (mountedFs : List MountedFs) (c : MountCall) : Option (List MountedFs) :=
  match fsTable.find? fun row => row.1 = c.mntType with
  | none => some mountedFs
  | some row =>
    if c.mntDir.head? ≠ some slash then some mountedFs
    else if c.mntFsname.length = 0 then some mountedFs
    else
      match c.host.isDir c.mntDir with
      | .error _ => some mountedFs
      | .ok () =>
        match c.host.canonicalize mountedFs c.mntDir with
        | none => none
        | some (.error _) => some mountedFs
        | some (.ok mntPoint) =>
          let newPoint : MountedFs :=
            { mntPoint
              mntPointLen := mntPoint.length
              fsSpec := c.mntFsname
              fsSpecLen := c.mntFsname.length
              entry := row.2
              mntOpts := c.mntOpts
              fsdata := none }
          match c.host.entryMount mountedFs newPoint with
          | none => none
          | some (.error ()) => some mountedFs
          | some (.ok newPoint) => some (newPoint :: mountedFs)

/-- The list behind all entries. -/
def mountFromFstab (calls : List MountCall) : Option (List MountedFs) :=
  exec addEntryPoint [] calls

-- ---------------------------------------------------------------------------
-- What is to be mounted
-- ---------------------------------------------------------------------------

/-- The file is there, and of such a kind. -/
def MountHost.Is (host : MountHost) (kind : FileType → Bool) (path : CStr) : Prop :=
  ∃ stMode, host.stat path = .ok stMode ∧ kind stMode = true

instance (host : MountHost) (kind : FileType → Bool) (path : CStr) :
    Decidable (host.Is kind path) := by
  unfold MountHost.Is
  cases h : host.stat path with
  | error e => exact isFalse (by rintro ⟨_, h', -⟩; cases h')
  | ok stMode => exact decidable_of_iff (kind stMode = true) (by simp)

/-- The canonical name. -/
def MountHost.resolved (host : MountHost) (mountedFs : List MountedFs) (name : CStr) :
    Option CStr :=
  match host.canonicalize mountedFs name with
  | some (.ok path) => some path
  | _ => none

/-- The type that `fs_table` has for a name. -/
def fsTypeNamed (name : CStr) : Option FsType :=
  if name = ascii "localfs" then some .localfs
  else if name = ascii "shfs" then some .shfs
  else none

/-- What the filesystem of an entry mounts: the source, and the data of shfs. The source of localfs
is to be of such a kind. -/
def sourceOf (kind : FileType → Bool) (mountedFs : List MountedFs) (c : MountCall) :
    FsType → Option (CStr × Option (Shfs.MountData × Nat))
  | .localfs =>
    if c.mntFsname.head? = some slash ∧ c.mntOpts = [] ∧ c.host.Is kind c.mntFsname then
      (c.host.resolved mountedFs c.mntFsname).map fun srcdir => (srcdir, none)
    else none
  | .shfs =>
    match Shfs.shfsMountData c.host.sys c.host.stack c.mntFsname c.mntOpts with
    | some (.ok dp) => (c.host.createSocketSh dp).map fun sock => (c.mntFsname, some (dp, sock))
    | _ => none

/-- What an entry mounts; the mount point is to be of such a kind, too. -/
def mountedBy (kind : FileType → Bool) (mountedFs : List MountedFs) (c : MountCall) :
    Option MountedFs :=
  if c.mntDir.head? = some slash ∧ c.mntFsname ≠ [] ∧ c.host.Is kind c.mntDir then do
    let fs ← fsTypeNamed c.mntType
    let mntPoint ← c.host.resolved mountedFs c.mntDir
    let (fsSpec, fsdata) ← sourceOf kind mountedFs c fs
    some
      { mntPoint
        mntPointLen := mntPoint.length
        fsSpec
        fsSpecLen := fsSpec.length
        entry := fs
        mntOpts := c.mntOpts
        fsdata }
  else none

def directory (stMode : FileType) : Bool := stMode = .dir

/-- The list behind an entry: what it mounts is in front, or nothing has changed. -/
def mountEntry (kind : FileType → Bool) (mountedFs : List MountedFs) (c : MountCall) :
    List MountedFs :=
  match mountedBy kind mountedFs c with
  | some m => m :: mountedFs
  | none => mountedFs

/-- After every entry the list holds what the entries so far mount on directories. -/
def FstabMounted (calls : List MountCall) : Prop :=
  ∀ before, before <+: calls →
    mountFromFstab before = some (before.foldl (mountEntry directory) [])

/-- The name can be resolved while nothing is mounted. -/
def MountHost.Resolves (host : MountHost) (name : CStr) : Prop :=
  ∃ path, host.canonicalize [] name = some (.ok path)

/-- The filesystem mounts the source. -/
def SourceFit (kind : FileType → Bool) (c : MountCall) : FsType → Prop
  | .localfs =>
    c.mntFsname.head? = some slash ∧ c.mntOpts = [] ∧ c.host.Is kind c.mntFsname ∧
      c.host.Resolves c.mntFsname
  | .shfs =>
    ∃ dp sock, Shfs.shfsMountData c.host.sys c.host.stack c.mntFsname c.mntOpts = some (.ok dp) ∧
      c.host.createSocketSh dp = some sock

/-- An entry that has nothing wrong with it if what it names is of such a kind. -/
structure Fit (kind : FileType → Bool) (c : MountCall) : Prop where
  absolute : c.mntDir.head? = some slash
  source : c.mntFsname ≠ []
  is : c.host.Is kind c.mntDir
  resolves : c.host.Resolves c.mntDir
  mounts : ∃ fs, fsTypeNamed c.mntType = some fs ∧ SourceFit kind c fs

/-- What the code takes for a directory. -/
def notDirectory (stMode : FileType) : Bool := !directory stMode

-- ---------------------------------------------------------------------------
-- One entry, while nothing is mounted
-- ---------------------------------------------------------------------------

variable {kind : FileType → Bool} {c : MountCall} {host : MountHost} {name : CStr}
  {mountedFs : List MountedFs}

/-- Linux's links are not too long for the buffer of the resolver. -/
theorem MountHost.canonicalize_nil (habs : name.head? = some slash) :
    ∃ r, host.canonicalize [] name = some r := by
  obtain ⟨r, hwalk⟩ : ∃ r, PathWalk.Walk (host.namei []).rules true 0 [] name r :=
    PathWalk.Walk.total 0 [] name
  have hagrees : Agrees (host.namei []) r
      (canonicalFor (host.namei []) (turnsLeft 0 name) none (some name) true) :=
    canonicalFor_absolute habs hwalk (Nat.le_refl _)
  rcases hagrees with h | ⟨-, -, path, l, hl, hlong⟩
  · refine ⟨r.map canonPath, ?_⟩
    rw [MountHost.canonicalize, canonical, Option.getD_some, h]
  · exact absurd (host.readlink_short path l hl) (Nat.not_lt.mpr hlong)

theorem MountHost.resolved_isSome :
    (∃ path, host.resolved [] name = some path) ↔ host.Resolves name := by
  unfold MountHost.resolved MountHost.Resolves
  constructor
  · rintro ⟨path, h⟩
    split at h
    · exact ⟨_, by assumption⟩
    · cases h
  · rintro ⟨path, h⟩
    rw [h]
    exact ⟨path, rfl⟩

/-- `is_dir` returns 0 exactly for what is there and no directory. -/
theorem MountHost.isDir_ok_iff {path : CStr} : host.isDir path = .ok () ↔ host.Is notDirectory path := by
  unfold MountHost.isDir MountHost.Is
  cases host.stat path with
  | error e =>
    refine iff_of_false (fun h => by cases h) ?_
    rintro ⟨_, h, -⟩
    cases h
  | ok stMode =>
    dsimp only
    by_cases hdir : stMode = .dir
    · rw [if_pos hdir]
      refine iff_of_false (fun h => by cases h) ?_
      rintro ⟨_, h, hnot⟩
      rw [Except.ok.injEq] at h
      rw [← h, hdir] at hnot
      cases hnot
    · rw [if_neg hdir]
      refine iff_of_true rfl ⟨stMode, rfl, ?_⟩
      rw [notDirectory, directory, decide_eq_false hdir, Bool.not_false]

theorem fsTable_find : (fsTable.find? fun row => row.1 = name) =
    (fsTypeNamed name).map fun fs => (name, fs) := by
  unfold fsTypeNamed fsTable
  by_cases hlocal : name = ascii "localfs"
  · rw [if_pos hlocal, hlocal]
    rfl
  · rw [if_neg hlocal, List.find?_cons_of_neg (by simpa using Ne.symm hlocal)]
    by_cases hshfs : name = ascii "shfs"
    · rw [if_pos hshfs, hshfs]
      rfl
    · rw [if_neg hshfs, List.find?_cons_of_neg (by simpa using Ne.symm hshfs)]
      rfl

/-- What the `mount` slot of a row does. -/
theorem MountHost.entryMount_nil (c : MountCall) (fs : FsType) (mntPoint : CStr) :
    c.host.entryMount [] ⟨mntPoint, mntPoint.length, c.mntFsname, c.mntFsname.length, fs, c.mntOpts,
        none⟩ =
      some (match sourceOf notDirectory [] c fs with
        | some (fsSpec, fsdata) =>
          .ok ⟨mntPoint, mntPoint.length, fsSpec, fsSpec.length, fs, c.mntOpts, fsdata⟩
        | none => .error ()) := by
  cases fs with
  | localfs =>
    unfold MountHost.entryMount MountHost.localfsMount sourceOf MountHost.resolved
    dsimp only
    by_cases habs : c.mntFsname.head? = some slash
    · rw [if_neg (not_not.mpr habs)]
      by_cases hopts : c.mntOpts = []
      · rw [if_neg (not_not.mpr hopts)]
        by_cases his : c.host.Is notDirectory c.mntFsname
        · obtain ⟨r, hr⟩ := c.host.canonicalize_nil habs
          rw [MountHost.isDir_ok_iff.mpr his, if_pos ⟨habs, hopts, his⟩, hr]
          cases r with
          | error e => rfl
          | ok srcdir => rfl
        · rw [if_neg (fun h => his h.2.2)]
          split
          · rfl
          · exact absurd (MountHost.isDir_ok_iff.mp (by assumption)) his
      · rw [if_pos hopts, if_neg (fun h => hopts h.2.1)]
    · rw [if_pos habs, if_neg (fun h => habs h.1)]
  | shfs =>
    unfold MountHost.entryMount MountHost.shfsMount sourceOf
    dsimp only
    obtain ⟨r, hr⟩ : ∃ r, Shfs.shfsMountData c.host.sys c.host.stack c.mntFsname c.mntOpts = some r :=
      Shfs.FsSpec.shfsMountData_isSome c.mntFsname
    rw [hr]
    cases r with
    | error u => rfl
    | ok dp =>
      dsimp only
      cases c.host.createSocketSh dp with
      | none => rfl
      | some sock => rfl

/-- The code mounts an entry on what is no directory. -/
theorem addEntryPoint_nil (c : MountCall) :
    addEntryPoint [] c = some (mountEntry notDirectory [] c) := by
  unfold addEntryPoint mountEntry mountedBy
  rw [fsTable_find]
  cases fsTypeNamed c.mntType with
  | none => simp only [Option.map_none, Option.bind_eq_bind, Option.bind_none, ite_self]
  | some fs =>
    rw [Option.map_some]
    dsimp only
    by_cases habs : c.mntDir.head? = some slash
    · rw [if_neg (not_not.mpr habs)]
      by_cases hsource : c.mntFsname = []
      · rw [if_pos (List.length_eq_zero_iff.mpr hsource), if_neg (fun h => h.2.1 hsource)]
      · rw [if_neg (fun h => hsource (List.length_eq_zero_iff.mp h))]
        by_cases his : c.host.Is notDirectory c.mntDir
        · obtain ⟨r, hr⟩ := c.host.canonicalize_nil habs
          rw [MountHost.isDir_ok_iff.mpr his, if_pos ⟨habs, hsource, his⟩, MountHost.resolved, hr]
          cases r with
          | error e => rfl
          | ok mntPoint =>
            dsimp only
            rw [MountHost.entryMount_nil]
            cases hof : sourceOf notDirectory [] c fs with
            | none => simp only [Option.bind_eq_bind, Option.bind_some, hof, Option.bind_none]
            | some source => simp only [Option.bind_eq_bind, Option.bind_some, hof]
        · rw [if_neg (fun h => his h.2.2)]
          split
          · rfl
          · exact absurd (MountHost.isDir_ok_iff.mp (by assumption)) his
    · rw [if_pos habs, if_neg (fun h => habs h.1)]

theorem sourceOf_nil_iff {fs : FsType} :
    (∃ source, sourceOf kind [] c fs = some source) ↔ SourceFit kind c fs := by
  unfold sourceOf SourceFit
  cases fs with
  | localfs =>
    dsimp only
    by_cases h : c.mntFsname.head? = some slash ∧ c.mntOpts = [] ∧ c.host.Is kind c.mntFsname
    · rw [if_pos h, ← MountHost.resolved_isSome]
      cases c.host.resolved [] c.mntFsname with
      | none => simp
      | some srcdir => simpa using h
    · rw [if_neg h]
      refine iff_of_false (fun hex => by obtain ⟨_, hex⟩ := hex; cases hex) ?_
      rintro ⟨habs, hopts, his, -⟩
      exact h ⟨habs, hopts, his⟩
  | shfs =>
    dsimp only
    constructor
    · rintro ⟨source, h⟩
      split at h
      · rename_i dp hdp
        obtain ⟨sock, hsock, -⟩ := Option.map_eq_some_iff.mp h
        exact ⟨dp, sock, hdp, hsock⟩
      · cases h
    · rintro ⟨dp, sock, hdp, hsock⟩
      rw [hdp]
      dsimp only
      rw [hsock]
      exact ⟨_, rfl⟩

theorem mountedBy_nil_iff : (∃ m, mountedBy kind [] c = some m) ↔ Fit kind c := by
  unfold mountedBy
  constructor
  · rintro ⟨m, h⟩
    split_ifs at h with hchecks
    obtain ⟨fs, hfs, h⟩ := Option.bind_eq_some_iff.mp h
    obtain ⟨mntPoint, hpoint, h⟩ := Option.bind_eq_some_iff.mp h
    obtain ⟨source, hsource, -⟩ := Option.bind_eq_some_iff.mp h
    obtain ⟨habs, hne, his⟩ := hchecks
    exact ⟨habs, hne, his, MountHost.resolved_isSome.mp ⟨mntPoint, hpoint⟩, fs, hfs,
      sourceOf_nil_iff.mp ⟨source, hsource⟩⟩
  · rintro ⟨habs, hne, his, hresolves, fs, hfs, hfit⟩
    obtain ⟨mntPoint, hpoint⟩ := MountHost.resolved_isSome.mpr hresolves
    obtain ⟨source, hsource⟩ := sourceOf_nil_iff.mpr hfit
    rw [if_pos ⟨habs, hne, his⟩, hfs, hpoint]
    simp only [Option.bind_eq_bind, Option.bind_some, hsource]
    exact ⟨_, rfl⟩

theorem mountEntry_nil (h : ¬ Fit kind c) : mountEntry kind [] c = [] := by
  rw [← mountedBy_nil_iff, not_exists] at h
  unfold mountEntry
  split
  · exact absurd (by assumption) (h _)
  · rfl

theorem mountEntry_fit (h : Fit kind c) : mountEntry kind [] c ≠ [] := by
  obtain ⟨m, hm⟩ := mountedBy_nil_iff.mpr h
  unfold mountEntry
  rw [hm]
  exact List.cons_ne_nil m []

/-- Nothing is a directory and no directory. -/
theorem Fit.not_both (h : Fit directory c) (h' : Fit notDirectory c) : False := by
  obtain ⟨stMode, hstat, hdir⟩ := h.is
  obtain ⟨stMode', hstat', hnot⟩ := h'.is
  rw [hstat, Except.ok.injEq] at hstat'
  rw [← hstat', notDirectory, hdir] at hnot
  cases hnot

/-- The list stays empty, or the first entry that is taken spoils it. -/
theorem fstabMounted_cons_iff {calls : List MountCall} :
    FstabMounted (c :: calls) ↔
      (¬ Fit directory c ∧ ¬ Fit notDirectory c) ∧ FstabMounted calls := by
  have hrun : ∀ before, mountFromFstab (c :: before) =
      exec addEntryPoint (mountEntry notDirectory [] c) before := by
    intro before
    rw [mountFromFstab, exec_cons, addEntryPoint_nil, Option.bind_some]
  constructor
  · intro h
    have hfirst := h [c] ⟨calls, rfl⟩
    rw [hrun, exec_nil, Option.some.injEq, List.foldl_cons, List.foldl_nil] at hfirst
    have hneither : ¬ Fit directory c ∧ ¬ Fit notDirectory c := by
      by_cases hdir : Fit directory c
      · have hnot : ¬ Fit notDirectory c := fun hnot => hdir.not_both hnot
        rw [mountEntry_nil hnot] at hfirst
        exact absurd hfirst.symm (mountEntry_fit hdir)
      · refine ⟨hdir, fun hnot => ?_⟩
        rw [mountEntry_nil hdir] at hfirst
        exact mountEntry_fit hnot hfirst
    refine ⟨hneither, fun before hbefore => ?_⟩
    have hnext := h (c :: before) (List.cons_prefix_cons.mpr ⟨rfl, hbefore⟩)
    rw [hrun, mountEntry_nil hneither.2, List.foldl_cons, mountEntry_nil hneither.1] at hnext
    exact hnext
  · rintro ⟨⟨hdir, hnot⟩, h⟩ before hbefore
    cases before with
    | nil => rfl
    | cons c' before =>
      obtain ⟨rfl, hrest⟩ := List.cons_prefix_cons.mp hbefore
      rw [hrun, mountEntry_nil hnot, List.foldl_cons, mountEntry_nil hdir]
      exact h before hrest

/-- **Exactly where no entry is taken either way** does the list hold what it should. -/
theorem fstabMounted_iff (calls : List MountCall) :
    FstabMounted calls ↔ ∀ c ∈ calls, ¬ Fit directory c ∧ ¬ Fit notDirectory c := by
  induction calls with
  | nil =>
    refine iff_of_true ?_ (fun c hc => by cases hc)
    intro before hbefore
    rw [List.prefix_nil.mp hbefore]
    rfl
  | cons c calls ih =>
    rw [fstabMounted_cons_iff, ih, List.forall_mem_cons]

/-- Everything that is asked for is a directory. -/
def directoriesOnly : MountHost where
  stat _ := .ok .dir
  lstat _ := .ok .dir
  readlink _ _ := .error .EINVAL
  okfsDolstat _ _ _ := .ok .dir
  entryReadlink _ := none
  sys := Shfs.rootOnly
  stack := 0
  createSocketSh _ := none
  readlink_short := fun _ _ h => by cases h

/-- `/src` is to be seen at `/mnt`. -/
def srcEntry : MountCall where
  mntFsname := ascii "/src"
  mntDir := ascii "/mnt"
  mntType := ascii "localfs"
  mntOpts := []
  host := directoriesOnly

/-- It is not, as both are directories. -/
theorem not_fstabMounted : ¬ ∀ calls, FstabMounted calls := by
  intro hall
  have his : ∀ path, directoriesOnly.Is directory path := fun path => ⟨.dir, rfl, rfl⟩
  have hmnt : directoriesOnly.canonicalize [] (ascii "/mnt") = some (.ok (ascii "/mnt")) := rfl
  have hsrc : directoriesOnly.canonicalize [] (ascii "/src") = some (.ok (ascii "/src")) := rfl
  have hfit : Fit directory srcEntry :=
    ⟨rfl, by decide, his _, ⟨_, hmnt⟩, .localfs, rfl, rfl, rfl, his _, ⟨_, hsrc⟩⟩
  exact (fstabMounted_cons_iff.mp (hall [srcEntry])).1.1 hfit

end Okfs
