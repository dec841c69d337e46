import Okfs.Lib.Runs
import Okfs.Linux
import Okfs.Vfs.Readdir

/-!
# OKFS — the calls that change the namespace

The handlers of open, mkdir, rmdir, unlink, link, symlink and rename, and with the
lookups and the reading of directories a step relation over them. A handler gets
the canonical and the relative path that `proc_path1` and `proc_path2` resolved;
what the resolver itself looks up on the way are lookups of their own. An open has
two halves, and other tasks may make calls between them.

The backend's answers are part of the step. `Admissible` says which answers a POSIX
backend can give; everything else about the environment is left open. Each handler
has one lemma that says what it does (`…_spec`), in terms of the backend's
operation, of lookups (`Caches`), and of adding or removing one entry (`Added`,
`Removed`).
-/

namespace Okfs

open Components FileTree

/-! ## The source -/

/-- The value a handler passes to `set_slave_return`: 0, or an error. -/
abbrev Ret := Except Errno Unit

/-- The `open` slot. A file that is not there is created if `O_CREAT` is given; `st` is
what it starts out with. -/
def epOpen (b : Backend) (path : CStr) (flags : UInt32) (ans : Except Errno Stat) :
    Backend × Except Errno FileId :=
  match ans with
  | .error e => (b, .error e)
  | .ok st =>
    match b.tree (components slash path) with
    | some f => (b, .ok f)
    | none =>
      if flags &&& O_CREAT ≠ 0 then (b.create (components slash path) st, .ok b.nextFile)
      else (b, .error .ENOENT)

/-- A slot that changes attributes of the file at a path: `truncate`, `chmod`, `lchown`. -/
def epSetAttr (b : Backend) (path : CStr) (g : Stat → Stat) (ans : Ret) : Backend × Ret :=
  match b.tree (components slash path), ans with
  | none, _ => (b, .error .ENOENT)
  | some _, .error e => (b, .error e)
  | some _, .ok () => (b.setAttr (components slash path) g, .ok ())

def epTruncate (b : Backend) (path : CStr) (length : Nat) (ans : Ret) : Backend × Ret :=
  epSetAttr b path (fun st => { st with stSize := length }) ans

section Source

variable (M : Mount) (v : Vfs)

/-- `ep->lstat` and `cache_add_inode`, as `okfs_do_open` calls them one after another. -/
def lstatAdd (canonPath relPath : CStr) : Vfs × Option InodeRef :=
  match epLstat M v relPath with
  | (v, .error _) => (v, none)
  | (v, .ok buf) =>
    let (v, ip) := cacheAddInode M v canonPath buf
    (v, some ip)

/-- `okfs_do_open`, once the backend opened the file. An open that found no inode before
must find one now. -/
def openDone (canonPath relPath : CStr) (flags : UInt32) (ip : Option InodeRef) (file : FileId) :
    Option Vfs := do
  let v ← match ip with
    | some _ => some v
    | none =>
      match lstatAdd M v canonPath relPath with
      | (v, some _) => some v
      | (_, none) => none
  let v ← if ip.isNone ∧ flags &&& O_CREAT ≠ 0 then cacheAddEntry M v canonPath else some v
  some { v with pending := v.pending ++ [⟨canonPath, relPath, file, flags &&& O_APPEND ≠ 0⟩] }

/-- `okfs_do_open`, once it knows the file's inode, or that there is none. -/
def openWith (canonPath relPath : CStr) (flags : UInt32) (trunc : Ret) (ans : Except Errno Stat)
    (ip : Option InodeRef) : Option (Vfs × Ret) :=
  let fexist := ip.isSome
  if flags &&& O_CREAT ≠ 0 ∧ flags &&& O_EXCL ≠ 0 ∧ fexist then some (v, .error .EEXIST)
  else
    let flags := if flags &&& O_CREAT ≠ 0 ∧ fexist then flags &&& ~~~O_CREAT else flags
    let v := if flags &&& O_TRUNC ≠ 0 ∧ fexist ∧
        (flags &&& O_RDWR = O_RDWR ∨ flags &&& O_WRONLY = O_WRONLY) then
      { v with backend := (epTruncate v.backend relPath 0 trunc).1 }
    else v
    let flags := if flags &&& O_TRUNC ≠ 0 then flags &&& ~~~O_TRUNC else flags
    match epOpen v.backend relPath flags ans with
    | (_, .error e) => some (v, .error e)
    | (b, .ok file) =>
      (openDone M { v with backend := b } canonPath relPath flags ip file).map fun v => (v, .ok ())

/-- `okfs_do_open`; `trunc` and `ans` are what the backend's `truncate` and `open` answer.
Both filesystems have all the calls it asks for. -/
def okfsDoOpen (canonPath relPath : CStr) (flags : UInt32) (trunc : Ret) (ans : Except Errno Stat) :
    Option (Vfs × Ret) :=
  match cacheFindInode M v canonPath with
  | some ip => openWith M v canonPath relPath flags trunc ans (some ip)
  | none =>
    let (v, ip) := lstatAdd M v canonPath relPath
    openWith M v canonPath relPath flags trunc ans ip

/-- `add_new_fd`, in a slot that is empty. -/
def addNewFd (o : PendingOpen) : Vfs :=
  { v.setFile v.nextFile
      { path := o.canonPath
        relPath := o.relPath
        ino := cacheFindInode M v o.canonPath
        fPos := 0
        file := o.file
        offset := 0
        append := o.append } with
    nextFile := v.nextFile + 1 }

/-- `okfs_after_okfs_open` of the `i`-th open under way; `opened` says whether the kernel
gave a descriptor for the temporary file. By then `ARG2` has become
`O_RDONLY | O_CREAT`, so its branch for `O_APPEND` is never taken. -/
def okfsAfterOkfsOpen (i : Nat) (opened : Bool) : Option Vfs :=
  v.pending[i]?.map fun o =>
    let v := { v with pending := v.pending.eraseIdx i }
    if opened then addNewFd M v o else v

/-- A backend call that makes a new entry, and `cache_add_entry` for it. -/
def addingCall (canonPath : CStr) (b : Backend) (ret : Ret) : Option (Vfs × Ret) :=
  match ret with
  | .error e => some (v, .error e)
  | .ok () => (cacheAddEntry M { v with backend := b } canonPath).map fun v => (v, .ok ())

/-- A backend call that takes an entry away, and `cache_remove_entry` for it. -/
def removingCall (canonPath : CStr) (b : Backend) (ret : Ret) : Option (Vfs × Ret) :=
  match ret with
  | .error e => some (v, .error e)
  | .ok () => (cacheRemoveEntry M { v with backend := b } canonPath).map fun v => (v, .ok ())

def okfsMkdir (canonPath1 relPath1 : CStr) (st : Stat) (ret : Ret) : Option (Vfs × Ret) :=
  addingCall M v canonPath1 (v.backend.create (components slash relPath1) st) ret

def okfsSymlink (canonPath2 relPath2 : CStr) (st : Stat) (ret : Ret) : Option (Vfs × Ret) :=
  addingCall M v canonPath2 (v.backend.create (components slash relPath2) st) ret

def okfsLink (relPath1 canonPath2 relPath2 : CStr) (ret : Ret) : Option (Vfs × Ret) :=
  addingCall M v canonPath2
    (v.backend.link (components slash relPath1) (components slash relPath2)) ret

def okfsUnlink (canonPath1 relPath1 : CStr) (ret : Ret) : Option (Vfs × Ret) :=
  removingCall M v canonPath1 (v.backend.remove (components slash relPath1)) ret

def okfsRmdir (canonPath1 relPath1 : CStr) (ret : Ret) : Option (Vfs × Ret) :=
  removingCall M v canonPath1 (v.backend.remove (components slash relPath1)) ret

def okfsRename (canonPath1 relPath1 canonPath2 relPath2 : CStr) (ret : Ret) :
    Option (Vfs × Ret) :=
  match ret with
  | .error e => some (v, .error e)
  | .ok () => do
    let b := v.backend.rename (components slash relPath1) (components slash relPath2)
    let v ← cacheRemoveEntry M { v with backend := b } canonPath1
    let v ← cacheAddEntry M v canonPath2
    some (v, .ok ())

end Source

/-! ## Runs -/

/-- One call on the mount, with the backend's answers, or the clock moving on. Paths
are resolved. -/
inductive NsOp
  | lookup (p : Path)
  | open (p : Path) (flags : UInt32) (trunc : Ret) (ans : Except Errno Stat)
  | afterOpen (i : Nat) (opened : Bool)
  | mkdir (p : Path) (st : Stat) (ret : Ret)
  | symlink (p : Path) (st : Stat) (ret : Ret)
  | link (p₁ p₂ : Path) (ret : Ret)
  | unlink (p : Path) (ret : Ret)
  | rmdir (p : Path) (ret : Ret)
  | rename (p₁ p₂ : Path) (ret : Ret)
  | getdents (g : GetdentsCall) (fd : FileRef) (count : Nat) (raw : Except Errno (List OkfsDirent))
  | tick (now : Nat)

def nsStep (M : Mount) (v : Vfs) : NsOp → Option Vfs
  | .lookup p => some (okfsDolstat M v (M.full p) (M.rel p)).1
  | .open p flags trunc ans => (okfsDoOpen M v (M.full p) (M.rel p) flags trunc ans).map Prod.fst
  | .afterOpen i opened => okfsAfterOkfsOpen M v i opened
  | .mkdir p st ret => (okfsMkdir M v (M.full p) (M.rel p) st ret).map Prod.fst
  | .symlink p st ret => (okfsSymlink M v (M.full p) (M.rel p) st ret).map Prod.fst
  | .link p₁ p₂ ret => (okfsLink M v (M.rel p₁) (M.full p₂) (M.rel p₂) ret).map Prod.fst
  | .unlink p ret => (okfsUnlink M v (M.full p) (M.rel p) ret).map Prod.fst
  | .rmdir p ret => (okfsRmdir M v (M.full p) (M.rel p) ret).map Prod.fst
  | .rename p₁ p₂ ret =>
    (okfsRename M v (M.full p₁) (M.rel p₁) (M.full p₂) (M.rel p₂) ret).map Prod.fst
  | .getdents g fd count raw => (g.run M v fd count raw).map Prod.fst
  | .tick now => some { v with now := now }

/-- An open that makes a new file: nothing is cached at the path and nothing is there. -/
def Creates (M : Mount) (v : Vfs) (p : Path) (flags : UInt32) : Prop :=
  flags &&& O_CREAT ≠ 0 ∧ cacheFindInode M v (M.full p) = none ∧ v.backend.tree p = none

/-- What a directory that is open in the backend reads as: on localfs the directory
itself, on shfs what its path leads to. -/
def ReadsDir (M : Mount) (v : Vfs) (filep : OkfsFile) (raw : List OkfsDirent) : Prop :=
  match M.sb.entry with
  | .localfs => ∃ p, v.backend.tree p = some filep.file ∧ v.backend.Lists p (raw.map (·.name))
  | .shfs => v.backend.Lists (components slash filep.relPath) (raw.map (·.name))

/-- The answers of a POSIX backend: what succeeds could succeed. -/
def Admissible (M : Mount) (v : Vfs) : NsOp → Prop
  | .lookup p => ValidPath p
  | .open p flags _ ans => ValidPath p ∧
      ∀ st, ans = .ok st → Creates M v p flags → v.backend.CanCreate p st ∧ st.stType = .reg
  | .afterOpen i _ => i < v.pending.length
  | .mkdir p st ret => ValidPath p ∧ (ret = .ok () → v.backend.CanCreate p st ∧ st.stType = .dir)
  | .symlink p st ret => ValidPath p ∧ (ret = .ok () → v.backend.CanCreate p st ∧ st.stType = .lnk)
  | .link p₁ p₂ ret => ValidPath p₁ ∧ ValidPath p₂ ∧ (ret = .ok () → v.backend.CanLink p₁ p₂)
  | .unlink p ret => ValidPath p ∧
      (ret = .ok () → v.backend.CanRemove p ∧ ¬ DirAt v.backend.IsDir v.backend.tree p)
  | .rmdir p ret => ValidPath p ∧
      (ret = .ok () → v.backend.CanRemove p ∧ DirAt v.backend.IsDir v.backend.tree p)
  | .rename p₁ p₂ ret => ValidPath p₁ ∧ ValidPath p₂ ∧ (ret = .ok () → v.backend.CanRename p₁ p₂)
  | .getdents _ fd count raw => count < 2 ^ 32 ∧
      ∃ filep, v.files fd = some filep ∧ ∀ ds, raw = .ok ds → ReadsDir M v filep ds
  | .tick _ => True

/-! ## What each call does -/

/-- `cache_add_entry` ran for `p`, and found the file. -/
def Added (M : Mount) (v : Vfs) (p : Path) (v' : Vfs) : Prop :=
  ∃ v₁ d, Caches M v v₁ ∧ Touched v₁ v' ∧ p.getLast? = some d.name ∧
    v'.dcache = Buckets.modifyFirst M.nameHash v.dcache (M.full p.dropLast) (d :: ·)

/-- `cache_remove_entry` gets through for `p`: the path can be taken off its chain, and
the listing of its directory, if it is cached, has the name. -/
def CanDropEntry (M : Mount) (v : Vfs) (p : Path) : Prop :=
  Removable M v (M.full p) ∧
    ∀ l, cacheFindDentry M v (M.full p.dropLast) = some l → ∃ d ∈ l, p.getLast? = some d.name

/-- The state after `cache_remove_entry`. -/
def dropEntry (M : Mount) (v : Vfs) (p : Path) : Vfs :=
  { v with
    ipathCache := Buckets.eraseFirst M.nameHash v.ipathCache (M.full p)
    dcache := Buckets.modifyFirst M.nameHash v.dcache (M.full p.dropLast)
      (dropName (p.getLast?.getD [])) }

/-- The paths of an open file are those of a file below the mount point. -/
def IsOpenPath (M : Mount) (path relPath : CStr) : Prop :=
  ∃ p, ValidPath p ∧ path = M.full p ∧ relPath = M.rel p

/-- Open files, and files being opened, have proper paths. -/
structure OpenOk (M : Mount) (v : Vfs) : Prop where
  files : ∀ fd filep, v.files fd = some filep →
    fd < v.nextFile ∧ IsOpenPath M filep.path filep.relPath
  pending : ∀ o ∈ v.pending, IsOpenPath M o.canonPath o.relPath

/-- The two states differ in open files and the clock at most, and what is open stays
open on the same file. -/
structure SameFs (M : Mount) (v v' : Vfs) : Prop where
  ipathCache : v'.ipathCache = v.ipathCache
  inrCache : v'.inrCache = v.inrCache
  dcache : v'.dcache = v.dcache
  inode : v'.inode = v.inode
  nextRef : v'.nextRef = v.nextRef
  nextInode : v'.nextInode = v.nextInode
  backend : v'.backend = v.backend
  openOk : OpenOk M v → OpenOk M v'
  kept : ∀ fd filep, v.files fd = some filep → fd < v.nextFile →
    ∃ pos, v'.files fd = some { filep with fPos := pos }

theorem SameFs.refl (M : Mount) (v : Vfs) : SameFs M v v :=
  ⟨rfl, rfl, rfl, rfl, rfl, rfl, rfl, id, fun _ filep h _ => ⟨filep.fPos, h⟩⟩

variable {M : Mount} {v v' : Vfs} {p p₁ p₂ : Path}

theorem exists_concat (h : p ≠ []) : ∃ q n, p = q ++ [n] :=
  ⟨p.dropLast, p.getLast h, (List.dropLast_append_getLast h).symm⟩

/-- `cache_add_entry` of a file that is there. -/
theorem cacheAddEntry_added (hp : ValidPath p) (hne : p ≠ [])
    (found : ∃ f, v.backend.tree p = some f) :
    ∃ v', cacheAddEntry M v (M.full p) = some v' ∧ Added M v p v' := by
  obtain ⟨q, n, rfl⟩ := exists_concat hne
  obtain ⟨f, hf⟩ := found
  obtain ⟨v₁, v', d, heq, hcaches, htouched, hname, hdcache⟩ := cacheAddEntry_spec (M := M) hp hf
  refine ⟨v', heq, v₁, d, hcaches, htouched, ?_, ?_⟩
  · rw [List.getLast?_concat, hname]
  · rw [List.dropLast_concat, hdcache]

theorem cacheRemoveEntry_iff (hp : ValidPath p) (hne : p ≠ []) :
    cacheRemoveEntry M v (M.full p) = some v' ↔ CanDropEntry M v p ∧ v' = dropEntry M v p := by
  obtain ⟨q, n, rfl⟩ := exists_concat hne
  rw [cacheRemoveEntry_eq_some hp, CanDropEntry, dropEntry, List.dropLast_concat,
    List.getLast?_concat, Option.getD_some, and_assoc]
  have hiff : ∀ l : List OkfsDirent,
      n ∈ l.map (·.name) ↔ ∃ d ∈ l, some n = some d.name := by
    intro l
    simp only [List.mem_map, Option.some.injEq]
    exact ⟨fun ⟨d, hd, h⟩ => ⟨d, hd, h.symm⟩, fun ⟨d, hd, h⟩ => ⟨d, hd, h.symm⟩⟩
  simp only [hiff]

/-- The calls that make an entry for `p`, and the backend afterwards. -/
inductive Makes (M : Mount) (v : Vfs) : NsOp → Path → Backend → Prop
  | open {p : Path} {flags : UInt32} {trunc : Ret} {st : Stat} (h : Creates M v p flags) :
      Makes M v (.open p flags trunc (.ok st)) p (v.backend.create p st)
  | mkdir {p : Path} {st : Stat} : Makes M v (.mkdir p st (.ok ())) p (v.backend.create p st)
  | symlink {p : Path} {st : Stat} : Makes M v (.symlink p st (.ok ())) p (v.backend.create p st)
  | link {p₁ p₂ : Path} : Makes M v (.link p₁ p₂ (.ok ())) p₂ (v.backend.link p₁ p₂)

/-- The calls that take the entry of `p` away. -/
inductive Takes : NsOp → Path → Prop
  | unlink {p : Path} : Takes (.unlink p (.ok ())) p
  | rmdir {p : Path} : Takes (.rmdir p (.ok ())) p

/-- All that a step can do to a filesystem. -/
inductive Effect (M : Mount) (v : Vfs) : NsOp → Vfs → Prop
  /-- Files are looked up, sizes change, files are opened. -/
  | quiet {op : NsOp} {v₁ v₂ v' : Vfs} (caches : Caches M v v₁) (touched : Touched v₁ v₂)
      (dcache : v₂.dcache = v₁.dcache) (same : SameFs M v₂ v') : Effect M v op v'
  | made {op : NsOp} {p : Path} {b : Backend} {v₁ v₂ v' : Vfs} (makes : Makes M v op p b)
      (caches : Caches M { v with backend := b } v₁) (added : Added M v₁ p v₂)
      (same : SameFs M v₂ v') : Effect M v op v'
  | taken {op : NsOp} {p : Path} (takes : Takes op p) (drops : CanDropEntry M v p) :
      Effect M v op (dropEntry M { v with backend := v.backend.remove p } p)
  | renamed {p₁ p₂ : Path} {v' : Vfs} (drops : CanDropEntry M v p₁)
      (added : Added M (dropEntry M { v with backend := v.backend.rename p₁ p₂ } p₁) p₂ v') :
      Effect M v (.rename p₁ p₂ (.ok ())) v'
  /-- A listing that was not cached is read and cached under the path of the descriptor. -/
  | listed {g : GetdentsCall} {fd : FileRef} {count : Nat} {ds dp : List OkfsDirent}
      {filep : OkfsFile} {q : Path} {v₁ v' : Vfs} (file : v.files fd = some filep)
      (room : count ≠ 0) (uncached : cacheFindDirent M v filep.path = []) (caches : Caches M v v₁)
      (lines : v.backend.Lists q (ds.map (·.name))) (lists : v.backend.Lists q (dp.map (·.name)))
      (read : match M.sb.entry with
        | .localfs => v.backend.tree q = some filep.file
        | .shfs => components slash filep.relPath = q)
      (same : SameFs M (cacheAddDirent M v₁ filep.path dp) v') :
      Effect M v (.getdents g fd count (.ok ds)) v'

/-- What all steps keep: references and open files make sense, the backend is a tree. -/
structure Base (M : Mount) (v : Vfs) : Prop where
  refs : RefsOk M v
  wf : v.backend.WF
  openOk : OpenOk M v

theorem Touched.refl (v : Vfs) : Touched v v :=
  ⟨rfl, rfl, rfl, rfl, rfl, rfl, rfl, rfl, rfl, fun _ => .refl _, fun _ => .refl _⟩

/-- Nothing happened. -/
theorem Effect.none (op : NsOp) : Effect M v op v :=
  .quiet .refl (.refl v) rfl (.refl M v)

/-! ### Making and taking entries -/

theorem addingCall_ok {b : Backend} (hp : ValidPath p) (hne : p ≠ [])
    (found : ∃ f, b.tree p = some f) :
    ∃ v', addingCall M v (M.full p) b (.ok ()) = some (v', .ok ()) ∧
      Added M { v with backend := b } p v' := by
  obtain ⟨v', heq, hadded⟩ := cacheAddEntry_added (M := M) (v := { v with backend := b }) hp hne found
  exact ⟨v', by rw [addingCall, heq]; rfl, hadded⟩

theorem removingCall_ok {b : Backend} (hp : ValidPath p) (hne : p ≠ []) :
    (removingCall M v (M.full p) b (.ok ())).map Prod.fst = some v' ↔
      CanDropEntry M v p ∧ v' = dropEntry M { v with backend := b } p := by
  rw [removingCall, Option.map_map]
  have hid : (Prod.fst ∘ fun v : Vfs => (v, (Except.ok () : Ret))) = id := rfl
  rw [hid, Option.map_id, id, cacheRemoveEntry_iff hp hne]
  rfl

/-! ### Opening -/

theorem sameInoFind_cacheAddInode (path : CStr) (st : Stat) :
    sameInoFind (cacheAddInode M v path st).1 st.stDev st.stIno =
      some (cacheAddInode M v path st).2 := by
  unfold cacheAddInode
  cases h : sameInoFind v st.stDev st.stIno with
  | some r => exact h
  | none => simp [sameInoFind, creatInode, pathInsert]

/-- Adding the same record again only adds a node. -/
theorem cacheAddInode_again (path : CStr) (st : Stat) :
    CachesOne M (cacheAddInode M v path st).1
      (cacheAddInode M (cacheAddInode M v path st).1 path st).1 := by
  have hsame : cacheAddInode M (cacheAddInode M v path st).1 path st =
      (pathInsert M (cacheAddInode M v path st).1 path (cacheAddInode M v path st).2,
        (cacheAddInode M v path st).2) := by
    conv_lhs => rw [cacheAddInode]
    rw [sameInoFind_cacheAddInode]
  rw [hsame]
  exact .again cacheFindInode_cacheAddInode_self

/-- shfs caches a file while it is looked up, and an open caches it once more. -/
theorem lstatAdd_spec (hp : ValidPath p) (h : cacheFindInode M v (M.full p) = none) :
    (v.backend.tree p = none ∧ lstatAdd M v (M.full p) (M.rel p) = (v, none)) ∨
    ∃ f v' ip, v.backend.tree p = some f ∧
      lstatAdd M v (M.full p) (M.rel p) = (v', some ip) ∧ Caches M v v' ∧
      cacheFindInode M v' (M.full p) = some ip := by
  unfold lstatAdd epLstat
  rw [Mount.components_rel hp, Backend.lstat]
  cases htree : v.backend.tree p with
  | none => exact .inl ⟨rfl, rfl⟩
  | some f =>
    refine .inr ⟨f, ?_⟩
    cases hs : M.sb.entry with
    | localfs =>
      exact ⟨_, _, rfl, rfl, .single (.of_add hp h htree (.localfs hs)),
        cacheFindInode_cacheAddInode_self⟩
    | shfs =>
      have hkey := Mount.cachePath_lstat (M := M) hp
      simp only [addToCache_of_none (hkey ▸ h), hkey]
      refine ⟨_, _, trivial, rfl, ?_, cacheFindInode_cacheAddInode_self⟩
      exact (Relation.ReflTransGen.single (.of_add hp h htree (.shfs hs))).tail
        (cacheAddInode_again ..)

theorem and_not_O_CREAT (flags : UInt32) : (flags &&& ~~~O_CREAT) &&& O_CREAT = 0 := by
  rw [UInt32.and_assoc, show ~~~O_CREAT &&& O_CREAT = 0 by decide, UInt32.and_zero]

theorem and_not_O_TRUNC (flags : UInt32) : (flags &&& ~~~O_TRUNC) &&& O_CREAT = flags &&& O_CREAT := by
  rw [UInt32.and_assoc, show ~~~O_TRUNC &&& O_CREAT = O_CREAT by decide]

/-- Dropping `O_TRUNC` leaves `O_CREAT` as it is. -/
theorem O_CREAT_of_ite (flags : UInt32) :
    (if flags &&& O_TRUNC ≠ 0 then flags &&& ~~~O_TRUNC else flags) &&& O_CREAT =
      flags &&& O_CREAT := by
  split
  · exact and_not_O_TRUNC flags
  · rfl

theorem epTruncate_touched (path : CStr) (length : Nat) (ans : Ret) :
    Touched v { v with backend := (epTruncate v.backend path length ans).1 } := by
  unfold epTruncate epSetAttr
  cases v.backend.tree (components slash path) with
  | none => exact .refl v
  | some f =>
    cases ans with
    | error e => exact .refl v
    | ok =>
      exact ⟨rfl, rfl, rfl, rfl, rfl, rfl, rfl, Backend.tree_setAttr _, Backend.nextFile_setAttr _,
        fun f => Backend.attr_setAttr_resized _ _ length f, fun _ => .refl _⟩

theorem pending_sameFs (hp : ValidPath p) (file : FileId) (append : Bool) :
    SameFs M v { v with pending := v.pending ++ [⟨M.full p, M.rel p, file, append⟩] } := by
  refine ⟨rfl, rfl, rfl, rfl, rfl, rfl, rfl, fun h => ⟨h.files, ?_⟩,
    fun _ filep h _ => ⟨filep.fPos, h⟩⟩
  intro o ho
  rcases List.mem_append.mp ho with ho | ho
  · exact h.pending o ho
  · rw [List.mem_singleton.mp ho]
    exact ⟨p, hp, rfl, rfl⟩

/-- `okfs_do_open` truncates a file that is there. -/
def OpenTruncates (flags : UInt32) : Prop :=
  ¬ (flags &&& O_CREAT ≠ 0 ∧ flags &&& O_EXCL ≠ 0) ∧ flags &&& O_TRUNC ≠ 0 ∧
    (flags &&& O_RDWR = O_RDWR ∨ flags &&& O_WRONLY = O_WRONLY)

/-- An open of a file with a known inode: it may be truncated, and the open may be under
way then. -/
def OpensKnown (M : Mount) (v : Vfs) (p : Path) (flags : UInt32) (trunc : Ret) (v' : Vfs) : Prop :=
  ∃ v₂, (v₂ = v ∨ (OpenTruncates flags ∧
      v₂ = { v with backend := (epTruncate v.backend (M.rel p) 0 trunc).1 })) ∧
    (v' = v₂ ∨ ∃ f append, v.backend.tree p = some f ∧
      v' = { v₂ with pending := v₂.pending ++ [⟨M.full p, M.rel p, f, append⟩] })

theorem OpensKnown.effect {flags : UInt32} {trunc : Ret} (hp : ValidPath p)
    (h : OpensKnown M v p flags trunc v') :
    ∃ v₂, Touched v v₂ ∧ v₂.dcache = v.dcache ∧ SameFs M v₂ v' := by
  obtain ⟨v₂, htrunc, hopen⟩ := h
  have htouched : Touched v v₂ ∧ v₂.dcache = v.dcache := by
    rcases htrunc with rfl | ⟨-, rfl⟩
    · exact ⟨.refl _, rfl⟩
    · exact ⟨epTruncate_touched .., rfl⟩
  refine ⟨v₂, htouched.1, htouched.2, ?_⟩
  rcases hopen with rfl | ⟨f, append, -, rfl⟩
  · exact .refl M _
  · exact pending_sameFs hp f append

theorem and_O_CREAT_cleared (flags : UInt32) {x : UInt32} (hx : ~~~O_CREAT &&& x = x) :
    (if flags &&& O_CREAT ≠ 0 then flags &&& ~~~O_CREAT else flags) &&& x = flags &&& x := by
  split
  · rw [UInt32.and_assoc, hx]
  · rfl

/-- An open of a file with a known inode creates nothing. -/
theorem openWith_some (hp : ValidPath p) (flags : UInt32) (trunc : Ret) (ans : Except Errno Stat)
    (ip : InodeRef) :
    ∃ v' ret, openWith M v (M.full p) (M.rel p) flags trunc ans (some ip) = some (v', ret) ∧
      OpensKnown M v p flags trunc v' := by
  unfold openWith
  simp only [Option.isSome_some, and_true, true_and]
  split
  · exact ⟨v, _, rfl, v, .inl rfl, .inl rfl⟩
  · rename_i hexcl
    have hwrite := and_O_CREAT_cleared flags (x := O_WRONLY) (by decide)
    have hrdwr := and_O_CREAT_cleared flags (x := O_RDWR) (by decide)
    have htrunc := and_O_CREAT_cleared flags (x := O_TRUNC) (by decide)
    have hcreat : (if flags &&& O_CREAT ≠ 0 then flags &&& ~~~O_CREAT else flags) &&& O_CREAT = 0 := by
      split
      · exact and_not_O_CREAT flags
      · rename_i h
        exact not_not.mp h
    generalize (if flags &&& O_CREAT ≠ 0 then flags &&& ~~~O_CREAT else flags) = flags₁ at *
    rw [hwrite, hrdwr, htrunc]
    generalize hv : (if flags &&& O_TRUNC ≠ 0 ∧
      (flags &&& O_RDWR = O_RDWR ∨ flags &&& O_WRONLY = O_WRONLY) then
        { v with backend := (epTruncate v.backend (M.rel p) 0 trunc).1 } else v) = v₂
    have htruncated : v₂ = v ∨ (OpenTruncates flags ∧
        v₂ = { v with backend := (epTruncate v.backend (M.rel p) 0 trunc).1 }) := by
      rw [← hv]
      split
      · rename_i h
        exact .inr ⟨⟨hexcl, h⟩, rfl⟩
      · exact .inl rfl
    have htree : v₂.backend.tree = v.backend.tree := by
      rcases htruncated with rfl | ⟨-, rfl⟩
      · rfl
      · exact (epTruncate_touched _ 0 trunc).tree
    have hopen : ∀ flags', flags' &&& O_CREAT = 0 →
        (∃ e, epOpen v₂.backend (M.rel p) flags' ans = (v₂.backend, .error e)) ∨
        ∃ f, v.backend.tree p = some f ∧
          epOpen v₂.backend (M.rel p) flags' ans = (v₂.backend, .ok f) := by
      intro flags' hf
      unfold epOpen
      rw [Mount.components_rel hp, htree]
      cases ans with
      | error e => exact .inl ⟨e, rfl⟩
      | ok st =>
        cases v.backend.tree p with
        | some f => exact .inr ⟨f, rfl, rfl⟩
        | none => exact .inl ⟨.ENOENT, by simp [hf]⟩
    have hcreat' : (if flags &&& O_TRUNC ≠ 0 then flags₁ &&& ~~~O_TRUNC else flags₁) &&& O_CREAT = 0 := by
      split
      · rw [and_not_O_TRUNC, hcreat]
      · exact hcreat
    rcases hopen _ hcreat' with ⟨e, he⟩ | ⟨f, hf, heq⟩
    · exact ⟨v₂, .error e, by rw [he], v₂, htruncated, .inl rfl⟩
    · refine ⟨_, .ok (), by rw [heq]; rfl, v₂, htruncated, .inr ⟨f, _, hf, rfl⟩⟩

/-- An open where nothing is known and nothing is there creates a file or fails. -/
theorem openWith_none (hp : ValidPath p) {flags : UInt32} (trunc : Ret) {ans : Except Errno Stat}
    (hcached : cacheFindInode M v (M.full p) = none) (habsent : v.backend.tree p = none)
    (hadm : ∀ st, ans = .ok st → Creates M v p flags → v.backend.CanCreate p st) :
    (∃ ret, openWith M v (M.full p) (M.rel p) flags trunc ans none = some (v, ret)) ∨
    ∃ st v₁ v₂ v', ans = .ok st ∧ Creates M v p flags ∧
      openWith M v (M.full p) (M.rel p) flags trunc ans none = some (v', .ok ()) ∧
      Caches M { v with backend := v.backend.create p st } v₁ ∧ Added M v₁ p v₂ ∧
      SameFs M v₂ v' := by
  unfold openWith
  simp only [Option.isSome_none, Bool.false_eq_true, and_false, false_and, if_false]
  generalize hflags : (if flags &&& O_TRUNC ≠ 0 then flags &&& ~~~O_TRUNC else flags) = flags'
  have hcreat : flags' &&& O_CREAT = flags &&& O_CREAT := hflags ▸ O_CREAT_of_ite flags
  unfold epOpen
  rw [Mount.components_rel hp]
  cases ans with
  | error e => exact .inl ⟨.error e, rfl⟩
  | ok st =>
    simp only [habsent]
    by_cases hc : flags' &&& O_CREAT = 0
    · exact .inl ⟨.error .ENOENT, by simp [hc]⟩
    · have hcreates : Creates M v p flags := ⟨by rwa [← hcreat], hcached, habsent⟩
      have hcan := hadm st rfl hcreates
      refine .inr ⟨st, ?_⟩
      simp only [ne_eq, hc, not_false_eq_true, if_true]
      rcases lstatAdd_spec (v := { v with backend := v.backend.create p st }) hp hcached with
        ⟨hnone, -⟩ | ⟨f, v₁, ip, hf, hlstat, hcaches, -⟩
      · rw [show (v.backend.create p st).tree p = _ from Backend.tree_create_self] at hnone
        cases hnone
      · obtain ⟨v₂, hadd, hadded⟩ := cacheAddEntry_added (M := M) (v := v₁) hp hcan.ne_nil
          ⟨f, by rw [hcaches.frame.backend, hf]⟩
        refine ⟨v₁, v₂, { v₂ with pending := v₂.pending ++
            [⟨M.full p, M.rel p, v.backend.nextFile, flags' &&& O_APPEND ≠ 0⟩] },
          trivial, hcreates, ?_, hcaches, hadded, pending_sameFs hp _ _⟩
        simp only [openDone, hlstat, Option.bind_eq_bind, Option.bind_some, Option.isNone_none,
          ne_eq, hc, not_false_eq_true, and_self, if_true, hadd, Option.map_some]

/-- An open of a file that is cached or there: it is looked up, and opened. -/
theorem okfsDoOpen_known (hp : ValidPath p) (flags : UInt32) (trunc : Ret) (ans : Except Errno Stat)
    (hknown : cacheFindInode M v (M.full p) = none → ∃ f, v.backend.tree p = some f) :
    ∃ v₁ v' ret, okfsDoOpen M v (M.full p) (M.rel p) flags trunc ans = some (v', ret) ∧
      Caches M v v₁ ∧ (∃ r, cacheFindInode M v₁ (M.full p) = some r) ∧
      OpensKnown M v₁ p flags trunc v' := by
  cases hcached : cacheFindInode M v (M.full p) with
  | some ip =>
    obtain ⟨v', ret, hopen, hopens⟩ := openWith_some (M := M) (v := v) hp flags trunc ans ip
    exact ⟨v, v', ret, by rw [okfsDoOpen, hcached]; exact hopen, .refl, ⟨ip, hcached⟩, hopens⟩
  | none =>
    obtain ⟨f, hf⟩ := hknown hcached
    rcases lstatAdd_spec hp hcached with ⟨habsent, -⟩ | ⟨-, v₁, ip, -, hlstat, hcaches, hcached₁⟩
    · rw [habsent] at hf
      cases hf
    · obtain ⟨v', ret, hopen, hopens⟩ := openWith_some (M := M) (v := v₁) hp flags trunc ans ip
      refine ⟨v₁, v', ret, ?_, hcaches, ⟨ip, hcached₁⟩, hopens⟩
      simp only [okfsDoOpen, hcached, hlstat]
      exact hopen

theorem okfsDoOpen_effect (hp : ValidPath p) {flags : UInt32} {trunc : Ret} {ans : Except Errno Stat}
    (hadm : ∀ st, ans = .ok st → Creates M v p flags → v.backend.CanCreate p st) :
    ∃ v', nsStep M v (.open p flags trunc ans) = some v' ∧ Effect M v (.open p flags trunc ans) v' := by
  by_cases hknown : cacheFindInode M v (M.full p) = none → ∃ f, v.backend.tree p = some f
  · obtain ⟨v₁, v', ret, heq, hcaches, -, hopens⟩ :=
      okfsDoOpen_known (M := M) hp flags trunc ans hknown
    obtain ⟨v₂, htouched, hdcache, hsame⟩ := hopens.effect hp
    exact ⟨v', by rw [nsStep, heq]; rfl, .quiet hcaches htouched hdcache hsame⟩
  · obtain ⟨hcached, habsent⟩ := Classical.not_imp.mp hknown
    have habsent : v.backend.tree p = none := by
      cases h : v.backend.tree p with
      | none => rfl
      | some f => exact absurd ⟨f, h⟩ habsent
    have hlstat : lstatAdd M v (M.full p) (M.rel p) = (v, none) := by
      rcases lstatAdd_spec hp hcached with ⟨-, hnone⟩ | ⟨f, -, -, hf, -⟩
      · exact hnone
      · rw [habsent] at hf
        cases hf
    have heq : okfsDoOpen M v (M.full p) (M.rel p) flags trunc ans =
        openWith M v (M.full p) (M.rel p) flags trunc ans none := by
      simp only [okfsDoOpen, hcached, hlstat]
    rcases openWith_none hp trunc hcached habsent hadm with
      ⟨ret, hopen⟩ | ⟨st, v₁, v₂, v', rfl, hcreates, hopen, hcaches, hadded, hsame⟩
    · exact ⟨v, by rw [nsStep, heq, hopen]; rfl, .none _⟩
    · exact ⟨v', by rw [nsStep, heq, hopen]; rfl, .made (.open hcreates) hcaches hadded hsame⟩

/-! ### Reading directories -/

/-- The path of a mount point is cut into a path that is not below it. -/
theorem splitPath_above : ∃ n, splitPath (M.full []) = some (canonPath M.mnt.dropLast, n) := by
  obtain ⟨m, x, hm⟩ := exists_concat M.ne_root
  have hx : IsComponent slash x := M.valid.isComponent x (by simp [hm])
  refine ⟨x, ?_⟩
  rw [Mount.full, List.append_nil, hm, canonPath_of_ne_nil (by simp), splitPath,
    splitLast_render_concat hx, Option.map_some, List.dropLast_concat, canonPath_eq]

theorem arglstat_above_eq :
    arglstat M v (canonPath M.mnt.dropLast) = (v, M.linuxLstat (canonPath M.mnt.dropLast)) := by
  obtain ⟨m, x, hm⟩ := exists_concat M.ne_root
  have hx : IsComponent slash x := M.valid.isComponent x (by simp [hm])
  have hcanon : IsCanonical M.sb.mntPoint := ⟨M.mnt, M.valid, M.mntPoint_eq⟩
  have hlen : (canonPath M.mnt.dropLast).length < M.sb.mntPoint.length := by
    have hpos := List.length_pos_of_ne_nil hx.1
    have hmnt : canonPath (m ++ [x]) = render slash (m ++ [x]) := canonPath_of_ne_nil (by simp)
    rw [M.mntPoint_eq, hm, hmnt, List.dropLast_concat, canonPath_eq, render_append,
      List.length_append]
    simp only [render_cons, render_nil, List.append_nil, List.length_cons]
    split
    · rw [List.length_singleton]
      omega
    · omega
  have hsel : mountedFor [M.sb] (canonPath M.mnt.dropLast) = none := by
    rw [mountedFor_eq_find_matching (by simpa using hcanon)]
    have hno : ¬ M.sb.mntPoint <+: canonPath M.mnt.dropLast := fun hp => by
      have := hp.length_le
      omega
    simp [hno]
  rw [arglstat, okfsArglstat, hsel]

theorem arglstat_above {newpath : CStr} {n : Name}
    (h : splitPath (M.full []) = some (newpath, n)) : (arglstat M v newpath).1 = v := by
  obtain ⟨x, hx⟩ := splitPath_above (M := M)
  rw [hx, Option.some.injEq, Prod.mk.injEq] at h
  rw [← h.1, arglstat_above_eq]

theorem arglstat_caches (hp : ValidPath p) : Caches M v (arglstat M v (M.full p)).1 := by
  rw [arglstat_full hp]
  rcases okfsDolstat_spec (M := M) (v := v) hp with
    ⟨r, -, heq⟩ | ⟨-, -, heq⟩ | ⟨f, v', d, i, -, -, heq, hcaches, -⟩
  · rw [heq]
  · rw [heq]
  · rw [heq]
    exact hcaches

theorem getParentIno_caches (hp : ValidPath p) {ino : Nat}
    (h : getParentIno M v (M.full p) = some (v', ino)) : Caches M v v' := by
  unfold getParentIno at h
  split at h
  · obtain ⟨_, _, heq⟩ := Option.map_eq_some_iff.mp h
    rw [(Prod.mk.inj heq).1]
  · obtain ⟨⟨newpath, n⟩, hsplit, heq⟩ := Option.map_eq_some_iff.mp h
    have harg : Caches M v (arglstat M v newpath).1 := by
      by_cases hne : p = []
      · rw [arglstat_above (hne ▸ hsplit)]
      · obtain ⟨q, m, rfl⟩ := exists_concat hne
        rw [Mount.splitPath_full hp, Option.some.injEq, Prod.mk.injEq] at hsplit
        rw [← hsplit.1]
        exact arglstat_caches hp.left
    simp only at heq
    split at heq
    · rw [(Prod.mk.inj heq).1]
    · split at heq <;> rename_i w _ hw <;> rw [hw] at harg <;> rwa [← (Prod.mk.inj heq).1]

/-- The names of a listing other than `.` and `..`. -/
def notDots (names : List Name) : List Name :=
  names.filter fun n => ¬ (n = ascii "." ∨ n = ascii "..")

theorem notDots_cons_of_pos {n : Name} {ns : List Name} (h : n = ascii "." ∨ n = ascii "..") :
    notDots (n :: ns) = notDots ns :=
  List.filter_cons_of_neg (by rw [decide_eq_true_eq]; exact not_not.mpr h)

theorem notDots_cons_of_neg {n : Name} {ns : List Name} (h : ¬ (n = ascii "." ∨ n = ascii "..")) :
    notDots (n :: ns) = n :: notDots ns :=
  List.filter_cons_of_pos (by rw [decide_eq_true_eq]; exact h)

/-- The loop of `do_ls` caches the files it reads of, and puts their names in front. -/
theorem doLs_spec (hs : M.sb.entry = .shfs) (hp : ValidPath p) (lines : List OkfsDirent) :
    ∀ v acc, v.backend.WF →
      (∀ l ∈ lines, l.name = ascii "." ∨ l.name = ascii ".." ∨
        ∃ f, v.backend.tree (p ++ [l.name]) = some f) →
      Caches M v (lines.foldl (doLsLine M (M.rel p)) (v, acc)).1 ∧
        (lines.foldl (doLsLine M (M.rel p)) (v, acc)).2.map (·.name) =
          (notDots (lines.map (·.name))).reverse ++ acc.map (·.name) := by
  induction lines with
  | nil => exact fun v acc _ _ => ⟨.refl, rfl⟩
  | cons l lines ih =>
    intro v acc hwf hlines
    have hrest : ∀ l' ∈ lines, l'.name = ascii "." ∨ l'.name = ascii ".." ∨
        ∃ f, v.backend.tree (p ++ [l'.name]) = some f :=
      fun l' hl' => hlines l' (List.mem_cons_of_mem _ hl')
    rw [List.foldl_cons]
    by_cases hdot : l.name = ascii "." ∨ l.name = ascii ".."
    · have hstep : doLsLine M (M.rel p) (v, acc) l = (v, acc) := by simp [doLsLine, hdot]
      rw [hstep, List.map_cons, notDots_cons_of_pos hdot]
      exact ih v acc hwf hrest
    · obtain ⟨f, hf⟩ : ∃ f, v.backend.tree (p ++ [l.name]) = some f := by
        rcases hlines l (List.mem_cons_self ..) with h | h | h
        · exact absurd (.inl h) hdot
        · exact absurd (.inr h) hdot
        · exact h
      have hvalid := hwf.valid _ f hf
      obtain ⟨v₁, i, heq, hcaches, -⟩ :=
        addToCache_caches hs hvalid hf (Mount.cachePath_readdir hvalid)
      have hstep : doLsLine M (M.rel p) (v, acc) l = (v₁, ⟨i, DT_UNKNOWN, l.name⟩ :: acc) := by
        simp only [doLsLine, hdot, if_false, Mount.components_rel hp, hf, heq]
        rfl
      have hb := hcaches.frame.backend
      obtain ⟨hcaches', hnames⟩ := ih v₁ (⟨i, DT_UNKNOWN, l.name⟩ :: acc) (hb ▸ hwf)
        (by rw [hb]; exact hrest)
      rw [hstep]
      refine ⟨hcaches.trans hcaches', ?_⟩
      rw [hnames, List.map_cons, List.map_cons, notDots_cons_of_neg hdot, List.reverse_cons,
        List.append_assoc, List.singleton_append]

/-- Without `.` and `..` from the server and with its own, shfs has the directory's names. -/
theorem lists_notDots {b : Backend} (hwf : b.WF) {names : List Name} (h : b.Lists p names) :
    b.Lists p ((notDots names).reverse ++ [ascii "..", ascii "."]) := by
  have hmem : ∀ n, n ∈ notDots names ↔ n ∈ names ∧ n ≠ ascii "." ∧ n ≠ ascii ".." := by
    intro n
    simp [notDots]
  refine ⟨h.isDir, ?_, fun n => ?_⟩
  · refine List.Nodup.append (List.nodup_reverse.mpr (h.nodup.filter _)) (by decide) ?_
    intro n hn hdots
    obtain ⟨-, h₁, h₂⟩ := (hmem n).mp (List.mem_reverse.mp hn)
    rcases List.mem_cons.mp hdots with rfl | hdots
    · exact h₂ rfl
    · exact h₁ (List.mem_singleton.mp hdots)
  · rw [List.mem_append, List.mem_reverse, hmem, h.mem_iff]
    have hname : (∃ f, b.tree (p ++ [n]) = some f) → n ≠ ascii "." ∧ n ≠ ascii ".." := by
      rintro ⟨f, hf⟩
      have := hwf.valid _ f hf n (by simp)
      exact ⟨this.2.2.1, this.2.2.2⟩
    simp only [List.mem_cons, List.not_mem_nil, or_false]
    constructor
    · rintro (⟨h, -⟩ | h | h)
      · exact h
      · exact .inr (.inl h)
      · exact .inl h
    · rintro (h | h | h)
      · exact .inr (.inr h)
      · exact .inr (.inl h)
      · exact .inl ⟨.inr (.inr h), hname h⟩

theorem setFile_sameFs {fd : FileRef} {filep : OkfsFile} (h : v.files fd = some filep) (pos : Int) :
    SameFs M v (v.setFile fd { filep with fPos := pos }) := by
  have hfiles : ∀ fd' filep', v.files fd' = some filep' →
      ∃ pos', (v.setFile fd { filep with fPos := pos }).files fd' =
        some { filep' with fPos := pos' } := by
    intro fd' filep' h'
    by_cases hfd : fd' = fd
    · rw [hfd, h, Option.some.injEq] at h'
      exact ⟨pos, by rw [hfd, Vfs.setFile_self, h']⟩
    · exact ⟨filep'.fPos, (Vfs.setFile_of_ne hfd).trans h'⟩
  refine ⟨rfl, rfl, rfl, rfl, rfl, rfl, rfl, fun hok => ⟨?_, hok.pending⟩,
    fun fd' filep' h' _ => hfiles fd' filep' h'⟩
  intro fd' filep' h'
  by_cases hfd : fd' = fd
  · rw [hfd, Vfs.setFile_self, Option.some.injEq] at h'
    rw [← h', hfd]
    exact hok.files fd filep h
  · exact hok.files fd' filep' ((Vfs.setFile_of_ne hfd).symm.trans h')

/-- Either call reads the directory and moves the descriptor, or does nothing. -/
theorem GetdentsCall.run_eq_some {g : GetdentsCall} {fd : FileRef} {count : Nat}
    {raw : Except Errno (List OkfsDirent)} {filep : OkfsFile} {r : Int × List UserDirent}
    (hfile : v.files fd = some filep) (h : g.run M v fd count raw = some (v', r)) :
    v' = v ∨ ∃ v₁ ret, count ≠ 0 ∧ okfsDoReaddir M v filep raw = some (v₁, ret) ∧
      (v' = v₁ ∨ ∃ pos, v' = v₁.setFile fd { filep with fPos := pos }) := by
  rw [g.run_eq, getdentsWith, hfile] at h
  simp only [Option.bind_eq_bind, Option.bind_some] at h
  split at h
  · exact .inl (Prod.mk.inj (Option.some.inj h)).1.symm
  · rename_i hcount
    obtain ⟨⟨v₁, ret⟩, hread, h⟩ := Option.bind_eq_some_iff.mp h
    refine .inr ⟨v₁, ret, hcount, hread, ?_⟩
    cases ret with
    | error e => exact .inl (Prod.mk.inj (Option.some.inj h)).1.symm
    | ok dp =>
      obtain ⟨⟨n, recs⟩, -, h⟩ := Option.bind_eq_some_iff.mp h
      simp only at h
      split at h
      · exact .inr ⟨_, (Prod.mk.inj (Option.some.inj h)).1.symm⟩
      · exact .inl (Prod.mk.inj (Option.some.inj h)).1.symm

theorem shfsReaddir_spec (hs : M.sb.entry = .shfs) (hwf : v.backend.WF) {filep : OkfsFile}
    {raw ret : Except Errno (List OkfsDirent)} (hp : ValidPath p) (hpath : filep.path = M.full p)
    (hrel : filep.relPath = M.rel p)
    (hreads : ∀ ds, raw = .ok ds → v.backend.Lists p (ds.map (·.name)))
    (h : shfsReaddir M v filep raw = some (v', ret)) :
    Caches M v v' ∧ ∀ dp, ret = .ok dp →
      (∃ ds, raw = .ok ds) ∧ v.backend.Lists p (dp.map (·.name)) := by
  unfold shfsReaddir at h
  obtain ⟨curi, -, h⟩ := Option.bind_eq_some_iff.mp h
  obtain ⟨⟨w, pari⟩, hpar, h⟩ := Option.bind_eq_some_iff.mp h
  have hw : Caches M v w := getParentIno_caches hp (hpath ▸ hpar)
  have hb := hw.frame.backend
  cases raw with
  | error e =>
    obtain ⟨rfl, rfl⟩ := Prod.mk.inj (Option.some.inj h)
    exact ⟨hw, fun dp hdp => by cases hdp⟩
  | ok lines =>
    have hlists := hreads lines rfl
    have hlines : ∀ l ∈ lines, l.name = ascii "." ∨ l.name = ascii ".." ∨
        ∃ f, w.backend.tree (p ++ [l.name]) = some f := by
      intro l hl
      rw [hb]
      exact (hlists.mem_iff l.name).mp (List.mem_map_of_mem hl)
    rw [hrel] at h
    obtain ⟨rfl, rfl⟩ := Prod.mk.inj (Option.some.inj h)
    obtain ⟨hcaches, hnames⟩ := doLs_spec hs hp lines w
      [⟨pari, DT_DIR, ascii ".."⟩, ⟨curi, DT_DIR, ascii "."⟩] (hb ▸ hwf) hlines
    refine ⟨hw.trans hcaches, fun dp hdp => ⟨⟨lines, rfl⟩, ?_⟩⟩
    rw [← Except.ok.inj hdp, hnames]
    exact lists_notDots hwf hlists

/-- Reading a directory finds its listing cached, or fails, or caches it. -/
theorem okfsDoReaddir_spec (hbase : Base M v) {filep : OkfsFile} {fd : FileRef}
    (hfile : v.files fd = some filep) {raw ret : Except Errno (List OkfsDirent)}
    (hreads : ∀ ds, raw = .ok ds → ReadsDir M v filep ds)
    (h : okfsDoReaddir M v filep raw = some (v', ret)) :
    Caches M v v' ∨
    ∃ ds dp q v₁, raw = .ok ds ∧ cacheFindDirent M v filep.path = [] ∧ Caches M v v₁ ∧
      v.backend.Lists q (ds.map (·.name)) ∧ v.backend.Lists q (dp.map (·.name)) ∧
      (match M.sb.entry with
        | .localfs => v.backend.tree q = some filep.file
        | .shfs => components slash filep.relPath = q) ∧
      v' = cacheAddDirent M v₁ filep.path dp := by
  unfold okfsDoReaddir at h
  cases hc : cacheFindDirent M v filep.path with
  | cons d ds =>
    rw [hc] at h
    rw [← (Prod.mk.inj (Option.some.inj h)).1]
    exact .inl .refl
  | nil =>
    rw [hc] at h
    obtain ⟨⟨v₁, ret₁⟩, hread, h⟩ := Option.bind_eq_some_iff.mp h
    have hspec : Caches M v v₁ ∧ ∀ dp, ret₁ = .ok dp → ∃ ds q, raw = .ok ds ∧
        v.backend.Lists q (ds.map (·.name)) ∧ v.backend.Lists q (dp.map (·.name)) ∧
        (match M.sb.entry with
          | .localfs => v.backend.tree q = some filep.file
          | .shfs => components slash filep.relPath = q) := by
      unfold epReaddir at hread
      cases hs : M.sb.entry with
      | localfs =>
        rw [hs] at hread
        obtain ⟨rfl, rfl⟩ := Prod.mk.inj (Option.some.inj hread)
        refine ⟨.refl, fun dp hdp => ?_⟩
        cases raw with
        | error e => cases hdp
        | ok ds =>
          have hdir := hreads ds rfl
          rw [ReadsDir, hs] at hdir
          obtain ⟨q, hq, hlists⟩ := hdir
          refine ⟨ds, q, rfl, hlists, ?_, hq⟩
          rw [← Except.ok.inj hdp, List.map_reverse]
          exact hlists.perm (List.reverse_perm _).symm
      | shfs =>
        rw [hs] at hread
        obtain ⟨-, p, hp, hpath, hrel⟩ := hbase.openOk.files fd filep hfile
        have hcomp : components slash filep.relPath = p := by rw [hrel, Mount.components_rel hp]
        have hraw : ∀ ds, raw = .ok ds → v.backend.Lists p (ds.map (·.name)) := by
          intro ds hds
          have hdir := hreads ds hds
          rw [ReadsDir, hs] at hdir
          exact hcomp ▸ hdir
        obtain ⟨hcaches, hok⟩ := shfsReaddir_spec hs hbase.wf hp hpath hrel hraw hread
        refine ⟨hcaches, fun dp hdp => ?_⟩
        obtain ⟨⟨ds, hds⟩, hlists⟩ := hok dp hdp
        exact ⟨ds, p, hds, hraw ds hds, hlists, hcomp⟩
    obtain ⟨hcaches, hok⟩ := hspec
    cases ret₁ with
    | error e =>
      rw [← (Prod.mk.inj (Option.some.inj h)).1]
      exact .inl hcaches
    | ok dp =>
      obtain ⟨ds, q, hds, hlines, hlists, hread⟩ := hok dp rfl
      rw [← (Prod.mk.inj (Option.some.inj h)).1]
      exact .inr ⟨ds, dp, q, v₁, hds, rfl, hcaches, hlines, hlists, hread, rfl⟩

theorem getdents_effect (hbase : Base M v) {g : GetdentsCall} {fd : FileRef} {count : Nat}
    {raw : Except Errno (List OkfsDirent)} (hadm : Admissible M v (.getdents g fd count raw))
    (h : nsStep M v (.getdents g fd count raw) = some v') :
    Effect M v (.getdents g fd count raw) v' := by
  obtain ⟨-, filep, hfile, hreads⟩ := hadm
  obtain ⟨⟨v', r⟩, hrun, rfl⟩ := Option.map_eq_some_iff.mp h
  rcases g.run_eq_some hfile hrun with heq | ⟨v₁, ret, hcount, hread, hv'⟩
  · rw [heq]
    exact .none _
  · have hsame : v₁.files = v.files → SameFs M v₁ v' := by
      intro hfiles
      rcases hv' with rfl | ⟨pos, rfl⟩
      · exact .refl M _
      · exact setFile_sameFs (hfiles ▸ hfile) pos
    rcases okfsDoReaddir_spec hbase hfile hreads hread with
      hcaches | ⟨ds, dp, q, v₂, rfl, huncached, hcaches, hlines, hlists, hq, rfl⟩
    · exact .quiet hcaches (.refl _) rfl (hsame hcaches.frame.files)
    · exact .listed hfile hcount huncached hcaches hlines hlists hq (hsame hcaches.frame.files)

/-! ### All calls -/

theorem okfsAfterOkfsOpen_sameFs {i : Nat} {opened : Bool}
    (h : okfsAfterOkfsOpen M v i opened = some v') : SameFs M v v' := by
  obtain ⟨o, ho, rfl⟩ := Option.map_eq_some_iff.mp h
  have hmem : o ∈ v.pending := List.mem_of_getElem? ho
  have hrest : OpenOk M v → ∀ o' ∈ v.pending.eraseIdx i, IsOpenPath M o'.canonPath o'.relPath :=
    fun hok o' ho' => hok.pending o' (List.mem_of_mem_eraseIdx ho')
  cases opened with
  | false =>
    exact ⟨rfl, rfl, rfl, rfl, rfl, rfl, rfl, fun hok => ⟨hok.files, hrest hok⟩,
      fun _ filep h _ => ⟨filep.fPos, h⟩⟩
  | true =>
    refine ⟨rfl, rfl, rfl, rfl, rfl, rfl, rfl, fun hok => ⟨fun fd filep h => ?_, hrest hok⟩,
      fun fd filep h hlt => ⟨filep.fPos, (Function.update_of_ne (Nat.ne_of_lt hlt) ..).trans h⟩⟩
    have h : Function.update v.files v.nextFile _ fd = some filep := h
    show fd < v.nextFile + 1 ∧ _
    by_cases hfd : fd = v.nextFile
    · rw [hfd, Function.update_self, Option.some.injEq] at h
      rw [hfd, ← h]
      exact ⟨Nat.lt_succ_self _, hok.pending o hmem⟩
    · rw [Function.update_of_ne hfd] at h
      obtain ⟨hlt, hpath⟩ := hok.files fd filep h
      exact ⟨Nat.lt_succ_of_lt hlt, hpath⟩

theorem tick_sameFs (now : Nat) : SameFs M v { v with now := now } :=
  ⟨rfl, rfl, rfl, rfl, rfl, rfl, rfl, fun h => ⟨h.files, h.pending⟩,
    fun _ filep h _ => ⟨filep.fPos, h⟩⟩

/-- A call that makes an entry, other than open. -/
theorem addingCall_effect {op : NsOp} {b : Backend} {ret : Ret}
    (hstep : nsStep M v op = (addingCall M v (M.full p) b ret).map Prod.fst) (hp : ValidPath p)
    (hok : ret = .ok () → p ≠ [] ∧ (∃ f, b.tree p = some f) ∧ Makes M v op p b) :
    ∃ v', nsStep M v op = some v' ∧ Effect M v op v' := by
  cases ret with
  | error e => exact ⟨v, hstep, .none op⟩
  | ok =>
    obtain ⟨hne, hfound, hmakes⟩ := hok rfl
    obtain ⟨v', heq, hadded⟩ := addingCall_ok (v := v) hp hne hfound
    exact ⟨v', by rw [hstep, heq]; rfl, .made hmakes .refl hadded (.refl M v')⟩

/-- A call that takes an entry away gets through when the entry can be dropped. -/
theorem removingCall_effect {op : NsOp} {ret : Ret}
    (hstep : nsStep M v op =
      (removingCall M v (M.full p) (v.backend.remove p) ret).map Prod.fst)
    (hp : ValidPath p) (hok : ret = .ok () → p ≠ [] ∧ Takes op p) :
    (∀ v', nsStep M v op = some v' → Effect M v op v') ∧
      ((ret = .ok () → CanDropEntry M v p) → ∃ v', nsStep M v op = some v') := by
  cases ret with
  | error e =>
    refine ⟨fun v' h => ?_, fun _ => ⟨v, hstep⟩⟩
    rw [hstep] at h
    rw [← Option.some.inj h]
    exact .none op
  | ok =>
    obtain ⟨hne, htakes⟩ := hok rfl
    refine ⟨fun v' h => ?_, fun hdrop => ?_⟩
    · rw [hstep, removingCall_ok hp hne] at h
      rw [h.2]
      exact .taken htakes h.1
    · exact ⟨_, by rw [hstep, removingCall_ok hp hne]; exact ⟨hdrop rfl, rfl⟩⟩

theorem okfsRename_effect (hp₁ : ValidPath p₁) (hp₂ : ValidPath p₂) {ret : Ret}
    (hok : ret = .ok () → v.backend.CanRename p₁ p₂) :
    (∀ v', nsStep M v (.rename p₁ p₂ ret) = some v' → Effect M v (.rename p₁ p₂ ret) v') ∧
      ((ret = .ok () → CanDropEntry M v p₁) → ∃ v', nsStep M v (.rename p₁ p₂ ret) = some v') := by
  cases ret with
  | error e =>
    refine ⟨fun v' h => ?_, fun _ => ⟨v, rfl⟩⟩
    rw [← show v = v' from Option.some.inj h]
    exact .none _
  | ok =>
    have hcan := hok rfl
    obtain ⟨hne₁, hne₂⟩ := hcan.ne_nil
    have hadd := cacheAddEntry_added (M := M)
      (v := dropEntry M { v with backend := v.backend.rename p₁ p₂ } p₁) hp₂ hne₂ hcan.target
    obtain ⟨v₂, heq₂, hadded⟩ := hadd
    -- the entry is dropped with the backend already changed
    generalize hw : ({ v with backend := v.backend.rename p₁ p₂ } : Vfs) = w at heq₂ hadded
    have hrun : nsStep M v (.rename p₁ p₂ (.ok ())) =
        (cacheRemoveEntry M w (M.full p₁)).bind fun v => cacheAddEntry M v (M.full p₂) := by
      rw [nsStep, okfsRename]
      simp only [Mount.components_rel hp₁, Mount.components_rel hp₂, hw, Option.bind_eq_bind]
      cases cacheRemoveEntry M w (M.full p₁) with
      | none => rfl
      | some v₁ =>
        rw [Option.bind_some, Option.bind_some]
        cases cacheAddEntry M v₁ (M.full p₂) <;> rfl
    have hdrops : ∀ v₁, cacheRemoveEntry M w (M.full p₁) = some v₁ ↔
        CanDropEntry M v p₁ ∧ v₁ = dropEntry M w p₁ :=
      fun v₁ => hw ▸ cacheRemoveEntry_iff hp₁ hne₁
    refine ⟨fun v' h => ?_, fun hdrop => ?_⟩
    · rw [hrun] at h
      obtain ⟨v₁, h₁, h₂⟩ := Option.bind_eq_some_iff.mp h
      obtain ⟨hdrop, rfl⟩ := (hdrops v₁).mp h₁
      rw [heq₂, Option.some.injEq] at h₂
      exact .renamed hdrop (hw ▸ h₂ ▸ hadded)
    · exact ⟨v₂, by rw [hrun, (hdrops _).mpr ⟨hdrop rfl, rfl⟩, Option.bind_some, heq₂]⟩

/-- What a call takes away can be dropped from the caches. -/
def CanDrop (M : Mount) (v : Vfs) : NsOp → Prop
  | .unlink p (.ok ()) => CanDropEntry M v p
  | .rmdir p (.ok ()) => CanDropEntry M v p
  | .rename p₁ _ (.ok ()) => CanDropEntry M v p₁
  | _ => True

/-- The calls that edit listings and the path cache: all but reading a directory. -/
def NsOp.Edits : NsOp → Prop
  | .getdents .. => False
  | _ => True

theorem nsStep_spec (hbase : Base M v) {op : NsOp} (hadm : Admissible M v op) :
    (∀ v', nsStep M v op = some v' → Effect M v op v') ∧
      (op.Edits → CanDrop M v op → ∃ v', nsStep M v op = some v') := by
  have hboth : (∃ v', nsStep M v op = some v' ∧ Effect M v op v') →
      (∀ v', nsStep M v op = some v' → Effect M v op v') ∧
        (op.Edits → CanDrop M v op → ∃ v', nsStep M v op = some v') := by
    rintro ⟨v', heq, heffect⟩
    refine ⟨fun w hw => ?_, fun _ _ => ⟨v', heq⟩⟩
    rw [heq, Option.some.injEq] at hw
    exact hw ▸ heffect
  cases op with
  | lookup p =>
    refine hboth ⟨_, rfl, .quiet ?_ (.refl _) rfl (.refl M _)⟩
    rw [← arglstat_full hadm]
    exact arglstat_caches hadm
  | «open» p flags trunc ans =>
    exact hboth (okfsDoOpen_effect hadm.1 fun st hans hc => (hadm.2 st hans hc).1)
  | afterOpen i opened =>
    have hlt : i < v.pending.length := hadm
    refine ⟨fun v' h => ?_, fun _ _ => ?_⟩
    · exact .quiet .refl (.refl v) rfl (okfsAfterOkfsOpen_sameFs h)
    · rw [nsStep, okfsAfterOkfsOpen, List.getElem?_eq_getElem hlt]
      exact ⟨_, rfl⟩
  | mkdir p st ret =>
    refine hboth (addingCall_effect rfl hadm.1 fun hret => ?_)
    rw [Mount.components_rel hadm.1]
    exact ⟨(hadm.2 hret).1.ne_nil, ⟨_, Backend.tree_create_self⟩, hret ▸ .mkdir⟩
  | symlink p st ret =>
    refine hboth (addingCall_effect rfl hadm.1 fun hret => ?_)
    rw [Mount.components_rel hadm.1]
    exact ⟨(hadm.2 hret).1.ne_nil, ⟨_, Backend.tree_create_self⟩, hret ▸ .symlink⟩
  | link p₁ p₂ ret =>
    obtain ⟨hp₁, hp₂, hok⟩ := hadm
    refine hboth (addingCall_effect rfl hp₂ fun hret => ?_)
    rw [Mount.components_rel hp₁, Mount.components_rel hp₂]
    obtain ⟨f, hf, -⟩ := (hok hret).source
    exact ⟨(hok hret).ne_nil, ⟨f, Backend.tree_link_self hf⟩, hret ▸ .link⟩
  | unlink p ret =>
    have heffect := removingCall_effect (M := M) (v := v)
      (show nsStep M v (.unlink p ret) = _ by rw [nsStep, okfsUnlink, Mount.components_rel hadm.1]) hadm.1
      fun hret => ⟨(hadm.2 hret).1.ne_nil, hret ▸ .unlink⟩
    exact ⟨heffect.1, fun _ hdrop => heffect.2 fun hret => by rw [hret] at hdrop; exact hdrop⟩
  | rmdir p ret =>
    have heffect := removingCall_effect (M := M) (v := v)
      (show nsStep M v (.rmdir p ret) = _ by rw [nsStep, okfsRmdir, Mount.components_rel hadm.1]) hadm.1
      fun hret => ⟨(hadm.2 hret).1.ne_nil, hret ▸ .rmdir⟩
    exact ⟨heffect.1, fun _ hdrop => heffect.2 fun hret => by rw [hret] at hdrop; exact hdrop⟩
  | rename p₁ p₂ ret =>
    have heffect := okfsRename_effect (M := M) hadm.1 hadm.2.1 hadm.2.2
    exact ⟨heffect.1, fun _ hdrop => heffect.2 fun hret => by rw [hret] at hdrop; exact hdrop⟩
  | getdents g fd count raw => exact ⟨fun v' h => getdents_effect hbase hadm h, fun h => by cases h⟩
  | tick now => exact hboth ⟨_, rfl, .quiet .refl (.refl v) rfl (tick_sameFs now)⟩

/-! ### What all steps keep -/

theorem Touched.openOk (h : Touched v v') (hok : OpenOk M v) : OpenOk M v' := by
  refine ⟨fun fd filep hfile => ?_, fun o ho => hok.pending o (h.pending ▸ ho)⟩
  rw [h.nextFile]
  exact hok.files fd filep (h.files ▸ hfile)

theorem Caches.openOk (h : Caches M v v') (hok : OpenOk M v) : OpenOk M v' := by
  have hframe := h.frame
  refine ⟨fun fd filep hfile => ?_, fun o ho => hok.pending o (hframe.pending ▸ ho)⟩
  rw [hframe.nextFile]
  exact hok.files fd filep (hframe.files ▸ hfile)

theorem Base.caches (h : Base M v) (hcaches : Caches M v v') : Base M v' :=
  ⟨hcaches.refsOk h.refs, hcaches.frame.backend ▸ h.wf, hcaches.openOk h.openOk⟩

theorem Base.touched (h : Base M v) (htouched : Touched v v') : Base M v' :=
  ⟨htouched.refsOk h.refs, htouched.wf h.wf, htouched.openOk h.openOk⟩

theorem RefsOk.congr (h : RefsOk M v) (hipath : ∀ k r, Buckets.Mem M.nameHash v'.ipathCache k r →
    Buckets.Mem M.nameHash v.ipathCache k r) (hinr : v'.inrCache = v.inrCache)
    (hinode : v'.inode = v.inode) (href : v'.nextRef = v.nextRef)
    (hnext : v'.nextInode = v.nextInode) : RefsOk M v' := by
  refine ⟨fun k r hm => ?_, ?_, ?_⟩
  · rw [href]
    exact h.ipath k r (hipath k r hm)
  · rw [hinr, href]
    exact h.inr
  · rw [href, hinode, hnext]
    exact h.ino

theorem Base.sameFs (h : Base M v) (hsame : SameFs M v v') : Base M v' :=
  ⟨h.refs.congr (fun _ _ hm => hsame.ipathCache ▸ hm) hsame.inrCache hsame.inode hsame.nextRef
    hsame.nextInode, hsame.backend ▸ h.wf, hsame.openOk h.openOk⟩

theorem Base.added (h : Base M v) (hadded : Added M v p v') : Base M v' := by
  obtain ⟨v₁, d, hcaches, htouched, -, -⟩ := hadded
  exact (h.caches hcaches).touched htouched

theorem Base.backend (h : Base M v) {b : Backend} (hwf : b.WF) :
    Base M { v with backend := b } :=
  ⟨h.refs.congr (fun _ _ hm => hm) rfl rfl rfl rfl, hwf, ⟨h.openOk.files, h.openOk.pending⟩⟩

theorem Base.dropEntry (h : Base M v) : Base M (dropEntry M v p) :=
  ⟨h.refs.congr (fun _ _ hm => Buckets.mem_of_mem_eraseFirst hm) rfl rfl rfl rfl, h.wf,
    ⟨h.openOk.files, h.openOk.pending⟩⟩

theorem Makes.wf (hbase : Base M v) {op : NsOp} {b : Backend} (hadm : Admissible M v op)
    (h : Makes M v op p b) : b.WF := by
  cases h with
  | «open» hcreates => exact hbase.wf.create (hadm.2 _ rfl hcreates).1
  | mkdir => exact hbase.wf.create (hadm.2 rfl).1
  | symlink => exact hbase.wf.create (hadm.2 rfl).1
  | link => exact hbase.wf.link (hadm.2.2 rfl)

theorem Takes.canRemove {op : NsOp} (hadm : Admissible M v op) (h : Takes op p) :
    v.backend.CanRemove p := by
  cases h with
  | unlink => exact (hadm.2 rfl).1
  | rmdir => exact (hadm.2 rfl).1

theorem Effect.base {op : NsOp} (hbase : Base M v) (hadm : Admissible M v op)
    (h : Effect M v op v') : Base M v' := by
  cases h with
  | quiet hcaches htouched _ hsame => exact ((hbase.caches hcaches).touched htouched).sameFs hsame
  | made hmakes hcaches hadded hsame =>
    exact (((hbase.backend (hmakes.wf hbase hadm)).caches hcaches).added hadded).sameFs hsame
  | taken htakes => exact (hbase.backend (hbase.wf.remove (htakes.canRemove hadm))).dropEntry
  | renamed _ hadded => exact ((hbase.backend (hbase.wf.rename (hadm.2.2 rfl))).dropEntry).added hadded
  | listed _ _ _ hcaches _ _ _ hsame => exact ((hbase.caches hcaches).touched (.of_dcache _)).sameFs hsame

theorem Base.mounted {b : Backend} (hwf : b.WF) : Base M (Vfs.mounted b) :=
  ⟨⟨fun _ _ hm => (List.not_mem_nil hm).elim, fun _ _ hr => (List.not_mem_nil hr).elim,
      fun _ r hr => absurd hr (Nat.not_lt_zero r)⟩, hwf,
    ⟨fun _ _ h => (by cases h), fun _ h => (List.not_mem_nil h).elim⟩⟩

end Okfs
