import Okfs.Vfs.Namespace

/-!
# OKFS — calls on descriptors

The handlers of fstat, lseek, read, write, ftruncate, fchmod and fchown, and of
truncate. An open file keeps three things that lead to a file: the path it was opened
by, the inode record that was found for that path, and what the backend gave for it
(`fsfd`). Each handler picks one of them, and they need not lead to the same file:
fstat takes the path, ftruncate, fchmod and fchown the relative path, lseek to the end
the path and the record, read and write the record and what the filesystem picks
(`fsfd` on localfs, the relative path on shfs).
-/

namespace Okfs

open Components FileTree

/-! ## The source -/

/-- A `statbuf` is written. -/
def Vfs.setInode (v : Vfs) (r : InodeRef) (st : Stat) : Vfs :=
  { v with inode := Function.update v.inode r st }

/-- An owner or group of -1 is kept. -/
def keepId (old new : Nat) : Nat := if new = 2 ^ 32 - 1 then old else new

def setOwners (owner group : Nat) (st : Stat) : Stat :=
  { st with stUid := keepId st.stUid owner, stGid := keepId st.stGid group }

/-- What chmod, chown and utime make of a file's attributes. `perm` is what the backend leaves of the
permission bits of a file with new owners, `ctime` the time of the change as it has it. -/
inductive Change
  | chmod (mode ctime : Nat)
  | chown (owner group perm ctime : Nat)
  | utime (atime mtime ctime : Nat)
  deriving DecidableEq, Repr

def Change.apply : Change → Stat → Stat
  | .chmod mode ctime, st => { st with stPerm := mode, stCtime := ctime }
  | .chown owner group perm ctime, st =>
    { setOwners owner group st with stPerm := perm, stCtime := ctime }
  | .utime atime mtime ctime, st =>
    { st with stAtime := atime, stMtime := mtime, stCtime := ctime }

def epChmod (b : Backend) (path : CStr) (mode ctime : Nat) (ans : Ret) : Backend × Ret :=
  epSetAttr b path (Change.chmod mode ctime).apply ans

def epLchown (b : Backend) (path : CStr) (owner group perm ctime : Nat) (ans : Ret) : Backend × Ret :=
  epSetAttr b path (Change.chown owner group perm ctime).apply ans

/-- `unsigned offset = fdp->f_pos` of shfs -/
def shfsOffset (filep : OkfsFile) : Nat := (filep.fPos % 2 ^ 32).toNat

/-- Where the kernel's `lseek` takes the offset of `fsfd`. -/
def soughtOffset (b : Backend) (filep : OkfsFile) (offset origin : Int) : Int :=
  if origin = SEEK_SET then offset
  else if origin = SEEK_CUR then filep.offset + offset
  else (b.attr filep.file).stSize + offset

/-- The `lseek` slot of localfs: the kernel's `lseek` on `fsfd`. The kernel has moved
before it finds that the new offset is too large to return. -/
def localfsLseek (b : Backend) (filep : OkfsFile) (offset origin : Int) (ans : Ret) :
    OkfsFile × Except Errno Int :=
  let pos := soughtOffset b filep offset origin
  match ans with
  | .error e =>
    if e = .EOVERFLOW then ({ filep with offset := pos.toNat }, .error e) else (filep, .error e)
  | .ok () => ({ filep with offset := pos.toNat }, .ok pos)

/-- The `lseek` slot; shfs has none. -/
def epLseek (M : Mount) (b : Backend) (filep : OkfsFile) (offset origin : Int) (ans : Ret) :
    OkfsFile × Option (Except Errno Int) :=
  match M.sb.entry with
  | .localfs =>
    let (filep, ret) := localfsLseek b filep offset origin ans
    (filep, some ret)
  | .shfs => (filep, none)

/-- The file that the `write` slot writes to, and the position. -/
def epWriteAt (M : Mount) (b : Backend) (filep : OkfsFile) : Option (FileId × Nat) :=
  match M.sb.entry with
  | .localfs =>
    some (filep.file, if filep.append then (b.attr filep.file).stSize else filep.offset)
  | .shfs => (b.tree (components slash filep.relPath)).map fun f => (f, shfsOffset filep)

/-- The `write` slot, of `n` bytes: the file's length and the kernel's offset. -/
def epWrite (M : Mount) (b : Backend) (filep : OkfsFile) (n : Nat) :
    Except Errno (Backend × OkfsFile) :=
  match epWriteAt M b filep with
  | none => .error .ENOENT
  | some (f, pos) =>
    .ok (b.changeFile f fun st => { st with stSize := max st.stSize (pos + n) },
      { filep with offset := pos + n })

section Source

variable (M : Mount) (v : Vfs)

def okfsFstat (fd : FileRef) : Option (Vfs × Except Errno Stat) :=
  (v.files fd).map fun filep => okfsDolstat M v filep.path filep.relPath

/-- What is stored as the new size is the return value, 0. -/
def okfsFtruncate (fd : FileRef) (length : Nat) (ans : Ret) : Option (Vfs × Ret) := do
  let filep ← v.files fd
  match epTruncate v.backend filep.relPath length ans with
  | (b, .error e) => some ({ v with backend := b }, .error e)
  | (b, .ok ()) =>
    let ino ← filep.ino
    some (({ v with backend := b } : Vfs).setInode ino { v.inode ino with stSize := 0 }, .ok ())

def okfsFchmod (fd : FileRef) (mode ctime : Nat) (ans : Ret) : Option (Vfs × Ret) := do
  let filep ← v.files fd
  let (b, ret) := epChmod v.backend filep.relPath mode ctime ans
  some ({ v with backend := b }, ret)

def okfsFchown (fd : FileRef) (owner group perm ctime : Nat) (ans : Ret) : Option (Vfs × Ret) := do
  let filep ← v.files fd
  let (b, ret) := epLchown v.backend filep.relPath owner group perm ctime ans
  some ({ v with backend := b }, ret)

/-- `f_pos` as it is returned: through `off_t`, which is 32 bits wide. -/
def posReturn (fPos : Int) : Except Errno Int :=
  if -2 ^ 31 ≤ fPos ∧ fPos < 2 ^ 31 then .ok fPos else .error .EOVERFLOW

/-- What `okfs_lseek` does for `SEEK_END`: `okfs_arglstat` into the descriptor's own
`statbuf`, whatever it returns. -/
def seekEnd (filep : OkfsFile) : Option (Vfs × Nat) := do
  let ino ← filep.ino
  let v := match arglstat M v filep.path with
    | (v, .ok buf) => v.setInode ino buf
    | (v, .error _) => v
  some (v, (v.inode ino).stSize)

/-- What `okfs_lseek` makes the new `f_pos`. -/
def newPos (filep : OkfsFile) (offset origin : Int) : Option (Vfs × Int) :=
  if origin = SEEK_SET then some (v, offset)
  else if origin = SEEK_CUR then some (v, filep.fPos + offset)
  else if origin = SEEK_END then
    (seekEnd M v filep).map fun (v, size) => (v, (size : Int) + offset)
  else some (v, filep.fPos)

/-- The return value is still `-EINVAL` where there is no slot to set it. -/
def okfsLseek (fd : FileRef) (offset origin : Int) (ans : Ret) : Option (Vfs × Except Errno Int) := do
  let filep ← v.files fd
  match epLseek M v.backend filep offset origin ans with
  | (filep, some (.error e)) => some (v.setFile fd filep, .error e)
  | (filep, ret) =>
    if origin > 2 then some (v.setFile fd filep, ret.getD (.error .EINVAL))
    else (newPos M v filep offset origin).map fun (v, fPos) =>
      (v.setFile fd { filep with fPos := fPos }, posReturn fPos)

/-- `okfs_read`; `ans` is the number of bytes that the backend read. -/
def okfsRead (fd : FileRef) (count : Nat) (ans : Except Errno Nat) : Option (Vfs × Int) := do
  let filep ← v.files fd
  if count = 0 then some (v, 0)
  else
    let ino ← filep.ino
    if filep.fPos < (v.inode ino).stSize then
      match ans with
      | .error e => some (v, -e.code)
      | .ok n =>
        if toInt32 n > 0 then
          some (v.setFile fd { filep with fPos := filep.fPos + n, offset := filep.offset + n }, n)
        else some (v, toInt32 n)
    else some (v, 0)

/-- `okfs_write`; `ans` is the number of bytes that the backend wrote. With nothing to
write, the return value was never assigned. -/
def okfsWrite (fd : FileRef) (count : Nat) (ans : Except Errno Nat) : Option (Vfs × Int) := do
  let filep ← v.files fd
  if count = 0 then some (v, M.stack)
  else
    match ans with
    | .error e => some (v, -e.code)
    | .ok n =>
      match epWrite M v.backend filep n with
      | .error e => some (v, -e.code)
      | .ok (b, filep) =>
        let v := { v with backend := b }
        if toInt32 n > 0 then do
          let ino ← filep.ino
          let st := v.inode ino
          let v := v.setInode ino { st with stSize := (st.stSize + n) % 2 ^ 32 }
          some (v.setFile fd { filep with fPos := filep.fPos + n }, n)
        else some (v.setFile fd filep, toInt32 n)

/-- `okfs_truncate` of a path that `proc_path1` resolved. -/
def okfsTruncate (canonPath1 relPath1 : CStr) (length : Nat) (ans : Ret) : Vfs × Ret :=
  match epTruncate v.backend relPath1 length ans with
  | (b, .error e) => ({ v with backend := b }, .error e)
  | (b, .ok ()) => (changeFileSize M { v with backend := b } canonPath1 length, .ok ())

end Source

/-! ## What the slots do -/

variable {M : Mount} {v v' : Vfs} {fd : FileRef} {filep : OkfsFile} {p : Path}

/-- A call that changes attributes gets through exactly where a file is, and changes it. -/
theorem epSetAttr_ok_iff {b b' : Backend} (hp : ValidPath p) {g : Stat → Stat} :
    epSetAttr b (M.rel p) g (.ok ()) = (b', .ok ()) ↔
      ∃ f, b.tree p = some f ∧ b' = b.changeFile f g := by
  unfold epSetAttr
  rw [Mount.components_rel hp]
  cases h : b.tree p with
  | none => simp
  | some f =>
    simp only [Backend.setAttr_of_tree h, Prod.mk.injEq, and_true, Option.some.injEq,
      exists_eq_left']
    exact eq_comm

theorem Vfs.setInode_self (v : Vfs) (r : InodeRef) (st : Stat) : (v.setInode r st).inode r = st :=
  Function.update_self ..

theorem Vfs.setInode_of_ne {r r' : InodeRef} {st : Stat} (h : r' ≠ r) :
    (v.setInode r st).inode r' = v.inode r' :=
  Function.update_of_ne h ..

/-- `lseek` moves the kernel's offset at most. -/
theorem epLseek_file (b : Backend) (filep : OkfsFile) (offset origin : Int) (ans : Ret) :
    ∃ pos, (epLseek M b filep offset origin ans).1 = { filep with offset := pos } := by
  unfold epLseek
  cases M.sb.entry with
  | shfs => exact ⟨filep.offset, rfl⟩
  | localfs =>
    show ∃ pos, (localfsLseek b filep offset origin ans).1 = _
    unfold localfsLseek
    cases ans with
    | ok => exact ⟨_, rfl⟩
    | error e =>
      by_cases he : e = .EOVERFLOW
      · exact ⟨(soughtOffset b filep offset origin).toNat, by simp only [if_pos he]⟩
      · exact ⟨filep.offset, by simp only [if_neg he]⟩

/-! ## What the handlers do -/

/-- `okfs_read` moves the descriptor at most. -/
theorem okfsRead_eq_some {count : Nat} {ans : Except Errno Nat} {ret : Int}
    (h : okfsRead v fd count ans = some (v', ret)) :
    v' = v ∨ ∃ filep fPos pos, v.files fd = some filep ∧
      v' = v.setFile fd { filep with fPos := fPos, offset := pos } := by
  obtain ⟨filep, hfile, h⟩ := Option.bind_eq_some_iff.mp h
  split at h
  · exact .inl (Prod.mk.inj (Option.some.inj h)).1.symm
  · obtain ⟨ino, -, h⟩ := Option.bind_eq_some_iff.mp h
    split at h
    · cases ans with
      | error e => exact .inl (Prod.mk.inj (Option.some.inj h)).1.symm
      | ok n =>
        simp only at h
        split at h
        · exact .inr ⟨filep, _, _, hfile, (Prod.mk.inj (Option.some.inj h)).1.symm⟩
        · exact .inl (Prod.mk.inj (Option.some.inj h)).1.symm
    · exact .inl (Prod.mk.inj (Option.some.inj h)).1.symm

/-- `okfs_write` of something that the backend writes completely. -/
theorem okfsWrite_of_ok {count : Nat} {f : FileId} {pos : Nat} {r : InodeRef}
    (hfile : v.files fd = some filep) (hino : filep.ino = some r)
    (hat : epWriteAt M v.backend filep = some (f, pos)) (hpos : count ≠ 0) (hlt : count < 2 ^ 31) :
    okfsWrite M v fd count (.ok count) =
      some (((({ v with backend := v.backend.changeFile f fun st =>
          { st with stSize := max (v.backend.attr f).stSize (pos + count) } } : Vfs).setInode r
            { v.inode r with stSize := ((v.inode r).stSize + count) % 2 ^ 32 }).setFile fd
              { filep with offset := pos + count, fPos := filep.fPos + count }), (count : Int)) := by
  have hret : toInt32 count > 0 := by
    rw [toInt32_of_lt hlt]
    omega
  rw [okfsWrite, hfile]
  simp only [Option.bind_eq_bind, Option.bind_some, if_neg hpos, epWrite, hat, hret, if_true, hino]
  rfl

/-- `okfs_ftruncate` gets through when the backend does and the descriptor has a record. -/
theorem okfsFtruncate_ok_iff (hfile : v.files fd = some filep) {length : Nat} :
    okfsFtruncate v fd length (.ok ()) = some (v', .ok ()) ↔
      ∃ b ino, epTruncate v.backend filep.relPath length (.ok ()) = (b, .ok ()) ∧
        filep.ino = some ino ∧
        v' = ({ v with backend := b } : Vfs).setInode ino { v.inode ino with stSize := 0 } := by
  rw [okfsFtruncate, hfile]
  simp only [Option.bind_eq_bind, Option.bind_some]
  rcases epTruncate v.backend filep.relPath length (.ok ()) with ⟨b, _ | _⟩
  · simp
  · cases filep.ino <;> simp [eq_comm]

/-- `okfs_lseek` once the slot, if there is one, has done its part. -/
theorem okfsLseek_of_file (hfile : v.files fd = some filep) {offset origin : Int} {ans : Ret} :
    okfsLseek M v fd offset origin ans =
      match epLseek M v.backend filep offset origin ans with
      | (filep, some (.error e)) => some (v.setFile fd filep, .error e)
      | (filep, ret) =>
        if origin > 2 then some (v.setFile fd filep, ret.getD (.error .EINVAL))
        else (newPos M v filep offset origin).map fun (v, fPos) =>
          (v.setFile fd { filep with fPos := fPos }, posReturn fPos) := by
  rw [okfsLseek, hfile]
  rfl

/-- `okfs_lseek` moves the descriptor, and to the end it may write over its record. -/
theorem okfsLseek_eq_some {offset origin : Int} {ans : Ret} {ret : Except Errno Int}
    (h : okfsLseek M v fd offset origin ans = some (v', ret)) :
    ∃ filep fPos pos, v.files fd = some filep ∧
      (v' = v.setFile fd { filep with fPos := fPos, offset := pos } ∨
        ∃ v₁ size, seekEnd M v { filep with offset := pos } = some (v₁, size) ∧
          v' = v₁.setFile fd { filep with fPos := fPos, offset := pos }) := by
  obtain ⟨filep, hfile, -⟩ := Option.bind_eq_some_iff.mp h
  rw [okfsLseek_of_file hfile] at h
  obtain ⟨pos, hpos⟩ := epLseek_file (M := M) v.backend filep offset origin ans
  rcases hep : epLseek M v.backend filep offset origin ans with ⟨filep', slot⟩
  rw [hep] at h hpos
  obtain rfl : filep' = { filep with offset := pos } := hpos
  split at h
  · next heq =>
    obtain ⟨rfl, -⟩ := Prod.mk.inj heq
    exact ⟨filep, filep.fPos, pos, hfile, .inl (Prod.mk.inj (Option.some.inj h)).1.symm⟩
  · next heq =>
    obtain ⟨rfl, -⟩ := Prod.mk.inj heq
    split at h
    · exact ⟨filep, filep.fPos, pos, hfile, .inl (Prod.mk.inj (Option.some.inj h)).1.symm⟩
    · obtain ⟨⟨v₁, fPos⟩, hpos, heq⟩ := Option.map_eq_some_iff.mp h
      refine ⟨filep, fPos, pos, hfile, ?_⟩
      rw [← (Prod.mk.inj heq).1]
      have hsame : ∀ {x : Int}, some (v, x) = some (v₁, fPos) → v₁ = v :=
        fun hx => (Prod.mk.inj (Option.some.inj hx)).1.symm
      unfold newPos at hpos
      split at hpos
      · exact .inl (by rw [hsame hpos])
      · split at hpos
        · exact .inl (by rw [hsame hpos])
        · split at hpos
          · obtain ⟨⟨v₂, size⟩, hseek, heq⟩ := Option.map_eq_some_iff.mp hpos
            rw [(Prod.mk.inj heq).1] at hseek
            exact .inr ⟨v₁, size, hseek, rfl⟩
          · exact .inl (by rw [hsame hpos])

end Okfs
