import Okfs.Task.Tracee

/-!
# OKFS — system calls with paths

The handlers of `vfs_path_calls.c`, `vfs_stat.c` and `vfs_open.c`. Most of them run when the
tracee leaves a call that the kernel has not executed: they resolve the path, have its
filesystem or Linux do the work on the canonical path, set the result and release the
strings. `pathCall` is what they have in common.
-/

namespace Okfs

namespace Syscall

open ByteMemory Memacc

variable {σ : Type} (h : Host σ)

-- ---------------------------------------------------------------------------
-- proc_path1 and proc_path2
-- ---------------------------------------------------------------------------

/-- `canonicalize` and `lcanonicalize`. -/
def canonicalize (s : Tracee σ) (path : CStr) (readLastLink : Bool) :
    Except Ending (Except Errno CStr) :=
  match canonical (h.namei s.world) (some s.slave.cwd) (some path) readLastLink with
  | .returned r => .ok r
  | .overrun | .unfinished => .error .undefined

/-- The string at an argument, and its canonical form. -/
def resolveArg (s : Tracee σ) (arg : Word) (option : Nat) :
    Except Ending (CStr × Except Errno CStr) :=
  if arg = 0 then .ok ([], .error .EFAULT)
  else do
    let path ← slaveGetstr h s arg
    let canon ← canonicalize h s path (option &&& READ_LAST_LINK ≠ 0)
    return (path, canon)

def Slave.traceeArgs (slave : Slave) (path : CStr) : TraceeArgs :=
  ⟨slave.arg1.toNat, slave.arg2.toNat, fun _ => path, slave.cwd⟩

def procPath1 (option : Nat) (s : Tracee σ) : Except Ending (Except Errno Unit × Tracee σ) := do
  let resp := s.slave.callfs
  let leaked := s.leaked || resp.relPath1.isSome || resp.path1.isSome || resp.canonPath1.isSome
  let (path, canon) ← resolveArg h s s.slave.arg1 option
  let found := Okfs.procPath1 (fun _ _ _ => canon) h.mounted (s.slave.traceeArgs path) option resp
  return (found.1, { s with slave := { s.slave with callfs := found.2 }, leaked })

def procPath2 (option : Nat) (s : Tracee σ) : Except Ending (Except Errno Unit × Tracee σ) := do
  let resp := s.slave.callfs
  let leaked := s.leaked || resp.relPath2.isSome || resp.path2.isSome || resp.canonPath2.isSome
  let (path, canon) ← resolveArg h s s.slave.arg2 option
  let found := Okfs.procPath2 (fun _ _ _ => canon) h.mounted (s.slave.traceeArgs path) option resp
  return (found.1, { s with slave := { s.slave with callfs := found.2 }, leaked })

def cleanPath1 (s : Tracee σ) : Tracee σ :=
  { s with
    slave := { s.slave with
      callfs := { s.slave.callfs with
        path1 := none, canonPath1 := none, relPath1 := none, arg1Fsp := none } } }

def cleanPath2 (s : Tracee σ) : Tracee σ :=
  { s with
    slave := { s.slave with
      callfs := { s.slave.callfs with
        path2 := none, canonPath2 := none, relPath2 := none, arg2Fsp := none } } }

-- ---------------------------------------------------------------------------
-- One path
-- ---------------------------------------------------------------------------

/-- The slot of the filesystem that is responsible, or Linux, which gets the canonical paths.
`missing` is the error of a filesystem that lacks the slot. -/
def perform (s : Tracee σ) (fsp : Option OkfsSuperblock) (entryOp : Option FsOp) (linuxOp : FsOp)
    (missing : Errno) (rel canon : Request) : Answer σ :=
  match fsp with
  | some fsp =>
    match entryOp.bind (h.entry fsp) with
    | some f => f rel s.world
    | none => ⟨-missing.code, fun _ => 0, s.world⟩
  | none => h.linux linuxOp canon s.world

/-- `perform` for the path of the first argument. -/
def perform1 (s : Tracee σ) (entryOp : Option FsOp) (linuxOp : FsOp) (nums : List Int)
    (data : List ByteMemory.Byte) : Answer σ :=
  let resp := s.slave.callfs
  perform h s resp.arg1Fsp entryOp linuxOp .EOPNOTSUPP
    { paths := [resp.relPath1.getD []], nums, data } { paths := [resp.canonPath1.getD []], nums, data }

/-- What is done with a path that could be resolved, or the error. -/
def orErrno (r : Except Errno Unit) (s : Tracee σ)
    (body : Tracee σ → Except Ending (Int × Tracee σ)) : Except Ending (Int × Tracee σ) :=
  match r with
  | .error e => .ok (-e.code, s)
  | .ok () => body s

/-- The handlers for one path. -/
def pathCall (option : Nat) (body : Tracee σ → Except Ending (Int × Tracee σ)) (s : Tracee σ) :
    Except Ending (Tracee σ) := do
  let (r, s) ← procPath1 h option s
  let (ret, s) ← orErrno r s body
  let s ← setSlaveReturn s ret
  return cleanPath1 s

/-- An operation that returns a number only. -/
def simpleBody (entryOp : Option FsOp) (linuxOp : FsOp) (nums : Slave → List Int) (s : Tracee σ) :
    Except Ending (Int × Tracee σ) :=
  let a := perform1 h s entryOp linuxOp (nums s.slave) []
  .ok (a.ret, { s with world := a.world })

/-- An operation that fills a structure of `size` bytes, which is then copied to the tracee. -/
def structBody (entryOp : Option FsOp) (linuxOp : FsOp) (size : Nat) (s : Tracee σ) :
    Except Ending (Int × Tracee σ) := do
  let a := perform1 h s entryOp linuxOp [] []
  let s := { s with world := a.world }
  let s ← onlyIf (a.ret = 0) s (slaveMemset s s.slave.arg2 a.buf size)
  return (a.ret, s)

/-- `mode_t` of the kernel's headers has 16 bits. -/
def modeT (w : Word) : Int := w.toNat % 2 ^ 16

def sizeofStat : Nat := 64
def sizeofStat64 : Nat := 96
def sizeofStatfs : Nat := 64
def sizeofUtimbuf : Nat := 8

def okfsAccess := pathCall h READ_LAST_LINK (simpleBody h (some .access) .access fun t => [t.arg2.toInt])

def okfsMkdir := pathCall h READ_LAST_LINK (simpleBody h (some .mkdir) .mkdir fun t => [modeT t.arg2])

def okfsRmdir := pathCall h READ_LAST_LINK (simpleBody h (some .rmdir) .rmdir fun _ => [])

def okfsChmod := pathCall h READ_LAST_LINK (simpleBody h (some .chmod) .chmod fun t => [modeT t.arg2])

def okfsTruncate :=
  pathCall h READ_LAST_LINK (simpleBody h (some .truncate) .truncate fun t => [t.arg2.toInt])

def okfsDochown (opt : Nat) :=
  pathCall h opt (simpleBody h (some .lchown) .lchown fun t => [t.arg2.toNat, t.arg3.toNat])

def okfsLchown := okfsDochown h 0

def okfsChown := okfsDochown h READ_LAST_LINK

def okfsMknod :=
  pathCall h READ_LAST_LINK (simpleBody h none .mknod fun t => [modeT t.arg2, t.arg3.toNat])

def okfsAcct := pathCall h READ_LAST_LINK (simpleBody h none .acct fun _ => [])

def okfsStatfs := pathCall h READ_LAST_LINK (structBody h (some .statfs) .statfs sizeofStatfs)

-- Of the filesystem's slot these ask `okfs_dolstat`, which looks for an inode record first.

def okfsStat := pathCall h READ_LAST_LINK (structBody h (some .lstat) .stat sizeofStat)

def okfsLstat := pathCall h 0 (structBody h (some .lstat) .lstat sizeofStat)

def okfsStat64 := pathCall h READ_LAST_LINK (structBody h (some .lstat) .stat64 sizeofStat64)

def okfsLstat64 := pathCall h 0 (structBody h (some .lstat) .lstat64 sizeofStat64)

/-- The times, unless the pointer to them is `NULL`. -/
def utimbuf (s : Tracee σ) : Except Ending (List ByteMemory.Byte) :=
  if s.slave.arg2 = 0 then .ok [] else slaveMemget s s.slave.arg2 sizeofUtimbuf

def okfsUtime :=
  pathCall h READ_LAST_LINK fun s => do
    let buf ← utimbuf s
    let a := perform1 h s (some .utime) .utime [] buf
    return (a.ret, { s with world := a.world })

def okfsReadlink :=
  pathCall h 0 fun s => do
    let bufsize := s.slave.arg3.toNat
    if bufsize = 0 then return (-Errno.EINVAL.code, s)
    else
      malloc h s bufsize
      let a := perform1 h s (some .readlink) .readlink [bufsize] []
      let s := { s with world := a.world }
      let s ← onlyIf (a.ret > 0) s (slaveMemset s s.slave.arg2 a.buf a.ret.toNat)
      return (a.ret, s)

/-- Here the strings are released before the result is set. -/
def okfsUnlink (s : Tracee σ) : Except Ending (Tracee σ) := do
  let (r, s) ← procPath1 h 0 s
  let (ret, s) ← orErrno r s (simpleBody h (some .unlink) .unlink fun _ => [])
  setSlaveReturn (cleanPath1 s) ret

/-- `errno` is that of `proc_path1`, or of `okfs_arglstat`. -/
def chdirTo (r : Except Errno Unit) (s : Tracee σ) : Except Ending (Tracee σ) :=
  match s.slave.callfs.canonPath1, r with
  | none, .error e => setSlaveReturn s (-e.code)
  | none, .ok () => setSlaveReturn s 0
  | some canon, _ =>
    match (h.namei s.world).arglstat canon with
    | .error e => setSlaveReturn s (-e.code)
    | .ok stMode =>
      if stMode ≠ .dir then setSlaveReturn s (-Errno.ENOTDIR.code)
      else setSlaveReturn { s with slave := { s.slave with cwd := canon } } 0

def okfsChdir (s : Tracee σ) : Except Ending (Tracee σ) := do
  let (r, s) ← procPath1 h READ_LAST_LINK s
  let s ← chdirTo h r s
  return cleanPath1 s

def ERANGE : Int := 34

def okfsGetcwd (s : Tracee σ) : Except Ending (Tracee σ) := do
  let cwd := s.slave.cwd
  if s.slave.arg2.toNat < cwd.length + 1 then setSlaveReturn s (-ERANGE)
  else
    let s ← slaveMemset s s.slave.arg1 (stringBytes cwd) (cwd.length + 1)
    setSlaveReturn s (cwd.length + 1)

-- ---------------------------------------------------------------------------
-- Two paths
-- ---------------------------------------------------------------------------

/-- The first path is resolved. -/
def beforeSecondPath (s : Tracee σ) : Except Ending (Tracee σ) := do
  let (r, s) ← procPath2 h 0 s
  match r with
  | .error e =>
    let s ← forceCallReturn s (-e.code)
    return cleanPath2 (cleanPath1 s)
  | .ok () =>
    if s.slave.callfs.arg1Fsp = s.slave.callfs.arg2Fsp then dummyCall s
    else forceCallReturn (cleanPath2 (cleanPath1 s)) (-Errno.EXDEV.code)

/-- Used before `link` and `rename`. -/
def okfsBeforeLnkRnm (s : Tracee σ) : Except Ending (Tracee σ) := do
  let (r, s) ← procPath1 h 0 s
  match r with
  | .error e =>
    let s ← forceCallReturn s (-e.code)
    return cleanPath1 s
  | .ok () => beforeSecondPath h s

/-- `okfs_link` and `okfs_rename`. -/
def twoPathCall (op : FsOp) (missing : Errno) (s : Tracee σ) : Except Ending (Tracee σ) := do
  let resp := s.slave.callfs
  let a := perform h s resp.arg1Fsp (some op) op missing
    { paths := [resp.relPath1.getD [], resp.relPath2.getD []] }
    { paths := [resp.canonPath1.getD [], resp.canonPath2.getD []] }
  let s ← setSlaveReturn { s with world := a.world } a.ret
  return cleanPath2 (cleanPath1 s)

def okfsLink := twoPathCall h .link .EPERM

def okfsRename := twoPathCall h .rename .EOPNOTSUPP

/-- The first argument is a text, no path. -/
def okfsSymlink (s : Tracee σ) : Except Ending (Tracee σ) := do
  let (r, s) ← procPath2 h 0 s
  let (ret, s) ← orErrno r s fun s => do
    let oldpath ← slaveGetstr h s s.slave.arg1
    let resp := s.slave.callfs
    let a := perform h s resp.arg2Fsp (some .symlink) .symlink .EOPNOTSUPP
      { paths := [oldpath, resp.relPath2.getD []] } { paths := [oldpath, resp.canonPath2.getD []] }
    return (a.ret, { s with world := a.world })
  let s ← setSlaveReturn s ret
  return cleanPath2 s

-- ---------------------------------------------------------------------------
-- open and creat
-- ---------------------------------------------------------------------------

-- as they stand in a register

def O_RDONLY : Word := Okfs.O_RDONLY.toBitVec
def O_WRONLY : Word := Okfs.O_WRONLY.toBitVec
def O_RDWR : Word := Okfs.O_RDWR.toBitVec
def O_CREAT : Word := Okfs.O_CREAT.toBitVec
def O_EXCL : Word := Okfs.O_EXCL.toBitVec
def O_TRUNC : Word := Okfs.O_TRUNC.toBitVec
def NR_OPEN : Word := BitVec.ofNat 32 Okfs.NR_OPEN

/-- `S_IRUSR | S_IWUSR`. -/
def tmpfMode : Word := 0x180

/-- `okfs_do_open` on `fsp`. Its records of inodes are part of the world. -/
def okfsDoOpen (s : Tracee σ) (fsp : OkfsSuperblock) (flags : Word) (mode : Int) : Int × Tracee σ :=
  let path := s.slave.callfs.relPath1.getD []
  match h.entry fsp .open, h.entry fsp .truncate, h.entry fsp .chmod, h.entry fsp .lstat with
  | some «open», some truncate, some _, some lstat =>
    let stat := lstat { paths := [path] } s.world
    let cached := h.cached s.world fsp (s.slave.callfs.canonPath1.getD [])
    let fexist := cached || stat.ret == 0
    let world := if cached then s.world else stat.world
    if flags &&& O_CREAT ≠ 0 ∧ flags &&& O_EXCL ≠ 0 ∧ fexist then
      (-Errno.EEXIST.code, { s with world })
    else
      let writes : Bool := flags &&& O_RDWR = O_RDWR ∨ flags &&& O_WRONLY = O_WRONLY
      let world :=
        if flags &&& O_TRUNC ≠ 0 ∧ fexist ∧ writes then
          (truncate { paths := [path], nums := [0] } world).world
        else world
      let flags := if flags &&& O_CREAT ≠ 0 ∧ fexist then flags &&& ~~~O_CREAT else flags
      let flags := flags &&& ~~~O_TRUNC
      let a := «open» { paths := [path], nums := [flags.toNat, mode] } world
      let world :=
        if a.ret ≥ 0 ∧ fexist = false then (lstat { paths := [path] } a.world).world else a.world
      (a.ret, { s with world })
  | _, _, _, _ => (-Errno.EOPNOTSUPP.code, s)

def addNewFd (s : Tracee σ) (fsp : Option OkfsSuperblock) (osfd : Nat) (fsfd : Int) : Tracee σ :=
  let resp := s.slave.callfs
  { s with
    slave := { s.slave with
      fdTab := Function.update s.slave.fdTab osfd
        (some ⟨fsp, resp.canonPath1.getD [], resp.relPath1⟩)
      fsfd := Function.update s.slave.fsfd osfd fsfd } }

/-- The descriptor that has been opened, if it has an entry in the table. -/
def recordOpened (s : Tracee σ) (fsp : Option OkfsSuperblock) (ret fsfd : Int) : Tracee σ :=
  if 0 ≤ ret ∧ ret < OPEN_MAX then addNewFd s fsp ret.toNat fsfd else s

/-- The call was redirected to `tmpf`; the descriptor stands for the file of OKFS. -/
def okfsAfterOkfsOpen (s : Tracee σ) : Except Ending (Tracee σ) := do
  let ret := s.slave.returnValue
  let s := recordOpened s s.slave.callfs.arg1Fsp ret s.slave.retvalSaved
  let ret := if ret ≥ OPEN_MAX then -Errno.ENFILE.code else ret
  let saved := s.slave.saveRegs
  let regs := { s.slave.regs with origEax := saved.origEax, eax := BitVec.ofInt 32 ret }
  let arg := { s.slave.arg with arg2 := saved.ecx, arg3 := saved.edx }
  let s ← setSlaveArgs { s with slave := { s.slave with regs, arg } }
  let s ← slaveRestoreMem s
  return cleanPath1 s

/-- Linux has opened the file at its canonical path; `fchdir` may ask for it later. -/
def okfsAfterLinuxOpen (s : Tracee σ) : Except Ending (Tracee σ) := do
  let ret := s.slave.returnValue
  let s := recordOpened s none ret ret
  let s ← slaveRestoreMem s
  return cleanPath1 s

/-- A file of OKFS, which `okfs_do_open` has opened: the kernel opens `tmpf` instead, by the
call `callNr`. -/
def openTmpf (ret : Int) (callNr : Word → Word) (s : Tracee σ) : Except Ending (Tracee σ) := do
  let s ← slaveRplKnownStr h s s.slave.arg1 h.tmpf (s.slave.callfs.path1.getD [])
  let arg := { s.slave.arg with arg2 := O_RDONLY ||| O_CREAT, arg3 := tmpfMode }
  let regs := { s.slave.regs with origEax := callNr s.slave.regs.origEax }
  setSlaveArgs
    { s with
      slave := { s.slave with
        saveRegs := s.slave.regs, retvalSaved := ret, arg, regs, nextCall := some .okfsAfterOkfsOpen } }

/-- A file of Linux, which opens it at its canonical path. -/
def openCanonical (s : Tracee σ) : Except Ending (Tracee σ) := do
  let resp := s.slave.callfs
  let s ← slaveRplKnownStr h s s.slave.arg1 (resp.canonPath1.getD []) (resp.path1.getD [])
  return { s with slave := { s.slave with nextCall := some .okfsAfterLinuxOpen } }

/-- An error is returned instead of what the call would return. -/
def failOpening (ret : Int) (s : Tracee σ) : Except Ending (Tracee σ) := do
  let s ← forceCallReturn s ret
  return cleanPath1 s

/-- `okfs_before_open` and `okfs_before_creat`. -/
def beforeOpening (flags : Word) (mode : Int) (callNr : Word → Word) (s : Tracee σ) :
    Except Ending (Tracee σ) := do
  let (r, s) ← procPath1 h READ_LAST_LINK s
  match r with
  | .error e => failOpening (-e.code) s
  | .ok () =>
    match s.slave.callfs.arg1Fsp with
    | some fsp =>
      let opened := okfsDoOpen h s fsp flags mode
      if opened.1 < 0 then failOpening opened.1 opened.2 else openTmpf h opened.1 callNr opened.2
    | none => openCanonical h s

def okfsBeforeOpen (s : Tracee σ) : Except Ending (Tracee σ) :=
  beforeOpening h s.slave.arg2 (modeT s.slave.arg3) (fun nr => nr) s

def okfsBeforeCreat (s : Tracee σ) : Except Ending (Tracee σ) :=
  beforeOpening h (O_CREAT ||| O_WRONLY ||| O_TRUNC) (modeT s.slave.arg2) (fun _ => NR_OPEN) s

end Syscall

end Okfs
