import Okfs.Task.PathCalls
import Okfs.Task.Patches
import Okfs.Task.Wait

/-!
# OKFS — system calls with descriptors, and of processes

The handlers of `vfs_fd_calls.c`, of `control.c` and of `sigaction`. A descriptor of a file of
OKFS is for Linux one of the temporary file; the calls on it are not executed by the kernel.
-/

namespace Okfs

namespace Syscall

open ByteMemory Memacc

variable {σ : Type} (h : Host σ)

-- ---------------------------------------------------------------------------
-- Before the calls
-- ---------------------------------------------------------------------------

/-- `slave->fd_tab[fd]`. -/
def Slave.file (slave : Slave) (fd : Int) : Except Ending (Option OkfsFile) :=
  if 0 ≤ fd ∧ fd < OPEN_MAX then .ok (slave.fdTab fd.toNat) else .error .undefined

/-- An entry of which a field is read. -/
def Slave.filep (slave : Slave) (fd : Int) : Except Ending OkfsFile := do
  match ← slave.file fd with
  | none => .error .segv
  | some filep => return filep

/-- `fd >= 0 && fd < OPEN_MAX && slave->fd_tab[fd]`. -/
def Slave.tracked (slave : Slave) (fd : Int) : Option OkfsFile :=
  if 0 ≤ fd ∧ fd < OPEN_MAX then slave.fdTab fd.toNat else none

/-- The filesystem of OKFS that a descriptor belongs to. -/
def Slave.trackedFsp (slave : Slave) (fd : Int) : Option OkfsSuperblock :=
  (slave.tracked fd).bind OkfsFile.fsp

/-- `slave->fd_tab[fd]->fsp->entry`: `NULL` is followed if there is none. -/
def Slave.entryOf (slave : Slave) (fd : Int) : Except Ending (OkfsFile × OkfsSuperblock) := do
  let filep ← slave.filep fd
  match filep.fsp with
  | none => .error .segv
  | some fsp => return (filep, fsp)

def okfsFdCall (s : Tracee σ) : Except Ending (Tracee σ) :=
  match s.slave.trackedFsp s.slave.arg1.toInt with
  | some _ => dummyCall s
  | none => .ok { s with slave := { s.slave with nextCall := none } }

def okfsOpOnFd (s : Tracee σ) : Except Ending (Tracee σ) :=
  match s.slave.tracked s.slave.arg1.toInt with
  | some _ => .ok s
  | none => .ok { s with slave := { s.slave with nextCall := none } }

def okfsOnlyOs (s : Tracee σ) : Except Ending (Tracee σ) :=
  match s.slave.trackedFsp s.slave.arg1.toInt with
  | some _ => forceCallReturn s (-Errno.EOPNOTSUPP.code)
  | none => .ok s

def MAP_ANONYMOUS : Word := 0x20

/-- There is no test that the descriptor has an entry. -/
def okfsBeforeMmap (s : Tracee σ) : Except Ending (Tracee σ) :=
  let fd := s.slave.arg5.toInt
  if s.slave.arg4 &&& MAP_ANONYMOUS ≠ 0 then .ok s
  else if fd < 0 ∨ fd ≥ OPEN_MAX then .ok s
  else do
    let filep ← s.slave.filep fd
    match filep.fsp with
    | none => return s
    | some _ => forceCallReturn s (-Errno.EOPNOTSUPP.code)

def FD_CLOEXEC : Word := BitVec.ofNat 32 Okfs.FD_CLOEXEC

def okfsBeforeFcntl (s : Tracee σ) : Except Ending (Tracee σ) :=
  let cmd := s.slave.arg2.toNat
  let followed : Tracee σ := { s with slave := { s.slave with nextCall := some .okfsAfterFcntl } }
  match s.slave.tracked s.slave.arg1.toInt with
  | none => .ok s
  | some filep =>
    match filep.fsp with
    | none => .ok followed
    | some _ =>
      if cmd ∈ [F_SETLK, F_SETLKW, F_GETLK] then forceCallReturn s (-Errno.ENOLCK.code)
      else if cmd ∈ [F_NOTIFY, F_GETLEASE, F_SETLEASE, F_GETOWN, F_SETOWN, F_GETSIG, F_SETSIG,
          F_GETFL, F_SETFL] then forceCallReturn s (-Errno.EOPNOTSUPP.code)
      else .ok followed

-- ---------------------------------------------------------------------------
-- Descriptors come and go
-- ---------------------------------------------------------------------------

/-- `okfs_close_fd`; the count of the file is part of the world. -/
def okfsCloseFd (slave : Slave) (fd : Nat) : Slave :=
  { slave with
    fdTab := Function.update slave.fdTab fd none
    closeOnExec := Function.update slave.closeOnExec fd false }

def okfsAfterClose (s : Tracee σ) : Except Ending (Tracee σ) := do
  let fd := s.slave.arg1.toInt
  let filep ← s.slave.filep fd
  let close := filep.fsp.bind fun fsp => h.entry fsp .close
  let world :=
    match close with
    | some close =>
      if h.nshared s.world fd = 1 then (close { nums := [s.slave.fsfd fd.toNat] } s.world).world
      else s.world
    | none => s.world
  return { s with world, slave := okfsCloseFd s.slave fd.toNat }

/-- `NULL` is followed to count the share, if the old descriptor has no entry. -/
def okfsDoDup (slave : Slave) (oldfd newfd : Int) : Except Ending Slave :=
  if newfd < 0 then .ok slave
  else do
    let filep ← slave.filep oldfd
    return { slave with
      fdTab := Function.update slave.fdTab newfd.toNat (some filep)
      closeOnExec := Function.update slave.closeOnExec newfd.toNat false
      fsfd := Function.update slave.fsfd newfd.toNat (slave.fsfd oldfd.toNat) }

def okfsDup (s : Tracee σ) : Except Ending (Tracee σ) :=
  let newfd := s.slave.returnValue
  if newfd ≥ OPEN_MAX then setSlaveReturn s (-Errno.EMFILE.code)
  else do
    let slave ← okfsDoDup s.slave s.slave.arg1.toInt newfd
    return { s with slave }

def okfsDup2 (s : Tracee σ) : Except Ending (Tracee σ) :=
  let oldfd := s.slave.arg1.toInt
  let newfd := s.slave.returnValue
  if newfd < 0 then .ok s
  else if newfd ≥ OPEN_MAX then setSlaveReturn s (-Errno.EMFILE.code)
  else do
    let slave := if (s.slave.fdTab newfd.toNat).isSome then okfsCloseFd s.slave newfd.toNat else s.slave
    match slave.tracked oldfd with
    | none => return { s with slave }
    | some _ =>
      let slave ← okfsDoDup slave oldfd newfd
      return { s with slave }

def okfsAfterFcntl (s : Tracee σ) : Except Ending (Tracee σ) :=
  let fd := s.slave.arg1.toInt
  let cmd := s.slave.arg2.toNat
  let ret := s.slave.returnValue
  if ret < 0 then .ok s
  else if cmd = F_DUPFD then
    if ret ≥ OPEN_MAX then setSlaveReturn s (-Errno.EINVAL.code)
    else do
      let slave ← okfsDoDup s.slave fd ret
      return { s with slave }
  else if cmd = F_SETFD then
    if 0 ≤ fd ∧ fd < OPEN_MAX then
      let set : Bool := s.slave.arg3 &&& FD_CLOEXEC ≠ 0
      let closeOnExec := Function.update s.slave.closeOnExec fd.toNat set
      .ok { s with slave := { s.slave with closeOnExec } }
    else .error .undefined
  else .ok s

-- ---------------------------------------------------------------------------
-- Files of OKFS
-- ---------------------------------------------------------------------------

def okfsRead (s : Tracee σ) : Except Ending (Tracee σ) := do
  let fd := s.slave.arg1.toInt
  let count := s.slave.arg3.toNat
  let (filep, fsp) ← s.slave.entryOf fd
  match h.entry fsp .read with
  | none => setSlaveReturn s (-Errno.EOPNOTSUPP.code)
  | some read =>
    if count > 0 ∧ h.fPos s.world fd < h.stSize s.world fd then
      malloc h s count
      let fPos := h.fPos s.world fd
      let a := read
        { paths := [filep.relPath.getD []], nums := [s.slave.fsfd fd.toNat, fPos, count] } s.world
      let s := { s with world := a.world }
      let s ← onlyIf (a.ret > 0) s do
        let s ← slaveMemset s s.slave.arg2 a.buf a.ret.toNat
        return { s with world := h.setFPos s.world fd (fPos + a.ret) }
      setSlaveReturn s a.ret
    else setSlaveReturn s 0

/-- Where nothing is to be written the result is not set. -/
def okfsWrite (s : Tracee σ) : Except Ending (Tracee σ) := do
  let fd := s.slave.arg1.toInt
  let count := s.slave.arg3.toNat
  let (filep, fsp) ← s.slave.entryOf fd
  match h.entry fsp .write with
  | none => setSlaveReturn s (-Errno.EOPNOTSUPP.code)
  | some write =>
    if count ≠ 0 then
      malloc h s count
      let buf ← slaveMemget s s.slave.arg2 s.slave.arg3.toInt
      let fPos := h.fPos s.world fd
      let a := write
        { paths := [filep.relPath.getD []], nums := [s.slave.fsfd fd.toNat, fPos, count], data := buf }
        s.world
      let world :=
        if a.ret > 0 then
          h.setStSize (h.setFPos a.world fd (fPos + a.ret)) fd (h.stSize a.world fd + a.ret)
        else a.world
      setSlaveReturn { s with world } a.ret
    else setSlaveReturn s (h.garbage s.world)

/-- A slot that gets the path that is on record for the descriptor. -/
def fdPerform (s : Tracee σ) (filep : OkfsFile) (fsp : OkfsSuperblock) (op : FsOp) (nums : List Int) :
    Answer σ :=
  match h.entry fsp op with
  | none => ⟨-Errno.EOPNOTSUPP.code, fun _ => 0, s.world⟩
  | some f => f { paths := [filep.relPath.getD []], nums } s.world

def okfsFtruncate (s : Tracee σ) : Except Ending (Tracee σ) := do
  let fd := s.slave.arg1.toInt
  let (filep, fsp) ← s.slave.entryOf fd
  let a := fdPerform h s filep fsp .truncate [s.slave.arg2.toInt]
  -- the size on record becomes the result
  let world := if a.ret = 0 then h.setStSize a.world fd a.ret else a.world
  setSlaveReturn { s with world } a.ret

def okfsFchmod (s : Tracee σ) : Except Ending (Tracee σ) := do
  let (filep, fsp) ← s.slave.entryOf s.slave.arg1.toInt
  let a := fdPerform h s filep fsp .chmod [modeT s.slave.arg2]
  setSlaveReturn { s with world := a.world } a.ret

def okfsFchown (s : Tracee σ) : Except Ending (Tracee σ) := do
  let (filep, fsp) ← s.slave.entryOf s.slave.arg1.toInt
  let a := fdPerform h s filep fsp .lchown [s.slave.arg2.toNat, s.slave.arg3.toNat]
  setSlaveReturn { s with world := a.world } a.ret

/-- `okfs_fstatfs`, `okfs_fstat` and `okfs_fstat64`; the latter two ask `okfs_dolstat`. -/
def fdStruct (op : FsOp) (size : Nat) (s : Tracee σ) : Except Ending (Tracee σ) := do
  let (filep, fsp) ← s.slave.entryOf s.slave.arg1.toInt
  let a := fdPerform h s filep fsp op []
  let s := { s with world := a.world }
  let s ← onlyIf (a.ret = 0) s (slaveMemset s s.slave.arg2 a.buf size)
  setSlaveReturn s a.ret

def okfsFstatfs := fdStruct h .statfs sizeofStatfs

def okfsFstat := fdStruct h .lstat sizeofStat

/-- The structure is read again after it has been written. -/
def okfsFstat64 (s : Tracee σ) : Except Ending (Tracee σ) := do
  let (filep, fsp) ← s.slave.entryOf s.slave.arg1.toInt
  let a := fdPerform h s filep fsp .lstat []
  let s := { s with world := a.world }
  let s ← onlyIf (a.ret = 0) s do
    let s ← slaveMemset s s.slave.arg2 a.buf sizeofStat64
    let _ ← slaveMemget s s.slave.arg2 sizeofStat64
    return s
  setSlaveReturn s a.ret

/-- `off_t` has 32 bits. -/
def offT (n : Int) : Int := (BitVec.ofInt 32 n).toInt

/-- The slot for `lseek`; a filesystem need not have one. -/
def lseekSlot (s : Tracee σ) (fsp : OkfsSuperblock) (nums : List Int) : Answer σ :=
  match h.entry fsp .lseek with
  | none => ⟨-Errno.EINVAL.code, fun _ => 0, s.world⟩
  | some lseek => lseek { nums } s.world

def okfsLseek (s : Tracee σ) : Except Ending (Tracee σ) := do
  let fd := s.slave.arg1.toInt
  let offset := s.slave.arg2.toInt
  let origin := s.slave.arg3.toInt
  let (_, fsp) ← s.slave.entryOf fd
  let a := lseekSlot h s fsp [s.slave.fsfd fd.toNat, offset, origin]
  let s := { s with world := a.world }
  if (h.entry fsp .lseek).isSome ∧ a.ret < 0 then setSlaveReturn s a.ret
  else if origin ≤ 2 then
    -- the size is read again by `okfs_arglstat`
    let fPos :=
      if origin = SEEK_SET then offset
      else if origin = SEEK_CUR then h.fPos s.world fd + offset
      else if origin = SEEK_END then h.stSize s.world fd + offset
      else h.fPos s.world fd
    let retval := if offT fPos ≠ fPos then -Errno.EOVERFLOW.code else offT fPos
    setSlaveReturn { s with world := h.setFPos s.world fd fPos } retval
  else setSlaveReturn s a.ret

/-- `okfs_getdents64` and `okfs_getdents`: the bytes of the records are those of the answer. -/
def getdents (creat : List OkfsDirent → Int → Nat → Option (Int × List UserDirent))
    (bytes : List UserDirent → Nat → ByteMemory.Byte) (s : Tracee σ) : Except Ending (Tracee σ) := do
  let fd := s.slave.arg1.toInt
  let count := s.slave.arg3.toNat
  let _ ← s.slave.entryOf fd
  if count = 0 then setSlaveReturn s (-Errno.EINVAL.code)
  else
    match h.readdir s.world fd with
    | .error e => setSlaveReturn s (-e.code)
    | .ok dp =>
      malloc h s count
      match creat dp (h.fPos s.world fd) count with
      | none => .error .undefined
      | some (ret, recs) =>
        let s ← onlyIf (ret > 0) s do
          let s ← slaveMemset s s.slave.arg2 (bytes recs) ret.toNat
          return { s with world := h.setFPos s.world fd (h.fPos s.world fd + ret) }
        setSlaveReturn s ret

def okfsGetdents64 := getdents h creatDirent64 h.direntBytes

def okfsGetdents := getdents h creatDirent h.direntBytes

/-- `path` is set by an assertion, which is not compiled in. -/
def okfsFchdir (s : Tracee σ) : Except Ending (Tracee σ) :=
  match s.slave.tracked s.slave.arg1.toInt with
  | none => setSlaveReturn s (-Errno.EBADF.code)
  | some _ =>
    match h.garbageString s.world with
    | none => .error .segv
    | some path =>
      match (h.namei s.world).arglstat path with
      | .error e => setSlaveReturn s (-e.code)
      | .ok stMode =>
        if stMode ≠ .dir then setSlaveReturn s (-Errno.ENOTDIR.code)
        else setSlaveReturn { s with slave := { s.slave with cwd := path } } 0

-- ---------------------------------------------------------------------------
-- wait
-- ---------------------------------------------------------------------------

def PAUSE_NR : Word := 29

/-- `pause` is executed instead of the call, which is restarted then. -/
def suspend (s : Tracee σ) : Tracee σ :=
  let restartCall := s.slave.regs.origEax.toInt
  { s with
    slave := { s.slave with restartCall, regs := { s.slave.regs with origEax := PAUSE_NR } } }.setregs

/-- What the loop of `before_wait` finds. -/
inductive Found
  | stopped | zombie
  | unready (flag : Bool)
  deriving DecidableEq

/-- The filter of `before_wait`. -/
def WaitChild.accepted (p : WaitChild) (pid gid : Int) : Bool :=
  if pid > 0 then p.pid == pid
  else if pid = 0 then p.gid == gid
  else if pid ≠ -1 then p.gid == -pid
  else true

def waitLoop (pid gid : Int) (options : Word) : List WaitChild → Bool → Found
  | [], flag => .unready flag
  | p :: cps, flag =>
    if p.accepted pid gid = false then waitLoop pid gid options cps flag
    else if p.state = .stopped ∧ options &&& Wait.WUNTRACED ≠ 0 then .stopped
    else if p.state = .zombie then .zombie
    else waitLoop pid gid options cps true

/-- What is read of a record. -/
def WaitChild.ofTask (child : Wait.Task) : WaitChild where
  pid := child.pid
  gid := child.gid
  state := child.state
  exitCode := child.exitCode

def Found.ofTree : Wait.Found → Found
  | .stopped _ => .stopped
  | .zombie => .zombie
  | .unready flag => .unready flag

/-- On the records of a tree the loop finds what it does there. -/
theorem waitLoop_tree {tree : Wait.Tree} (pid gid : Int) (options : Word)
    {cps : List Wait.TaskRef} {children : List Wait.Task} (flag : Bool)
    (h : List.Forall₂ (fun cp child => tree.tasks cp = some child) cps children) :
    (Wait.waitLoop tree pid gid options cps flag).map Found.ofTree =
      some (waitLoop pid gid options (children.map WaitChild.ofTask) flag) := by
  induction h generalizing flag with
  | nil => rfl
  | @cons cp child cps children hchild _ ih =>
    have haccepted : (WaitChild.ofTask child).accepted pid gid = Wait.accepts pid gid child := rfl
    have hstate : (WaitChild.ofTask child).state = child.state := rfl
    rw [Wait.waitLoop, hchild, List.map_cons, waitLoop, haccepted, hstate]
    simp only [Option.bind_eq_bind, Option.bind_some]
    split
    · exact ih flag
    · split
      · rfl
      · split
        · rfl
        · exact ih true

def beforeWait (s : Tracee σ) : Except Ending (Tracee σ) :=
  let options := s.slave.arg3
  let next (s : Tracee σ) (after : After) : Tracee σ :=
    { s with slave := { s.slave with nextCall := some after } }
  if options &&& ~~~(Wait.WNOHANG ||| Wait.WUNTRACED ||| Wait.WNOTHREAD ||| Wait.WCLONE ||| Wait.WALL)
      ≠ 0 then .ok s
  else
    match waitLoop s.slave.arg1.toInt s.slave.gid options (h.children s.world) false with
    | .stopped =>
      let arg := { s.slave.arg with arg3 := options ||| Wait.WNOHANG }
      setSlaveArgs (next { s with slave := { s.slave with arg } } .afterWaitIsstopped)
    | .zombie => .ok (next s .afterWaitIszombie)
    | .unready false => .ok s
    | .unready true =>
      if options &&& Wait.WNOHANG ≠ 0 then .ok (next s .afterWaitWnohang) else .ok (suspend s)

/-- `remove_child`: the search goes past the end of the list if the pid is not in it. -/
def removeChild (s : Tracee σ) (pid : Int) : Except Ending Unit :=
  if pid ∈ (h.children s.world).map WaitChild.pid then .ok () else .error .segv

def afterWaitWnohang (s : Tracee σ) : Except Ending (Tracee σ) :=
  let ret := s.slave.returnValue
  if ret = -Wait.ECHILD then setSlaveReturn s 0
  else if ret > 0 then do
    removeChild h s ret
    return s
  else .ok s

/-- The assertion on the result is not compiled in. -/
def afterWaitIszombie (s : Tracee σ) : Except Ending (Tracee σ) := do
  removeChild h s s.slave.returnValue
  return s

def afterWaitIsstopped (s : Tracee σ) : Except Ending (Tracee σ) := do
  let ret := s.slave.returnValue
  if ret ≠ 0 ∧ ret ≠ -Wait.ECHILD then
    let status ← slaveMemget s s.slave.arg2 4
    let status := (ofBytes fun k => status.getD k 0).toInt
    if ret > 0 ∧ Wait.wifstopped status = false then afterWaitIszombie h s else return s
  else
    let child := h.stoppedChild s.world
    let s ← slaveMemset s s.slave.arg2 (byte (BitVec.ofInt 32 child.exitCode)) 4
    setSlaveReturn s child.pid

-- ---------------------------------------------------------------------------
-- fork, execve and sigaction
-- ---------------------------------------------------------------------------

def beforeFork (s : Tracee σ) : Except Ending (Tracee σ) :=
  slaveRplMem h s s.slave.regs.eip (codeBytes forkCode) (forkCode.length * WORDNBYTES)

/-- `add_slave`, for a child. -/
def addSlave (pid : Int) (parent : Slave) : Slave :=
  { parent with
    pid
    callfs := {}
    hasStackArgs := false
    retvalSaved := 0
    restartCall := 0
    nextCall := none
    duringCall := 0 }

/-- The assertion in `add_slave`. -/
def scratchEmpty (resp : FsResolve) : Bool :=
  resp.arg1Fsp.isNone && resp.arg2Fsp.isNone && resp.path1.isNone && resp.path2.isNone &&
    resp.canonPath1.isNone && resp.canonPath2.isNone && resp.relPath1.isNone && resp.relPath2.isNone

/-- The child has the memory of the parent, with the code that `before_fork` has put there. -/
def afterFork (s : Tracee σ) : Except Ending (Tracee σ × Option (Tracee σ)) :=
  let cpid := s.slave.returnValue
  if cpid < 0 then .ok (s, none)
  else do
    let leaked := s.leaked || !scratchEmpty s.slave.callfs
    let child := { s with slave := addSlave cpid s.slave, leaked }
    let s ← slaveRestoreMem { s with leaked }
    if h.attaches s.world = false then .error .ptrace
    else
      let child ← setSlaveReturn child 0
      let child ← slaveRestoreMem child
      return (s, some child)

def beforeClone (s : Tracee σ) : Except Ending (Tracee σ) :=
  if cloneRefused s.slave.arg1.toNat s.slave.arg2.toNat then notSupported s
  else do
    let s ← beforeFork h s
    return { s with slave := { s.slave with nextCall := some .afterFork } }

/-- After a successful call the task stops once more, by `SIGTRAP`. -/
def afterExecve (s : Tracee σ) : Except Ending (Tracee σ) :=
  if s.slave.returnValue < 0 then .ok s
  else
    let closed fd := decide (fd < OPEN_MAX) && (s.slave.fdTab fd).isSome && s.slave.closeOnExec fd
    let slave :=
      { s.slave with
        fdTab := fun fd => if closed fd then none else s.slave.fdTab fd
        closeOnExec := fun fd => if closed fd then false else s.slave.closeOnExec fd }
    if h.attaches s.world then .ok { s with slave } else .error .ptrace

/-- `struct sigaction` and `struct old_sigaction` of the kernel: their sizes, and where the
flags are. -/
structure SigactionFormat where
  size : Nat
  flags : Nat
  deriving DecidableEq

def sigactionFormat : SigactionFormat := ⟨20, 4⟩

def oldSigactionFormat : SigactionFormat := ⟨16, 8⟩

/-- `after_rt_sigaction` and `after_sigaction`; only the latter ends OKFS for `SIGSTOP`. -/
def afterSigactionAs (fmt : SigactionFormat) (stopEnds : Bool) (s : Tracee σ) :
    Except Ending (Tracee σ) :=
  let signum := s.slave.arg1.toInt
  if s.slave.returnValue < 0 ∨ s.slave.arg2 = 0 then .ok s
  else if Signal.stoppingSig signum then do
    let act ← slaveMemget s s.slave.arg2 fmt.size
    let saHandler := ofBytes fun k => act.getD k 0
    let new := if saHandler = Signal.SIG_DFL then Signal.SIG_DFL else Signal.NOT_SIG_DFL
    if stopEnds ∧ signum = Signal.SIGSTOP then .error .quit
    else
      let sighandler := Function.update s.slave.sighandler signum new
      return { s with slave := { s.slave with sighandler } }
  else if signum = Signal.SIGCHLD then do
    let act ← slaveMemget s s.slave.arg2 fmt.size
    let saFlags := ofBytes fun k => act.getD (fmt.flags + k) 0
    return { s with slave := { s.slave with nocldstop := saFlags &&& SA_NOCLDSTOP = SA_NOCLDSTOP } }
  else .ok s

def afterRtSigaction (s : Tracee σ) : Except Ending (Tracee σ) := afterSigactionAs sigactionFormat false s

def afterSigaction (s : Tracee σ) : Except Ending (Tracee σ) := afterSigactionAs oldSigactionFormat true s

def rootid (s : Tracee σ) : Except Ending (Tracee σ) := setSlaveReturn s 0

end Syscall

end Okfs
