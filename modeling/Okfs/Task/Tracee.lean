import Okfs.Linux
import Okfs.Task.Memacc
import Okfs.Task.Signals
import Okfs.Vfs.Dispatch
import Okfs.Vfs.Namei
import Okfs.Vfs.Readdir

/-!
# OKFS — a tracee and its record

The modules on system calls share this state: the registers and the memory that the
tracee really has, and the record that OKFS has of it, with a copy of the registers that
is read when the tracee stops and written back when OKFS changes them.

`ptrace` cannot access all of a memory. `Ptrace` and `Malloc` end OKFS where they fail, and
so does a `NULL` that is followed; a run of a handler ends with an `Ending` then.

What the handlers call outside of these modules is a `Host`: the filesystems, Linux, the
allocator. Its state is a type of its own, so what is proved holds for whatever they answer.
-/

namespace Okfs

namespace Syscall

open ByteMemory Memacc

-- ---------------------------------------------------------------------------
-- The tracee
-- ---------------------------------------------------------------------------

/-- `struct user_regs_struct`, as far as OKFS reads or writes it. -/
structure UserRegs where
  ebx : Word
  ecx : Word
  edx : Word
  esi : Word
  edi : Word
  eax : Word
  origEax : Word
  eip : Word
  esp : Word
  deriving DecidableEq, Repr

/-- The bytes of a memory, and the addresses at which `ptrace` can read or write a word. -/
structure Memory where
  bytes : Mem
  readable : Nat → Bool
  writable : Nat → Bool

/-- How OKFS ends: an error of `Ptrace`, of `Malloc`, a call of `err_quit` or `err_sys`, a
`NULL` that is followed. The last one is what C leaves undefined. -/
inductive Ending
  | ptrace | malloc | quit | segv | undefined
  deriving DecidableEq, Repr

/-- The size of the address space. -/
def TASK_SIZE : Nat := 2 ^ 32

/-- `PTRACE_PEEKDATA`. -/
def Memory.peek (m : Memory) (a : Nat) : Except Ending Word :=
  if m.readable a then .ok (ByteMemory.peek m.bytes a) else .error .ptrace

/-- `PTRACE_POKEDATA`. -/
def Memory.poke (m : Memory) (a : Nat) (w : Word) : Except Ending Memory :=
  if m.writable a then .ok { m with bytes := ByteMemory.poke m.bytes a w } else .error .ptrace

-- ---------------------------------------------------------------------------
-- The record
-- ---------------------------------------------------------------------------

/-- `struct okfs_file`, without the fields that other descriptors can change. -/
structure OkfsFile where
  fsp : Option OkfsSuperblock
  path : CStr
  relPath : Option CStr
  deriving DecidableEq

/-- What `next_call` points to. -/
inductive After
  | okfsRead | okfsWrite | okfsAfterClose | okfsLink | okfsUnlink | afterExecve | okfsChdir
  | okfsMknod | okfsChmod | okfsLchown | okfsLseek | okfsUtime | okfsAccess | okfsRename | okfsMkdir
  | okfsRmdir | okfsDup | okfsAcct | okfsDup2 | afterSigaction | okfsSymlink | okfsReadlink
  | okfsTruncate | okfsFtruncate | okfsFchmod | okfsFchown | okfsStatfs | okfsFstatfs | okfsStat
  | okfsLstat | okfsFstat | okfsFchdir | okfsGetdents | afterRtSigaction | okfsChown | okfsGetcwd
  | okfsStat64 | okfsLstat64 | okfsFstat64 | okfsGetdents64 | afterFork | rootid
  -- these are set by a `call_before`
  | returnSaved | okfsAfterOkfsOpen | okfsAfterLinuxOpen | okfsAfterFcntl | afterWaitWnohang
  | afterWaitIszombie | afterWaitIsstopped
  deriving DecidableEq, Repr

/-- The arguments of a system call. -/
structure Args where
  arg1 : Word
  arg2 : Word
  arg3 : Word
  arg4 : Word
  arg5 : Word
  arg6 : Word
  deriving DecidableEq, Repr

/-- `struct task`, as far as the handlers of system calls use it. -/
structure Slave where
  pid : Int
  gid : Int
  regs : UserRegs
  saveRegs : UserRegs
  arg : Args
  hasStackArgs : Bool
  nextCall : Option After
  duringCall : Int
  restartCall : Int
  retvalSaved : Int
  cwd : CStr
  callfs : FsResolve
  fdTab : Nat → Option OkfsFile
  closeOnExec : Nat → Bool
  fsfd : Nat → Int
  sighandler : Int → Word
  nocldstop : Bool
  rplCode : Option (List ByteMemory.Byte)
  rplDest : Nat

-- ---------------------------------------------------------------------------
-- What the handlers call
-- ---------------------------------------------------------------------------

/-- The slots of `struct fs_entry_point`, and the calls of Linux that OKFS makes itself. -/
inductive FsOp
  | lstat | readlink | «open» | close | lseek | read | write | link | unlink | access | rename
  | rmdir | mkdir | symlink | utime | chmod | truncate | statfs | lchown
  | stat | stat64 | lstat64 | mknod | acct
  deriving DecidableEq, Repr

/-- The arguments: paths, numbers, and the contents of a buffer. -/
structure Request where
  paths : List CStr := []
  nums : List Int := []
  data : List ByteMemory.Byte := []

/-- A result, negative for an error, what is in the buffer that the caller has given, and
what has become of the rest of the world. -/
structure Answer (σ : Type) where
  ret : Int
  buf : Nat → ByteMemory.Byte
  world : σ

/-- A child, as `before_wait` looks at it. -/
structure WaitChild where
  pid : Int
  gid : Int
  state : Signal.SlaveState
  exitCode : Int
  deriving DecidableEq, Repr

structure Host (σ : Type) where
  mounted : List OkfsSuperblock
  /-- `okfs_arglstat` and `okfs_argreadlink`. -/
  namei : σ → NameiFs
  /-- A slot of the filesystem, unless it is `NULL`. -/
  entry : OkfsSuperblock → FsOp → Option (Request → σ → Answer σ)
  linux : FsOp → Request → σ → Answer σ
  /-- Is there an inode record for the canonical path? -/
  cached : σ → OkfsSuperblock → CStr → Bool
  /-- What `okfs_do_readdir` lists for a descriptor, or its error. -/
  readdir : σ → Int → Except Errno (List OkfsDirent)
  /-- The records of a directory as bytes. -/
  direntBytes : List UserDirent → Nat → ByteMemory.Byte
  /-- `f_pos`, `ino->statbuf.st_size` and `nshared` of the file of a descriptor. -/
  fPos : σ → Int → Int
  setFPos : σ → Int → Int → σ
  stSize : σ → Int → Int
  setStSize : σ → Int → Int → σ
  nshared : σ → Int → Int
  /-- `malloc` of so many bytes succeeds. -/
  malloc : σ → Nat → Bool
  /-- The children of the task that stops, and the one in `stopped_child`. -/
  children : σ → List WaitChild
  stoppedChild : σ → WaitChild
  /-- The new process can be attached, and so can a task after `execve`. -/
  attaches : σ → Bool
  /-- What is in a variable that has not been set, an `int` or a pointer to a string. -/
  garbage : σ → Int
  garbageString : σ → Option CStr
  /-- The file to which opens of the files of OKFS are redirected. -/
  tmpf : CStr

/-- The tracee at a stop, its record, and the rest of the world. `leaked` is not in the code
that is compiled: an assertion of `proc_path1`, `proc_path2` or `add_slave` has failed. -/
structure Tracee (σ : Type) where
  slave : Slave
  regs : UserRegs
  mem : Memory
  world : σ
  leaked : Bool

variable {σ : Type}

-- ---------------------------------------------------------------------------
-- wrap.c
-- ---------------------------------------------------------------------------

/-- `Malloc`, `Calloc` and `Realloc`. -/
def malloc (h : Host σ) (s : Tracee σ) (size : Nat) : Except Ending Unit :=
  if h.malloc s.world size then .ok () else .error .malloc

-- ---------------------------------------------------------------------------
-- memacc.c
-- ---------------------------------------------------------------------------

/-- Write `n` bytes to the memory of the tracee. -/
def Memory.set (m : Memory) (d : Nat) (s : Nat → ByteMemory.Byte) : Nat → Except Ending Memory
  | n + 4 => do
    let m ← m.poke d (ofBytes s)
    m.set (d + WORDNBYTES) (fun i => s (WORDNBYTES + i)) n
  | 0 => .ok m
  | n => do
    let word ← m.peek d
    let mask : Word := BitVec.allOnes 32 <<< (8 * n)
    m.poke d ((word &&& mask) ||| (ofBytes s &&& ~~~mask))

/-- Read `n` bytes from the memory of the tracee. -/
def Memory.get (m : Memory) (s : Nat) : Nat → Except Ending (List ByteMemory.Byte)
  | n + 4 => do
    let word ← m.peek s
    let rest ← m.get (s + WORDNBYTES) n
    return (List.range WORDNBYTES).map (byte word) ++ rest
  | 0 => .ok []
  | n => do
    let word ← m.peek s
    return (List.range n).map (byte word)

/-- A step that is taken under a condition. -/
def onlyIf (c : Prop) [Decidable c] (s : Tracee σ) (m : Except Ending (Tracee σ)) :
    Except Ending (Tracee σ) :=
  if c then m else .ok s

def slaveMemset (s : Tracee σ) (d : Word) (src : Nat → ByteMemory.Byte) (n : Nat) :
    Except Ending (Tracee σ) := do
  let mem ← s.mem.set d.toNat src n
  return { s with mem }

/-- A negative `n` is the rest that a loop over words would leave: a word is read for it. -/
def slaveMemget (s : Tracee σ) (src : Word) (n : Int) : Except Ending (List ByteMemory.Byte) :=
  if n < 0 then do
    let _ ← s.mem.peek src.toNat
    return []
  else s.mem.get src.toNat n.toNat

def STRING_START_SIZE : Nat := WORDNBYTES * 8

/-- The size of the buffer, when it is full. -/
def growString (h : Host σ) (s : Tracee σ) (n nreaded : Nat) : Except Ending Nat :=
  if nreaded = n then do
    malloc h s (n * 2)
    return n * 2
  else .ok n

/-- The loop of `slave_getstr`: `n` bytes are allocated, and `nreaded` of them are read. -/
def getstrLoop (h : Host σ) (s : Tracee σ) :
    Nat → Nat → Nat → Nat → Except Ending (List ByteMemory.Byte)
  | 0, _, _, _ => .error .ptrace
  | words + 1, src, n, nreaded => do
    let word ← s.mem.peek src
    let bytes := (List.range WORDNBYTES).map (byte word)
    if 0 ∈ bytes then return bytes.takeWhile (· ≠ 0)
    else
      let n ← growString h s n (nreaded + WORDNBYTES)
      let rest ← getstrLoop h s words (src + WORDNBYTES) n (nreaded + WORDNBYTES)
      return bytes ++ rest

/-- `slave_getstr`: it ends at a zero or where the memory does. -/
def slaveGetstr (h : Host σ) (s : Tracee σ) (src : Word) : Except Ending CStr := do
  malloc h s STRING_START_SIZE
  let bytes ← getstrLoop h s (TASK_SIZE / WORDNBYTES) src.toNat STRING_START_SIZE 0
  return bytes.map UInt8.ofBitVec

/-- The bytes of a C string, with its end. -/
def stringBytes (str : CStr) (i : Nat) : ByteMemory.Byte := (str.getD i 0).toBitVec

/-- What is remembered of `len` bytes at `dest`, of which the string is known. -/
def savedString (s : Tracee σ) (dest : Word) (origString : CStr) (len : Nat) :
    Except Ending (List ByteMemory.Byte) :=
  let code := strncpy (origString.map UInt8.toBitVec) len
  if len > origString.length + 1 then do
    let rest ← s.mem.get (dest.toNat + origString.length + 1) (len - origString.length - 1)
    return code.take (origString.length + 1) ++ rest
  else .ok code

def slaveRplKnownStr (h : Host σ) (s : Tracee σ) (dest : Word) (newstring origString : CStr) :
    Except Ending (Tracee σ) :=
  if s.slave.rplCode.isSome then .error .quit
  else do
    let len := newstring.length + 1
    malloc h s len
    let code ← savedString s dest origString len
    let s ← slaveMemset s dest (stringBytes newstring) len
    return { s with slave := { s.slave with rplCode := some code, rplDest := dest.toNat } }

def slaveRplMem (h : Host σ) (s : Tracee σ) (dest : Word) (src : Nat → ByteMemory.Byte) (n : Nat) :
    Except Ending (Tracee σ) :=
  if s.slave.rplCode.isSome then .error .quit
  else do
    malloc h s n
    let code ← slaveMemget s dest n
    let s ← slaveMemset s dest src n
    return { s with slave := { s.slave with rplCode := some code, rplDest := dest.toNat } }

def slaveRestoreMem (s : Tracee σ) : Except Ending (Tracee σ) :=
  match s.slave.rplCode with
  | none => .error .quit
  | some code => do
    let mem ← s.mem.set s.slave.rplDest (fun i => code.getD i 0) code.length
    return { s with mem, slave := { s.slave with rplCode := none } }

-- ---------------------------------------------------------------------------
-- task.c
-- ---------------------------------------------------------------------------

/-- `PTRACE_SETREGS` with the registers of the record. -/
def Tracee.setregs (s : Tracee σ) : Tracee σ := { s with regs := s.slave.regs }

/-- Six words behind the top of the stack, or five registers; the sixth argument is left. -/
def getSlaveArgs (s : Tracee σ) (stackArgs : Bool) : Except Ending (Tracee σ) :=
  if stackArgs = false then
    let r := s.slave.regs
    let arg := ⟨r.ebx, r.ecx, r.edx, r.esi, r.edi, s.slave.arg.arg6⟩
    return { s with slave := { s.slave with arg, hasStackArgs := false } }
  else do
    let code ← s.mem.get (s.slave.regs.esp.toNat + WORDNBYTES) (6 * WORDNBYTES)
    let word i := ofBytes fun k => code.getD (WORDNBYTES * i + k) 0
    let arg := ⟨word 0, word 1, word 2, word 3, word 4, word 5⟩
    return { s with slave := { s.slave with arg, hasStackArgs := true } }

/-- The arguments as they stand in memory. -/
def Args.bytes (arg : Args) (i : Nat) : ByteMemory.Byte :=
  byte ([arg.arg1, arg.arg2, arg.arg3, arg.arg4, arg.arg5, arg.arg6].getD (i / WORDNBYTES) 0)
    (i % WORDNBYTES)

def UserRegs.withArgs (r : UserRegs) (arg : Args) : UserRegs :=
  { r with ebx := arg.arg1, ecx := arg.arg2, edx := arg.arg3, esi := arg.arg4, edi := arg.arg5 }

def setSlaveArgs (s : Tracee σ) : Except Ending (Tracee σ) :=
  if s.slave.hasStackArgs then do
    let mem ← s.mem.set (s.slave.regs.esp.toNat + WORDNBYTES) s.slave.arg.bytes (6 * WORDNBYTES)
    return { s with mem }.setregs
  else
    let s := { s with slave := { s.slave with regs := s.slave.regs.withArgs s.slave.arg } }
    return s.setregs

/-- A result, or a negative error number. -/
def setSlaveReturn (s : Tracee σ) (value : Int) : Except Ending (Tracee σ) :=
  setSlaveArgs
    { s with slave := { s.slave with regs := { s.slave.regs with eax := BitVec.ofInt 32 value } } }

def DUMMY_CALL_NR : Word := 20

/-- Execute some neutral call instead of the current one. -/
def dummyCall (s : Tracee σ) : Except Ending (Tracee σ) :=
  setSlaveArgs
    { s with slave := { s.slave with regs := { s.slave.regs with origEax := DUMMY_CALL_NR } } }

def forceCallReturn (s : Tracee σ) (retval : Int) : Except Ending (Tracee σ) :=
  dummyCall { s with slave := { s.slave with retvalSaved := retval, nextCall := some .returnSaved } }

def unimplementedCall (s : Tracee σ) : Except Ending (Tracee σ) :=
  forceCallReturn s (-Errno.ENOSYS.code)

def notSupported (s : Tracee σ) : Except Ending (Tracee σ) :=
  forceCallReturn s (-Errno.EOPNOTSUPP.code)

def returnSaved (s : Tracee σ) : Except Ending (Tracee σ) := setSlaveReturn s s.slave.retvalSaved

abbrev Slave.arg1 (slave : Slave) : Word := slave.arg.arg1
abbrev Slave.arg2 (slave : Slave) : Word := slave.arg.arg2
abbrev Slave.arg3 (slave : Slave) : Word := slave.arg.arg3
abbrev Slave.arg4 (slave : Slave) : Word := slave.arg.arg4
abbrev Slave.arg5 (slave : Slave) : Word := slave.arg.arg5

/-- `RETURN_VALUE`. -/
abbrev Slave.returnValue (slave : Slave) : Int := slave.regs.eax.toInt

end Syscall

end Okfs
