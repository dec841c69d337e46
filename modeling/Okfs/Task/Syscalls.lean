import Okfs.Task.FdCalls

/-!
# OKFS — the system call table

A traced task stops when it enters a system call and when it leaves it. `handle_syscall` reads
its registers and calls the handler that the table has for the number, or the one that is left
in `next_call`; in between the kernel executes the call that `orig_eax` has then.

The numbers are those of i386 in the kernel sources that OKFS is built with. A row that is not
listed has no handlers.
-/

namespace Okfs

namespace Syscall

open ByteMemory Memacc

-- ---------------------------------------------------------------------------
-- entry.c
-- ---------------------------------------------------------------------------

inductive Before
  | beforeFork | okfsFdCall | okfsBeforeOpen | okfsOpOnFd | beforeWait | okfsBeforeCreat
  | okfsBeforeLnkRnm | dummyCall | beforeExecve | unimplementedCall | okfsOnlyOs | okfsBeforeFcntl
  | okfsBeforeMmap | beforeClone | notSupported
  deriving DecidableEq, Repr

/-- `struct call_entry`; the names are for messages. -/
structure CallEntry where
  callBefore : Option Before := none
  callAfter : Option After := none
  hasStackArgs : Bool := false
  deriving DecidableEq, Repr

def NR_syscalls : Nat := 289

/-- A call that the kernel does not execute. -/
def CallEntry.dummy (after : After) : CallEntry := ⟨some .dummyCall, some after, false⟩

/-- A call that the kernel does not execute for a file of OKFS. -/
def CallEntry.fd (after : After) : CallEntry := ⟨some .okfsFdCall, some after, false⟩

def CallEntry.before (before : Before) : CallEntry := ⟨some before, none, false⟩

def CallEntry.after (after : After) : CallEntry := ⟨none, some after, false⟩

/-- `init_call_table`, and `fake_root_init` where it is called. -/
def callTable (fakeroot : Bool) : Nat → CallEntry
  | 2 => ⟨some .beforeFork, some .afterFork, false⟩
  | 3 => .fd .okfsRead
  | 4 => .fd .okfsWrite
  | 5 => .before .okfsBeforeOpen
  | 6 => ⟨some .okfsOpOnFd, some .okfsAfterClose, false⟩
  | 7 => .before .beforeWait -- waitpid
  | 8 => .before .okfsBeforeCreat
  | 9 => ⟨some .okfsBeforeLnkRnm, some .okfsLink, false⟩
  | 10 => .dummy .okfsUnlink
  | 11 => ⟨some .beforeExecve, some .afterExecve, false⟩
  | 12 => .dummy .okfsChdir
  | 14 => .dummy .okfsMknod
  | 15 => .dummy .okfsChmod
  | 16 => .dummy .okfsLchown
  | 17 => .before .unimplementedCall -- break
  | 18 => .before .unimplementedCall -- oldstat
  | 19 => .fd .okfsLseek
  | 24 => if fakeroot then .after .rootid else {} -- getuid
  | 26 => .before .unimplementedCall -- ptrace
  | 28 => .before .unimplementedCall -- oldfstat
  | 30 => .dummy .okfsUtime
  | 33 => .dummy .okfsAccess
  | 35 => .before .unimplementedCall -- ftime
  | 38 => ⟨some .okfsBeforeLnkRnm, some .okfsRename, false⟩
  | 39 => .dummy .okfsMkdir
  | 40 => .dummy .okfsRmdir
  | 41 => ⟨some .okfsOpOnFd, some .okfsDup, false⟩
  | 47 => if fakeroot then .after .rootid else {} -- getgid
  | 49 => if fakeroot then .after .rootid else {} -- geteuid
  | 50 => if fakeroot then .after .rootid else {} -- getegid
  | 51 => .dummy .okfsAcct
  | 54 => .before .okfsOnlyOs -- ioctl
  | 55 => .before .okfsBeforeFcntl
  | 63 => .after .okfsDup2
  | 67 => .after .afterSigaction
  | 83 => .dummy .okfsSymlink
  | 84 => .before .unimplementedCall -- oldlstat
  | 85 => .dummy .okfsReadlink
  | 89 => .before .okfsOnlyOs -- readdir
  | 90 => ⟨some .okfsBeforeMmap, none, true⟩
  | 92 => .dummy .okfsTruncate
  | 93 => .fd .okfsFtruncate
  | 94 => .fd .okfsFchmod
  | 95 => .fd .okfsFchown
  | 99 => .dummy .okfsStatfs
  | 100 => .fd .okfsFstatfs
  | 106 => .dummy .okfsStat
  | 107 => .dummy .okfsLstat
  | 108 => .fd .okfsFstat
  | 114 => .before .beforeWait -- wait4
  | 118 => .before .okfsOnlyOs -- fsync
  | 120 => .before .beforeClone
  | 133 => .dummy .okfsFchdir
  | 140 => .before .okfsOnlyOs -- _llseek
  | 141 => .fd .okfsGetdents
  | 143 => .before .okfsOnlyOs -- flock
  | 145 => .before .okfsOnlyOs -- readv
  | 146 => .before .okfsOnlyOs -- writev
  | 148 => .before .okfsOnlyOs -- fdatasync
  | 174 => .after .afterRtSigaction
  | 182 => .dummy .okfsChown
  | 183 => .after .okfsGetcwd
  | 187 => .before .unimplementedCall -- sendfile
  | 190 => .before .notSupported -- vfork
  | 192 => .before .okfsBeforeMmap -- mmap2
  | 193 => .dummy .okfsTruncate -- truncate64
  | 194 => .fd .okfsFtruncate -- ftruncate64
  | 195 => .dummy .okfsStat64
  | 196 => .dummy .okfsLstat64
  | 197 => .fd .okfsFstat64
  | 198 => .dummy .okfsLchown -- lchown32
  | 199 => if fakeroot then .after .rootid else {} -- getuid32
  | 200 => if fakeroot then .after .rootid else {} -- getgid32
  | 201 => if fakeroot then .after .rootid else {} -- geteuid32
  | 202 => if fakeroot then .after .rootid else {} -- getegid32
  | 207 => .fd .okfsFchown -- fchown32
  | 212 => .dummy .okfsChown -- chown32
  | 220 => .fd .okfsGetdents64
  | 221 => .before .okfsBeforeFcntl -- fcntl64
  | 225 => .before .okfsOnlyOs -- readahead
  | 226 => .before .notSupported -- setxattr
  | 227 => .before .notSupported -- lsetxattr
  | 228 => .before .notSupported -- fsetxattr
  | 229 => .before .notSupported -- getxattr
  | 230 => .before .notSupported -- lgetxattr
  | 231 => .before .notSupported -- fgetxattr
  | 232 => .before .notSupported -- listxattr
  | 233 => .before .notSupported -- llistxattr
  | 234 => .before .notSupported -- flistxattr
  | 235 => .before .notSupported -- removexattr
  | 236 => .before .notSupported -- lremovexattr
  | 237 => .before .notSupported -- fremovexattr
  | 239 => .before .unimplementedCall -- sendfile64
  | _ => {}

-- ---------------------------------------------------------------------------
-- The handlers
-- ---------------------------------------------------------------------------

variable {σ : Type} (h : Host σ)

/-- `call_before`. -/
def Before.run (s : Tracee σ) : Before → Except Ending (Tracee σ)
  | .beforeFork => Syscall.beforeFork h s
  | .okfsFdCall => Syscall.okfsFdCall s
  | .okfsBeforeOpen => Syscall.okfsBeforeOpen h s
  | .okfsOpOnFd => Syscall.okfsOpOnFd s
  | .beforeWait => Syscall.beforeWait h s
  | .okfsBeforeCreat => Syscall.okfsBeforeCreat h s
  | .okfsBeforeLnkRnm => Syscall.okfsBeforeLnkRnm h s
  | .dummyCall => Syscall.dummyCall s
  -- only for debugging
  | .beforeExecve => .ok s
  | .unimplementedCall => Syscall.unimplementedCall s
  | .okfsOnlyOs => Syscall.okfsOnlyOs s
  | .okfsBeforeFcntl => Syscall.okfsBeforeFcntl s
  | .okfsBeforeMmap => Syscall.okfsBeforeMmap s
  | .beforeClone => Syscall.beforeClone h s
  | .notSupported => Syscall.notSupported s

/-- The handlers that make no new task. -/
def After.runAlone (s : Tracee σ) : After → Except Ending (Tracee σ)
  | .okfsRead => Syscall.okfsRead h s
  | .okfsWrite => Syscall.okfsWrite h s
  | .okfsAfterClose => Syscall.okfsAfterClose h s
  | .okfsLink => Syscall.okfsLink h s
  | .okfsUnlink => Syscall.okfsUnlink h s
  | .afterExecve => Syscall.afterExecve h s
  | .okfsChdir => Syscall.okfsChdir h s
  | .okfsMknod => Syscall.okfsMknod h s
  | .okfsChmod => Syscall.okfsChmod h s
  | .okfsLchown => Syscall.okfsLchown h s
  | .okfsLseek => Syscall.okfsLseek h s
  | .okfsUtime => Syscall.okfsUtime h s
  | .okfsAccess => Syscall.okfsAccess h s
  | .okfsRename => Syscall.okfsRename h s
  | .okfsMkdir => Syscall.okfsMkdir h s
  | .okfsRmdir => Syscall.okfsRmdir h s
  | .okfsDup => Syscall.okfsDup s
  | .okfsAcct => Syscall.okfsAcct h s
  | .okfsDup2 => Syscall.okfsDup2 s
  | .afterSigaction => Syscall.afterSigaction s
  | .okfsSymlink => Syscall.okfsSymlink h s
  | .okfsReadlink => Syscall.okfsReadlink h s
  | .okfsTruncate => Syscall.okfsTruncate h s
  | .okfsFtruncate => Syscall.okfsFtruncate h s
  | .okfsFchmod => Syscall.okfsFchmod h s
  | .okfsFchown => Syscall.okfsFchown h s
  | .okfsStatfs => Syscall.okfsStatfs h s
  | .okfsFstatfs => Syscall.okfsFstatfs h s
  | .okfsStat => Syscall.okfsStat h s
  | .okfsLstat => Syscall.okfsLstat h s
  | .okfsFstat => Syscall.okfsFstat h s
  | .okfsFchdir => Syscall.okfsFchdir h s
  | .okfsGetdents => Syscall.okfsGetdents h s
  | .afterRtSigaction => Syscall.afterRtSigaction s
  | .okfsChown => Syscall.okfsChown h s
  | .okfsGetcwd => Syscall.okfsGetcwd s
  | .okfsStat64 => Syscall.okfsStat64 h s
  | .okfsLstat64 => Syscall.okfsLstat64 h s
  | .okfsFstat64 => Syscall.okfsFstat64 h s
  | .okfsGetdents64 => Syscall.okfsGetdents64 h s
  | .rootid => Syscall.rootid s
  | .returnSaved => Syscall.returnSaved s
  | .okfsAfterOkfsOpen => Syscall.okfsAfterOkfsOpen s
  | .okfsAfterLinuxOpen => Syscall.okfsAfterLinuxOpen s
  | .okfsAfterFcntl => Syscall.okfsAfterFcntl s
  | .afterWaitWnohang => Syscall.afterWaitWnohang h s
  | .afterWaitIszombie => Syscall.afterWaitIszombie h s
  | .afterWaitIsstopped => Syscall.afterWaitIsstopped h s
  | .afterFork => (Syscall.afterFork h s).map Prod.fst

/-- `next_call`, with the task that it has made. -/
def After.run (s : Tracee σ) (after : After) : Except Ending (Tracee σ × Option (Tracee σ)) :=
  if after = .afterFork then Syscall.afterFork h s else (after.runAlone h s).map (·, none)

-- ---------------------------------------------------------------------------
-- okfs.c
-- ---------------------------------------------------------------------------

def ERESTARTSYS : Int := 512

/-- The row that says where the arguments of a call are. -/
def argsRow (nr : Int) : Nat := if 0 < nr ∧ nr < NR_syscalls then nr.toNat else 0

/-- `PTRACE_GETREGS`, and the arguments. -/
def fetch (fakeroot : Bool) (s : Tracee σ) : Except Ending (Tracee σ) :=
  getSlaveArgs { s with slave := { s.slave with regs := s.regs } }
    (callTable fakeroot (argsRow s.regs.origEax.toInt)).hasStackArgs

/-- The tracee enters the call. A number that is not in the table is looked up there, unless
it is greater than the size of the table. -/
def enter (fakeroot : Bool) (s : Tracee σ) : Except Ending (Tracee σ) :=
  let nr : Int := s.slave.regs.origEax.toInt
  let s := { s with slave := { s.slave with duringCall := nr } }
  if nr > NR_syscalls then unimplementedCall s
  else if nr < 0 ∨ nr = NR_syscalls then .error .undefined
  else
    let entry := callTable fakeroot nr.toNat
    let s := { s with slave := { s.slave with nextCall := entry.callAfter } }
    match entry.callBefore with
    | some before => before.run h s
    | none => .ok s

/-- The call that `suspend` has replaced is made again, or `next_call` is called. -/
def complete (s : Tracee σ) : Except Ending (Tracee σ × Option (Tracee σ)) :=
  if s.slave.restartCall ≠ 0 then do
    let regs :=
      { s.slave.regs with
        origEax := BitVec.ofInt 32 s.slave.restartCall
        eax := BitVec.ofInt 32 (-ERESTARTSYS) }
    let s ← setSlaveArgs { s with slave := { s.slave with regs } }
    return ({ s with slave := { s.slave with restartCall := 0 } }, none)
  else
    match s.slave.nextCall with
    | some after => after.run h s
    | none => .ok (s, none)

/-- The tracee leaves the call. -/
def leave (s : Tracee σ) : Except Ending (Tracee σ × Option (Tracee σ)) := do
  let regs := { s.slave.regs with origEax := BitVec.ofInt 32 s.slave.duringCall }
  let (s, child) ← complete h { s with slave := { s.slave with duringCall := 0, regs } }
  return ({ s with slave := { s.slave with nextCall := none } }, child)

/-- `handle_syscall`. A task that is in no call has `during_call` 0. -/
def handleSyscall (fakeroot : Bool) (s : Tracee σ) :
    Except Ending (Tracee σ × Option (Tracee σ)) := do
  let s ← fetch fakeroot s
  if s.slave.duringCall = 0 then
    let s ← enter h fakeroot s
    return (s, none)
  else leave h s

-- ---------------------------------------------------------------------------
-- A small machine
-- ---------------------------------------------------------------------------

/-- Nothing is mounted, every path names a directory, Linux does all it is asked for, and the
allocator never fails. -/
def bareHost : Host Unit where
  mounted := []
  namei _ := ⟨fun _ => .ok .dir, fun _ => .error .EINVAL⟩
  entry _ _ := none
  linux _ _ world := ⟨0, fun _ => 0, world⟩
  cached _ _ _ := false
  readdir _ _ := .error .ENOTDIR
  direntBytes _ _ := 0
  fPos _ _ := 0
  setFPos world _ _ := world
  stSize _ _ := 0
  setStSize world _ _ := world
  nshared _ _ := 1
  malloc _ _ := true
  children _ := []
  stoppedChild _ := ⟨0, 0, .running, 0⟩
  attaches _ := true
  garbage _ := 0
  garbageString _ := none
  tmpf := ascii "/tmp/f"

/-- The registers for a call with these arguments. -/
def callRegs (origEax ebx ecx edx : Word) : UserRegs := ⟨ebx, ecx, edx, 0, 0, 0, origEax, 0, 0⟩

/-- A memory of zeros, and a task that has made no call yet. -/
def bareTracee (regs : UserRegs) : Tracee Unit where
  slave :=
    { pid := 100, gid := 100, regs, saveRegs := regs, arg := ⟨0, 0, 0, 0, 0, 0⟩
      hasStackArgs := false, nextCall := none, duringCall := 0, restartCall := 0, retvalSaved := 0
      cwd := [slash], callfs := {}, fdTab := fun _ => none, closeOnExec := fun _ => false
      fsfd := fun _ => 0, sighandler := fun _ => 0, nocldstop := false, rplCode := none
      rplDest := 0 }
  regs
  mem := ⟨fun _ => 0, fun _ => true, fun _ => true⟩
  world := ()
  leaked := false

/-- A task that names `/d` at 4096 and `/e` at 8192. -/
def namingTracee (regs : UserRegs) : Tracee Unit :=
  { bareTracee regs with
    mem :=
      { bytes := fun a =>
          if a < 8192 then stringBytes (ascii "/d") (a - 4096) else stringBytes (ascii "/e") (a - 8192)
        readable := fun _ => true
        writable := fun _ => true } }

/-- The registers for `rename` of the one to the other. -/
def renameRegs : UserRegs := ⟨4096, 8192, 7, 8, 9, 10, 38, 11, 12⟩

end Syscall

end Okfs
