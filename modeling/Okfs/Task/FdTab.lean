import Okfs.Linux
import Okfs.Vfs.Path
import Mathlib.Data.List.FinRange
import Mathlib.Logic.Function.Basic

/-!
# OKFS — descriptors of the tracees

Each traced task has a table `fd_tab` of the files that its descriptors stand for,
beside the kernel's own table. An `okfs_file` is shared between slots, of one task
through `dup`, `dup2` and `fcntl`, and of several through `fork`; `nshared` counts them.
A call is handled in two halves: `call_before` when the tracee enters it, and
`next_call` when it leaves, after the kernel has executed what it was left to execute.

The kernel is the one that OKFS is written for: it has no `O_CLOEXEC`, so what it opens
stays open over `execve`, and no call number `NR_OPEN`. What it answers is part of the
events, and `KernelAnswers` says what it may answer. Of an `okfs_file` the count and the
filesystem are modelled here; its strings, its position and its inode record are in the
modules of the VFS.
-/

namespace Okfs

namespace FdTab

abbrev FsRef := Nat
abbrev OkfsFileRef := Nat
abbrev TaskRef := Nat
abbrev Slot := Fin OPEN_MAX

/-- `opened` is not in the source: the descriptor that `fsp` returned for the file. -/
structure OkfsFile where
  fsp : Option FsRef
  nshared : Int
  opened : Int
  deriving DecidableEq, Repr

/-- A descriptor of the kernel. `origin` is not in the kernel: the open that the
descriptor comes from, if that was one that succeeded. -/
structure KFd where
  closeOnExec : Bool
  origin : Option OkfsFileRef
  deriving DecidableEq, Repr

abbrev KTable := Nat → Option KFd

/-- A system call with its arguments; of `open` and `creat` those are not needed. -/
inductive Call
  | «open»
  | creat
  | close (fd : Int)
  | dup (fd : Int)
  | dup2 (oldfd newfd : Int)
  | fcntl (fd : Int) (cmd arg : Nat)
  | fork
  | execve
  | exit
  | getpid
  /-- A number that no call has. -/
  | number (nr : Nat)
  deriving DecidableEq, Repr

/-- What `next_call` points to. -/
inductive Handler
  | returnSaved | afterOkfsOpen | afterLinuxOpen | afterClose | dup | dup2 | afterFcntl
  | afterFork | afterExecve
  deriving DecidableEq, Repr

/-- What comes of the path of an open: `proc_path1` fails, or finds Linux responsible, or
a filesystem, from which `okfs_do_open` has its result. -/
inductive Resolved
  | failed (e : Errno)
  | linux
  | okfs (fsp : FsRef) (ret : Int)
  deriving DecidableEq, Repr

structure Task where
  fdTab : Slot → Option OkfsFileRef
  closeOnExec : Slot → Bool
  fsfd : Slot → Int
  arg1Fsp : Option FsRef
  retvalSaved : Int
  /-- The call that the task is in, as the kernel is left to execute it. -/
  call : Option Call
  nextCall : Option Handler
  returnValue : Int
  zombie : Bool
  /-- The kernel's table. -/
  kernel : KTable

/-- What the tasks share: the `okfs_file`s, and the descriptors of the filesystems. -/
structure Heap where
  files : OkfsFileRef → Option OkfsFile
  nextFile : OkfsFileRef
  opened : FsRef × Int → Bool
  /-- Not in the source: a filesystem was given a descriptor that it did not have. -/
  closedTwice : Bool

structure State where
  tasks : TaskRef → Option Task
  nextTask : TaskRef
  heap : Heap

/-- The index of a descriptor, if `0 <= fd && fd < OPEN_MAX`. -/
def slotOf (fd : Int) : Option Slot :=
  if h : 0 ≤ fd ∧ fd < OPEN_MAX then some ⟨fd.toNat, by omega⟩ else none

def Task.file (tp : Task) (fd : Int) : Option OkfsFileRef := (slotOf fd).bind tp.fdTab

/-! ## The kernel -/

/-- `dup` of a descriptor: the copy stays open over `execve`. -/
def KTable.copy (k : KTable) (old new : Int) : KTable :=
  Function.update k new.toNat ((k old.toNat).map fun d => { d with closeOnExec := false })

/-- The table after a call that returned `ret`. -/
def kernelAfter (k : KTable) (call : Call) (ret : Int) : KTable :=
  match call with
  | .open | .creat => if ret < 0 then k else Function.update k ret.toNat (some ⟨false, none⟩)
  | .close fd => if fd < 0 then k else Function.update k fd.toNat none
  | .dup fd => if ret < 0 then k else k.copy fd ret
  | .dup2 oldfd newfd => if ret < 0 ∨ oldfd = newfd then k else k.copy oldfd newfd
  | .fcntl fd cmd arg =>
    if ret < 0 then k
    else if cmd = F_DUPFD then k.copy fd ret
    else if cmd = F_SETFD then
      Function.update k fd.toNat
        ((k fd.toNat).map fun d => { d with closeOnExec := decide (arg &&& FD_CLOEXEC > 0) })
    else k
  | .execve => if ret < 0 then k else fun n => (k n).filter fun d => !d.closeOnExec
  | _ => k

/-- What the kernel may return. A new descriptor is one that was not open. -/
def KernelAnswers (k : KTable) (call : Call) (ret : Int) : Prop :=
  match call with
  | .open | .creat => ret < 0 ∨ k ret.toNat = none
  | .close fd => ret < 0 ∨ (0 ≤ fd ∧ (k fd.toNat).isSome)
  | .dup fd => ret < 0 ∨ (0 ≤ fd ∧ (k fd.toNat).isSome ∧ k ret.toNat = none)
  | .dup2 oldfd newfd => ret < 0 ∨ (0 ≤ oldfd ∧ (k oldfd.toNat).isSome ∧ ret = newfd)
  | .fcntl fd cmd _ =>
    ret < 0 ∨ (0 ≤ fd ∧ (k fd.toNat).isSome ∧ (cmd = F_DUPFD → k ret.toNat = none))
  | .exit => False
  | .number _ => ret < 0
  | _ => True

/-! ## `vfs_fd_calls.c` -/

def Heap.setFile (heap : Heap) (r : OkfsFileRef) (filep : Option OkfsFile) : Heap :=
  { heap with files := Function.update heap.files r filep }

/-- `nshared++`. -/
def Heap.share (heap : Heap) (r : OkfsFileRef) : Option Heap := do
  let filep ← heap.files r
  return heap.setFile r (some { filep with nshared := filep.nshared + 1 })

def Heap.shareSlot (heap : Heap) : Option OkfsFileRef → Option Heap
  | some r => heap.share r
  | none => some heap

/-- `nshared--`, and a file that is not shared any more is freed. -/
def Heap.unshare (heap : Heap) (r : OkfsFileRef) : Option Heap := do
  let filep ← heap.files r
  return heap.setFile r
    (if filep.nshared - 1 = 0 then none else some { filep with nshared := filep.nshared - 1 })

/-- The filesystem's `close`. -/
def Heap.fsClose (heap : Heap) (o : FsRef × Int) : Heap :=
  if heap.opened o then { heap with opened := Function.update heap.opened o false }
  else { heap with closedTwice := true }

def Task.clear (tp : Task) (fd : Slot) : Task :=
  { tp with
    fdTab := Function.update tp.fdTab fd none
    closeOnExec := Function.update tp.closeOnExec fd false }

def Task.copy (tp : Task) (oldfd newfd : Slot) : Task :=
  { tp with
    fdTab := Function.update tp.fdTab newfd (tp.fdTab oldfd)
    closeOnExec := Function.update tp.closeOnExec newfd false
    fsfd := Function.update tp.fsfd newfd (tp.fsfd oldfd) }

def okfsOpOnFd (slave : Task) (fd : Int) : Task :=
  match slave.file fd with
  | none => { slave with nextCall := none }
  | some _ => slave

def okfsCloseFd (heap : Heap) (tp : Task) (fd : Slot) : Option (Heap × Task) := do
  let r ← tp.fdTab fd
  let heap ← heap.unshare r
  return (heap, tp.clear fd)

/-- Which filesystems have `entry->close`. -/
abbrev Closes := FsRef → Bool

/-- The last sharer has the filesystem close its descriptor. -/
def Heap.closeLast (closes : Closes) (heap : Heap) (filep : OkfsFile) (fsfd : Int) : Heap :=
  match filep.fsp with
  | some fsp => if closes fsp ∧ filep.nshared = 1 then heap.fsClose (fsp, fsfd) else heap
  | none => heap

def okfsAfterClose (closes : Closes) (heap : Heap) (slave : Task) (fd : Int) :
    Option (Heap × Task) := do
  let i ← slotOf fd
  let r ← slave.fdTab i
  let filep ← heap.files r
  okfsCloseFd (heap.closeLast closes filep (slave.fsfd i)) slave i

def okfsDoDup (heap : Heap) (slave : Task) (oldfd newfd : Int) : Option (Heap × Task) :=
  if newfd < 0 then some (heap, slave)
  else do
    let old ← slotOf oldfd
    let new ← slotOf newfd
    let r ← slave.fdTab old
    let heap ← heap.share r
    return (heap, slave.copy old new)

def okfsDup (heap : Heap) (slave : Task) (oldfd newfd : Int) : Option (Heap × Task) :=
  if newfd ≥ OPEN_MAX then some (heap, { slave with returnValue := -Errno.EMFILE.code })
  else okfsDoDup heap slave oldfd newfd

def okfsDup2 (heap : Heap) (slave : Task) (oldfd newfd : Int) : Option (Heap × Task) :=
  if newfd < 0 then some (heap, slave)
  else if newfd ≥ OPEN_MAX then some (heap, { slave with returnValue := -Errno.EMFILE.code })
  else do
    let new ← slotOf newfd
    -- if fd2 is in use, close it
    let closed :=
      if (slave.fdTab new).isSome then okfsCloseFd heap slave new else some (heap, slave)
    let (heap, slave) ← closed
    if (slave.file oldfd).isSome then okfsDoDup heap slave oldfd newfd else some (heap, slave)

/-! ## `task.c` -/

/-- Another call is executed, and `retval` returned. -/
def forceCallReturn (slave : Task) (retval : Int) : Task :=
  { slave with retvalSaved := retval, nextCall := some .returnSaved, call := some .getpid }

def okfsBeforeFcntl (heap : Heap) (slave : Task) (fd : Int) (cmd : Nat) : Option Task :=
  match slave.file fd with
  | none => some slave
  | some r => do
    let filep ← heap.files r
    if filep.fsp.isSome then
      if cmd = F_SETLK ∨ cmd = F_SETLKW ∨ cmd = F_GETLK then
        return forceCallReturn slave (-Errno.ENOLCK.code)
      else if cmd ∈ [F_NOTIFY, F_GETLEASE, F_SETLEASE, F_GETOWN, F_SETOWN, F_GETSIG, F_SETSIG,
          F_GETFL, F_SETFL] then
        return forceCallReturn slave (-Errno.EOPNOTSUPP.code)
      else
        return { slave with nextCall := some .afterFcntl }
    else
      return { slave with nextCall := some .afterFcntl }

def okfsAfterFcntl (heap : Heap) (slave : Task) (fd : Int) (cmd arg : Nat) (ret : Int) :
    Option (Heap × Task) :=
  if ret < 0 then some (heap, slave)
  else if cmd = F_DUPFD then
    if ret ≥ OPEN_MAX then some (heap, { slave with returnValue := -Errno.EINVAL.code })
    else okfsDoDup heap slave fd ret
  else if cmd = F_SETFD then do
    let i ← slotOf fd
    return (heap, { slave with
      closeOnExec := Function.update slave.closeOnExec i (decide (arg &&& FD_CLOEXEC > 0)) })
  else some (heap, slave)

/-- Close the slots that `which` tells, in order. -/
def closeSlots (which : Task → Slot → Bool) (heap : Heap) (slave : Task) : Option (Heap × Task) :=
  (List.finRange OPEN_MAX).foldlM (fun (hs : Heap × Task) i =>
    if (hs.2.fdTab i).isSome && which hs.2 i then okfsCloseFd hs.1 hs.2 i else some hs) (heap, slave)

/-- The child shares the parent's descriptors, in the kernel too. -/
def Task.child (parent : Task) : Task :=
  { fdTab := parent.fdTab, closeOnExec := parent.closeOnExec, fsfd := parent.fsfd,
    arg1Fsp := none, retvalSaved := 0, call := none, nextCall := none, returnValue := 0,
    zombie := false, kernel := parent.kernel }

def addSlave (heap : Heap) (parent : Task) : Option (Heap × Task) := do
  let heap ← (List.finRange OPEN_MAX).foldlM (fun heap i => heap.shareSlot (parent.child.fdTab i)) heap
  return (heap, parent.child)

/-- The first task. -/
def firstSlave (inherited : Nat → Option Bool) : Task :=
  { fdTab := fun _ => none, closeOnExec := fun _ => false, fsfd := fun _ => 0, arg1Fsp := none,
    retvalSaved := 0, call := none, nextCall := none, returnValue := 0, zombie := false,
    kernel := fun n => (inherited n).map fun c => ⟨c, none⟩ }

/-! ## `vfs_open.c` -/

/-- The descriptor `fd` comes from the open `r`. -/
def KTable.mark (k : KTable) (fd : Int) (r : OkfsFileRef) : KTable :=
  Function.update k fd.toNat ((k fd.toNat).map fun d => { d with origin := some r })

def addNewFd (heap : Heap) (slave : Task) (fsp : Option FsRef) (osfd : Slot) (fsfd : Int) :
    Heap × Task :=
  ({ heap with
      files := Function.update heap.files heap.nextFile (some ⟨fsp, 1, fsfd⟩)
      nextFile := heap.nextFile + 1 },
    { slave with
      fdTab := Function.update slave.fdTab osfd (some heap.nextFile)
      fsfd := Function.update slave.fsfd osfd fsfd })

def okfsAfterOkfsOpen (heap : Heap) (slave : Task) (ret : Int) : Heap × Task :=
  if ret ≥ OPEN_MAX then (heap, { slave with returnValue := -Errno.ENFILE.code })
  else match slotOf ret with
    | some i => addNewFd heap { slave with kernel := slave.kernel.mark ret heap.nextFile }
        slave.arg1Fsp i slave.retvalSaved
    | none => (heap, slave)

/-- From `OPEN_MAX` on the descriptor is the tracee's, but there is no slot for it. -/
def okfsAfterLinuxOpen (heap : Heap) (slave : Task) (ret : Int) : Heap × Task :=
  if ret ≥ OPEN_MAX then
    ({ heap with nextFile := heap.nextFile + 1 },
      { slave with kernel := slave.kernel.mark ret heap.nextFile })
  else match slotOf ret with
    | some i => addNewFd heap { slave with kernel := slave.kernel.mark ret heap.nextFile }
        none i ret
    | none => (heap, slave)

/-- `okfs_before_open` and `okfs_before_creat`, which differ in the call that the kernel is
left to execute on the temporary file. -/
def okfsBeforeOpen (executed : Call) (heap : Heap) (slave : Task) : Resolved → Heap × Task
  | .failed e => (heap, forceCallReturn slave (-e.code))
  | .linux => (heap, { slave with arg1Fsp := none, nextCall := some .afterLinuxOpen })
  | .okfs fsp ret =>
    if ret < 0 then (heap, forceCallReturn slave ret)
    else
      ({ heap with opened := Function.update heap.opened (fsp, ret) true },
        { slave with
          arg1Fsp := some fsp, retvalSaved := ret, call := some executed,
          nextCall := some .afterOkfsOpen })

/-! ## The main loop -/

/-- `call[CALL_NR].call_after`. -/
def callAfter : Call → Option Handler
  | .close _ => some .afterClose
  | .dup _ => some .dup
  | .dup2 .. => some .dup2
  | .fork => some .afterFork
  | .execve => some .afterExecve
  | _ => none

/-- `call[CALL_NR].call_before`; a number that no call has does not get through. -/
def callBefore (heap : Heap) (slave : Task) (resolved : Resolved) : Call → Option (Heap × Task)
  | .open => some (okfsBeforeOpen .open heap slave resolved)
  | .creat => some (okfsBeforeOpen (.number NR_OPEN) heap slave resolved)
  | .close fd | .dup fd => some (heap, okfsOpOnFd slave fd)
  | .fcntl fd cmd _ => (okfsBeforeFcntl heap slave fd cmd).map (heap, ·)
  | .number _ => some (heap, forceCallReturn slave (-Errno.ENOSYS.code))
  | _ => some (heap, slave)

/-- `next_call`, on the arguments that are left in the registers. -/
def callNext (closes : Closes) (heap : Heap) (slave : Task) (ret : Int) :
    Handler → Call → Option (Heap × Task)
  | .returnSaved, _ => some (heap, { slave with returnValue := slave.retvalSaved })
  | .afterOkfsOpen, _ => some (okfsAfterOkfsOpen heap slave ret)
  | .afterLinuxOpen, _ => some (okfsAfterLinuxOpen heap slave ret)
  | .afterClose, .close fd => okfsAfterClose closes heap slave fd
  | .dup, .dup fd => okfsDup heap slave fd ret
  | .dup2, .dup2 oldfd _ => okfsDup2 heap slave oldfd ret
  | .afterFcntl, .fcntl fd cmd arg => okfsAfterFcntl heap slave fd cmd arg ret
  | .afterExecve, .execve =>
    if ret < 0 then some (heap, slave)
    else closeSlots (fun tp i => tp.closeOnExec i) heap slave
  | _, _ => none

def State.put (s : State) (t : TaskRef) (heap : Heap) (slave : Task) : State :=
  { s with heap, tasks := Function.update s.tasks t (some slave) }

inductive Event
  | enter (t : TaskRef) (call : Call) (resolved : Resolved)
  | leave (t : TaskRef) (ret : Int)
  /-- The task exits or is killed. -/
  | die (t : TaskRef)
  /-- `remove_slave`. -/
  | reap (t : TaskRef)

def enter (s : State) (t : TaskRef) (call : Call) (resolved : Resolved) : Option State := do
  let slave ← s.tasks t
  let (heap, slave) ← callBefore s.heap
    { slave with call := some call, nextCall := callAfter call } resolved call
  return s.put t heap slave

/-- The kernel executes the call, and the tracee stops once more. -/
def Task.executed (slave : Task) (call : Call) (ret : Int) : Task :=
  { slave with
    kernel := kernelAfter slave.kernel call ret, returnValue := ret, call := none,
    nextCall := none }

def leave (closes : Closes) (s : State) (t : TaskRef) (ret : Int) : Option State := do
  let slave ← s.tasks t
  let call ← slave.call
  match slave.nextCall with
  | none => return s.put t s.heap (slave.executed call ret)
  | some .afterFork =>
    if ret < 0 then return s.put t s.heap (slave.executed call ret)
    else
      let (heap, child) ← addSlave s.heap (slave.executed call ret)
      let s := s.put t heap (slave.executed call ret)
      return { s.put s.nextTask heap child with nextTask := s.nextTask + 1 }
  | some next =>
    let (heap, slave) ← callNext closes s.heap (slave.executed call ret) ret next call
    return s.put t heap slave

/-- `change_slave_state(SLAVE_ZOMBIE)`. -/
def die (s : State) (t : TaskRef) : Option State := do
  let slave ← s.tasks t
  let (heap, slave) ← closeSlots (fun _ _ => true) s.heap
    { slave with zombie := true, call := none, nextCall := none, kernel := fun _ => none }
  return s.put t heap slave

def step (closes : Closes) (s : State) : Event → Option State
  | .enter t call resolved => enter s t call resolved
  | .leave t ret => leave closes s t ret
  | .die t => die s t
  | .reap t => some { s with tasks := Function.update s.tasks t none }

def start (inherited : Nat → Option Bool) : State :=
  { tasks := Function.update (fun _ => none) 0 (some (firstSlave inherited))
    nextTask := 1
    heap :=
      { files := fun _ => none, nextFile := 0, opened := fun _ => false, closedTwice := false } }

theorem start_tasks_zero (inherited : Nat → Option Bool) :
    (start inherited).tasks 0 = some (firstSlave inherited) := by
  simp only [start, Function.update_self]

theorem start_tasks_of_ne (inherited : Nat → Option Bool) {t : TaskRef} (h : t ≠ 0) :
    (start inherited).tasks t = none := by
  simp only [start, Function.update_of_ne h]

/-- A filesystem that closes descriptors returns one that is not open, and the kernel
answers as it may. -/
def Admissible (closes : Closes) (s : State) : Event → Prop
  | .enter t _ resolved => ∃ slave, s.tasks t = some slave ∧ slave.zombie = false ∧
      slave.call = none ∧ match resolved with
        | .okfs fsp ret => closes fsp = true → 0 ≤ ret → s.heap.opened (fsp, ret) = false
        | _ => True
  | .leave t ret => ∃ slave call, s.tasks t = some slave ∧ slave.zombie = false ∧
      slave.call = some call ∧ KernelAnswers slave.kernel call ret
  | .die t => ∃ slave, s.tasks t = some slave ∧ slave.zombie = false
  | .reap t => ∃ slave, s.tasks t = some slave ∧ slave.zombie = true

end FdTab

end Okfs
