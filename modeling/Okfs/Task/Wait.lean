import Okfs.Lib.Runs
import Okfs.Task.Tree

/-!
# OKFS — wait

The kernel does not report a traced child to its real parent, unless it has exited and OKFS
has been told, so OKFS keeps the states of the tasks and handles wait calls in two
halves: `before_wait` looks for a child that is stopped or a zombie, and one of three functions
completes the call when the kernel returns from it. Where no child is ready, the parent
executes `pause` instead of its call, until `SIGUNPAUSE` tells it that a child has changed.

A run interleaves what the kernel does with the turns of OKFS, which handles one report
after another. The kernel has a table of processes by their pids: a pid is free again when
its process has been reaped. A fork is one step here, from the kernel's part to the record
that `after_fork` makes for the child.
-/

namespace Okfs

namespace Wait

open ByteMemory Signal

-- ---------------------------------------------------------------------------
-- Processes
-- ---------------------------------------------------------------------------

def ECHILD : Int := 10

def WNOHANG : Options := 0x00000001
def WUNTRACED : Options := 0x00000002
def WNOTHREAD : Options := 0x20000000
def WALL : Options := 0x40000000
def WCLONE : Options := 0x80000000

/-- A process that has died is `dying` until OKFS has been told, and then a zombie. -/
inductive Phase
  | alive | dying | zombie
  deriving DecidableEq, Repr

/-- What the kernel executes for a process that is inside a wait call. -/
inductive Inside
  | user | wait | pause
  deriving DecidableEq, Repr

structure Proc where
  parent : Pid
  phase : Phase
  /-- The record that OKFS has made for the process. -/
  task : TaskRef
  inside : Inside
  /-- The child that has been reaped by the wait call. -/
  answer : Option (Pid × TaskRef)
  /-- `SIGUNPAUSE` is pending. -/
  unpause : Bool

/-- OKFS ends with `exit(0)`, or with an error; `crashed` is where it is undefined. -/
inductive Status
  | running | exited | quit | crashed
  deriving DecidableEq, Repr

structure State extends Tree where
  procs : Pid → Option Proc
  /-- The tasks of which OKFS has been told that they have exited or been killed. -/
  ended : TaskRef → Bool
  /-- The tasks of which a wait call has returned the pid to the parent. -/
  returned : TaskRef → Bool
  status : Status

def State.change (s : State) (t : TaskRef) (f : Task → Task) : State :=
  { s with toTree := s.toTree.modify t f }

def State.changeProc (s : State) (pid : Pid) (f : Proc → Proc) : State :=
  { s with procs := Function.update s.procs pid ((s.procs pid).map f) }

/-- `kill(pid, SIGUNPAUSE)`. -/
def State.sendUnpause (s : State) (pid : Pid) : State :=
  s.changeProc pid fun p => { p with unpause := true }

def State.removed (s : State) (tree : Tree) : State :=
  { s with
    toTree := tree
    status := if tree.firstTask = [] then .exited else s.status }

def State.quit (s : State) : State := { s with status := .quit }

-- ---------------------------------------------------------------------------
-- task.c and okfs_signal.c
-- ---------------------------------------------------------------------------

def changeSlaveState (s : State) (t : TaskRef) (slave : Task) (state : SlaveState) (status : Int) :
    Option State :=
  let s := s.change t fun slave => { slave with state, exitCode := status }
  if slave.ppid ≠ 1 then
    if state = .zombie ∨ state = .stopped then return s.sendUnpause slave.ppid else return s
  else if state = .zombie then do
    let tree ← removeSlave s.toTree slave.pid
    return s.removed tree
  else return s

def stopSlave (s : State) (t : TaskRef) (slave : Task) (status : Int) : Option State :=
  if slave.patched then return s.quit
  else do
    let s ← changeSlaveState (s.change t fun slave => { slave with patched := true }) t slave
      .stopped status
    -- `find_slave` does not return without a record
    if findSlave s.toTree slave.ppid = none then return s.quit else return s

def wakeupSlave (s : State) (t : TaskRef) (slave : Task) : Option State :=
  if slave.patched then
    changeSlaveState (s.change t fun slave => { slave with patched := false }) t slave .running 0
  else return s.quit

def processSignal (s : State) (t : TaskRef) (slave : Task) (sig status : Int) : Option State :=
  match (Signal.processSignal slave.state slave.sighandler sig).1 with
  | .nothing | .sigaddset => some s
  | .wakeupSlave => wakeupSlave s t slave
  | .stopSlave => stopSlave s t slave status

-- ---------------------------------------------------------------------------
-- control.c
-- ---------------------------------------------------------------------------

/-- The pid filter of `before_wait`: it compares `gid`, not the process group. -/
def accepts (pid : Pid) (gid : Int) (p : Task) : Bool :=
  if pid > 0 then p.pid == pid
  else if pid = 0 then p.gid == gid
  else if pid ≠ -1 then p.gid == -pid
  else true

/-- What the loop of `before_wait` finds; `unready` has the flag. -/
inductive Found
  | stopped (child : TaskRef)
  | zombie
  | unready (flag : Bool)

def waitLoop (s : Tree) (pid : Pid) (gid : Int) (options : Options) :
    List TaskRef → Bool → Option Found
  | [], flag => some (.unready flag)
  | cp :: cps, flag => do
    let p ← s.tasks cp
    if accepts pid gid p = false then waitLoop s pid gid options cps flag
    else if p.state = .stopped ∧ options &&& WUNTRACED ≠ 0 then return .stopped cp
    else if p.state = .zombie then return .zombie
    else waitLoop s pid gid options cps true

/-- Which function completes the call, and which call the kernel is left to execute. -/
def enterFound (s : State) (t : TaskRef) (pid : Pid) (options : Options) : Found → State × Inside
  | .stopped child =>
    (s.change t fun slave => { slave with nextCall := .isstopped, stoppedChild := some child }, .wait)
  | .zombie => (s.change t fun slave => { slave with nextCall := .iszombie }, .wait)
  | .unready flag =>
    if flag = false then (s, .wait)
    else if options &&& WNOHANG ≠ 0 then
      (s.change t fun slave => { slave with nextCall := .wnohang }, .wait)
    -- `suspend`
    else (s.change t fun slave => { slave with restartCall := some (pid, options) }, .pause)

def beforeWait (s : State) (t : TaskRef) (slave : Task) (pid : Pid) (options : Options) :
    Option (State × Inside) :=
  if options &&& ~~~(WNOHANG ||| WUNTRACED ||| WNOTHREAD ||| WCLONE ||| WALL) ≠ 0 then
    some (s, .wait)
  else
    (waitLoop s.toTree pid slave.gid options slave.childp false).map (enterFound s t pid options)

def afterWaitWnohang (s : State) (t : TaskRef) (ret : Int) : Option State :=
  if ret > 0 then do
    let tree ← removeChild s.toTree t ret
    return { s with toTree := tree }
  else return s

/-- The assertion on the return value is not compiled in. -/
def afterWaitIszombie (s : State) (t : TaskRef) (ret : Int) : Option State := do
  let tree ← removeChild s.toTree t ret
  let tree ← removeSlave tree ret
  return s.removed tree

/-- `WIFSTOPPED`. -/
def wifstopped (status : Int) : Bool := status % 256 == 0x7f

/-- `status` is what `stat_addr` points to, if that can be accessed. -/
def afterWaitIsstopped (s : State) (t : TaskRef) (slave : Task) (ret : Int) (status : Option Int) :
    Option State :=
  match status with
  | none => return s.quit
  | some status =>
    if ret ≠ 0 ∧ ret ≠ -ECHILD then
      if ret > 0 ∧ wifstopped status = false then afterWaitIszombie s t ret else return s
    else do
      let child ← slave.stoppedChild
      let _ ← s.tasks child
      return s.change child fun child => { child with state := .stoppedAndNotified }

/-- The call of `next_call`. -/
def callNext (s : State) (t : TaskRef) (slave : Task) (ret : Int) (status : Option Int) :
    Option State :=
  match slave.nextCall with
  | .nothing => some s
  | .wnohang => afterWaitWnohang s t ret
  | .iszombie => afterWaitIszombie s t ret
  | .isstopped => afterWaitIsstopped s t slave ret status

/-- What `handle_syscall` does when a task leaves a wait call, or the `pause` instead of it. -/
def leaveCall (s : State) (t : TaskRef) (slave : Task) (ret : Int) (status : Option Int) :
    Option State := do
  if slave.restartCall.isSome then
    return s.change t fun slave => { slave with restartCall := none, nextCall := .nothing }
  else
    let s ← callNext s t slave ret status
    if s.status = .running then
      let _ ← s.tasks t
      return s.change t fun slave => { slave with nextCall := .nothing }
    else return s

-- ---------------------------------------------------------------------------
-- Runs
-- ---------------------------------------------------------------------------

/-- The first three are of the kernel, the others are reported to OKFS. -/
inductive Event
  | dies (pid : Pid)
  | reaped (pid : Pid)
  | answers (pid child : Pid)
  | fork (pid child : Pid)
  | waitEnter (pid arg : Pid) (options : Options)
  | leave (pid : Pid) (ret : Int) (status : Option Int)
  | signal (pid : Pid) (sig status : Int)
  | exit (pid : Pid) (status : Int)

/-- A turn of `guard_slaves`: `find_slave` ends OKFS where the pid has no record. -/
def turn (s : State) (pid : Pid) (handle : TaskRef → Task → Option State) : State :=
  match findSlave s.toTree pid with
  | none => s.quit
  | some t => ((s.tasks t).bind (handle t)).getD { s with status := .crashed }

/-- What a wait call returns: the child that it has reaped, of which it stores the status,
or no pid. A call of `pause` is interrupted. -/
def Proc.returns (p : Proc) (ret : Int) (status : Option Int) : Bool :=
  match p.inside, p.answer with
  | .user, _ => false
  | .pause, _ => decide (ret < 0)
  | .wait, some (child, _) => ret == child && status.all fun st => !wifstopped st
  | .wait, none => decide (ret ≤ 0)

/-- The children of a process that has died are those of process 1. -/
def Proc.reparent (pid : Pid) (p : Proc) : Proc := if p.parent = pid then { p with parent := 1 } else p

def State.mapProcs (s : State) (f : Proc → Proc) : State :=
  { s with procs := fun q => (s.procs q).map f }

/-- What the kernel does before OKFS is told, where it can do it. -/
def kernel (s : State) : Event → Option State
  | .dies pid => do
    let p ← s.procs pid
    let s := s.changeProc pid fun p => { p with phase := .dying }
    if p.phase = .alive then return s.mapProcs (Proc.reparent pid) else none
  | .reaped pid => do
    let p ← s.procs pid
    if p.phase = .zombie then return { s with procs := Function.update s.procs pid none } else none
  | .answers pid child => do
    let p ← s.procs pid
    let c ← s.procs child
    let s := s.changeProc pid fun p => { p with answer := some (child, c.task) }
    if p.phase = .alive ∧ p.inside = .wait ∧ p.answer = none ∧ c.phase = .zombie ∧ c.parent = pid then
      return { s with procs := Function.update s.procs child none }
    else none
  | .fork pid child => do
    let p ← s.procs pid
    if p.phase = .alive ∧ p.inside = .user ∧ s.procs child = none ∧ 1 < child then
      let new : Proc := ⟨pid, .alive, s.nextTask, .user, none, false⟩
      return { s with procs := Function.update s.procs child (some new) }
    else none
  | .waitEnter pid _ _ => do
    let p ← s.procs pid
    if p.phase = .alive ∧ p.inside = .user then return s else none
  | .leave pid ret status => do
    let p ← s.procs pid
    let s := s.changeProc pid fun p => { p with inside := .user, answer := none }
    if p.phase = .alive ∧ p.returns ret status then
      return { s with
        returned := fun r => s.returned r || (p.answer.map Prod.snd == some r) }
    else none
  | .signal pid sig _ => do
    let p ← s.procs pid
    if p.phase = .alive ∧ p.inside = .user ∧ (sig = SIGUNPAUSE → p.unpause) then
      return if sig = SIGUNPAUSE then s.changeProc pid fun p => { p with unpause := false } else s
    else none
  | .exit pid _ => do
    let p ← s.procs pid
    let s := s.changeProc pid fun p => { p with phase := .zombie }
    if p.phase = .dying then return { s with ended := Function.update s.ended p.task true } else none

/-- The turn of OKFS, if the event is reported to it. -/
def okfs (s : State) : Event → State
  | .dies _ | .reaped _ | .answers _ _ => s
  | .fork pid child =>
    turn s pid fun t slave => some { s with toTree := forkTree s.toTree t slave child }
  | .waitEnter pid arg options =>
    turn s pid fun t slave => (beforeWait s t slave arg options).map fun r =>
      r.1.changeProc pid fun p => { p with inside := r.2 }
  | .leave pid ret status => turn s pid fun t slave => leaveCall s t slave ret status
  | .signal pid sig status => turn s pid fun t slave => processSignal s t slave sig status
  | .exit pid status => turn s pid fun t slave => changeSlaveState s t slave .zombie status

def step (s : State) (e : Event) : Option State :=
  if s.status = .running then (kernel s e).map (okfs · e) else none

/-- The first task, traced by OKFS, with the pid that the kernel has given it. -/
def firstSlave (pid : Pid) (gid : Int) : Task :=
  { pid
    ppid := 1
    gid
    state := .running
    exitCode := 0
    childp := []
    stoppedChild := none
    nextCall := .nothing
    restartCall := none
    sighandler := fun _ => SIG_DFL
    patched := false }

def start (pid : Pid) (gid : Int) : State :=
  { tasks := Function.update (fun _ => none) 0 (some (firstSlave pid gid))
    firstTask := [0]
    nextTask := 1
    procs := Function.update (fun _ => none) pid (some ⟨1, .alive, 0, .user, none, false⟩)
    ended := fun _ => false
    returned := fun _ => false
    status := .running }

-- ---------------------------------------------------------------------------
-- Small facts
-- ---------------------------------------------------------------------------

variable {s s' k : State} {t u c : TaskRef} {slave task child : Task} {p : Proc} {pid arg : Pid}
  {options : Options} {ret : Int} {status : Option Int} {e : Event}

@[simp] theorem State.change_procs (s : State) (t : TaskRef) (f : Task → Task) :
    (s.change t f).procs = s.procs := rfl

@[simp] theorem State.change_toTree (s : State) (t : TaskRef) (f : Task → Task) :
    (s.change t f).toTree = s.toTree.modify t f := rfl

@[simp] theorem State.changeProc_toTree (s : State) (pid : Pid) (f : Proc → Proc) :
    (s.changeProc pid f).toTree = s.toTree := rfl

theorem State.changeProc_self (s : State) (pid : Pid) (f : Proc → Proc) :
    (s.changeProc pid f).procs pid = (s.procs pid).map f :=
  Function.update_self ..

theorem State.changeProc_of_ne (s : State) {pid q : Pid} (f : Proc → Proc) (h : q ≠ pid) :
    (s.changeProc pid f).procs q = s.procs q :=
  Function.update_of_ne h ..

@[simp] theorem State.mapProcs_toTree (s : State) (f : Proc → Proc) :
    (s.mapProcs f).toTree = s.toTree := rfl

/-- Only the parent changes. -/
theorem Proc.reparent_spec (pid : Pid) (p : Proc) :
    p.reparent pid = { p with parent := if p.parent = pid then 1 else p.parent } := by
  rw [Proc.reparent]
  split <;> rfl

theorem State.removed_toTree (s : State) (tree : Tree) : (s.removed tree).toTree = tree := rfl

/-- A record of which `state` is set. -/
def setState (state : SlaveState) (status : Int) (slave : Task) : Task :=
  { slave with state, exitCode := status }

theorem setState_neutral (state : SlaveState) (status : Int) : Neutral (setState state status) :=
  ⟨fun _ => rfl, fun _ => rfl, fun _ => rfl⟩

theorem patched_neutral (patched : Bool) : Neutral fun slave => { slave with patched } :=
  ⟨fun _ => rfl, fun _ => rfl, fun _ => rfl⟩

theorem nextCall_neutral (next : NextCall) : Neutral fun slave => { slave with nextCall := next } :=
  ⟨fun _ => rfl, fun _ => rfl, fun _ => rfl⟩

/-- A turn: OKFS ends because the pid has no record, or it handles the report. -/
theorem turn_cases (s : State) (pid : Pid) (handle : TaskRef → Task → Option State) :
    (findSlave s.toTree pid = none ∧ turn s pid handle = s.quit) ∨
      ∃ t slave, findSlave s.toTree pid = some t ∧ s.tasks t = some slave ∧ slave.pid = pid ∧
        turn s pid handle = (handle t slave).getD { s with status := .crashed } := by
  unfold turn
  split
  · exact Or.inl ⟨‹_›, rfl⟩
  · rename_i t hfind
    obtain ⟨slave, hslave, hpid⟩ := findSlave_task hfind
    exact Or.inr ⟨t, slave, hfind, hslave, hpid, by rw [hslave]; rfl⟩

theorem step_spec (h : step s e = some s') :
    s.status = .running ∧ ∃ k, kernel s e = some k ∧ s' = okfs k e := by
  unfold step at h
  split at h
  · obtain ⟨k, hk, rfl⟩ := Option.map_eq_some_iff.mp h
    exact ⟨‹_›, k, hk, rfl⟩
  · cases h

-- What the kernel needs for an event, and what it changes.

theorem kernel_dies (h : kernel s (.dies pid) = some k) :
    ∃ p, s.procs pid = some p ∧ p.phase = .alive ∧
      k = (s.changeProc pid fun p => { p with phase := .dying }).mapProcs (Proc.reparent pid) := by
  obtain ⟨p, hp, h⟩ := Option.bind_eq_some_iff.mp h
  split at h
  · exact ⟨p, hp, ‹_›, (Option.some.inj h).symm⟩
  · cases h

theorem kernel_reaped (h : kernel s (.reaped pid) = some k) :
    ∃ p, s.procs pid = some p ∧ p.phase = .zombie ∧
      k = { s with procs := Function.update s.procs pid none } := by
  obtain ⟨p, hp, h⟩ := Option.bind_eq_some_iff.mp h
  split at h
  · exact ⟨p, hp, ‹_›, (Option.some.inj h).symm⟩
  · cases h

theorem kernel_answers {child : Pid} (h : kernel s (.answers pid child) = some k) :
    ∃ p c, s.procs pid = some p ∧ s.procs child = some c ∧ p.phase = .alive ∧
      p.inside = .wait ∧ p.answer = none ∧ c.phase = .zombie ∧ c.parent = pid ∧
      k = { s with
        procs := Function.update
          (s.changeProc pid fun p => { p with answer := some (child, c.task) }).procs child none } := by
  obtain ⟨p, hp, h⟩ := Option.bind_eq_some_iff.mp h
  obtain ⟨c, hc, h⟩ := Option.bind_eq_some_iff.mp h
  split at h
  · rename_i hcond
    obtain ⟨h₁, h₂, h₃, h₄, h₅⟩ := hcond
    exact ⟨p, c, hp, hc, h₁, h₂, h₃, h₄, h₅, (Option.some.inj h).symm⟩
  · cases h

theorem kernel_fork {child : Pid} (h : kernel s (.fork pid child) = some k) :
    ∃ p, s.procs pid = some p ∧ p.phase = .alive ∧ p.inside = .user ∧ s.procs child = none ∧
      1 < child ∧
      k = { s with
        procs := Function.update s.procs child (some ⟨pid, .alive, s.nextTask, .user, none, false⟩) } := by
  obtain ⟨p, hp, h⟩ := Option.bind_eq_some_iff.mp h
  split at h
  · rename_i hcond
    obtain ⟨h₁, h₂, h₃, h₄⟩ := hcond
    exact ⟨p, hp, h₁, h₂, h₃, h₄, (Option.some.inj h).symm⟩
  · cases h

theorem kernel_waitEnter (h : kernel s (.waitEnter pid arg options) = some k) :
    ∃ p, s.procs pid = some p ∧ p.phase = .alive ∧ p.inside = .user ∧ k = s := by
  obtain ⟨p, hp, h⟩ := Option.bind_eq_some_iff.mp h
  split at h
  · rename_i hcond
    exact ⟨p, hp, hcond.1, hcond.2, (Option.some.inj h).symm⟩
  · cases h

theorem kernel_leave (h : kernel s (.leave pid ret status) = some k) :
    ∃ p, s.procs pid = some p ∧ p.phase = .alive ∧ p.returns ret status = true ∧
      k = { (s.changeProc pid fun p => { p with inside := .user, answer := none }) with
        returned := fun r => s.returned r || (p.answer.map Prod.snd == some r) } := by
  obtain ⟨p, hp, h⟩ := Option.bind_eq_some_iff.mp h
  split at h
  · rename_i hcond
    exact ⟨p, hp, hcond.1, hcond.2, (Option.some.inj h).symm⟩
  · cases h

theorem kernel_signal {sig st : Int} (h : kernel s (.signal pid sig st) = some k) :
    ∃ p, s.procs pid = some p ∧ p.phase = .alive ∧ p.inside = .user ∧
      k = if sig = SIGUNPAUSE then s.changeProc pid fun p => { p with unpause := false } else s := by
  obtain ⟨p, hp, h⟩ := Option.bind_eq_some_iff.mp h
  split at h
  · rename_i hcond
    exact ⟨p, hp, hcond.1, hcond.2.1, (Option.some.inj h).symm⟩
  · cases h

theorem kernel_exit {st : Int} (h : kernel s (.exit pid st) = some k) :
    ∃ p, s.procs pid = some p ∧ p.phase = .dying ∧
      k = { (s.changeProc pid fun p => { p with phase := .zombie }) with
        ended := Function.update s.ended p.task true } := by
  obtain ⟨p, hp, h⟩ := Option.bind_eq_some_iff.mp h
  split at h
  · exact ⟨p, hp, ‹_›, (Option.some.inj h).symm⟩
  · cases h

-- ---------------------------------------------------------------------------
-- before_wait
-- ---------------------------------------------------------------------------

/-- The states for which `before_wait` returns at once. -/
def Ready (options : Options) (state : SlaveState) : Prop :=
  state = .zombie ∨ (state = .stopped ∧ options &&& WUNTRACED ≠ 0)

/-- What the loop finds: no accepted child is ready, or one is. -/
theorem waitLoop_unready {tree : Tree} {gid : Int} {cps : List TaskRef} {flag flag' : Bool}
    (h : waitLoop tree pid gid options cps flag = some (.unready flag')) :
    ∀ c ∈ cps, ∃ child, tree.tasks c = some child ∧
      (accepts pid gid child = true → ¬ Ready options child.state) := by
  induction cps generalizing flag with
  | nil => exact fun c hc => absurd hc List.not_mem_nil
  | cons cp cps ih =>
    obtain ⟨child, hchild, h⟩ := Option.bind_eq_some_iff.mp h
    have hhead : (accepts pid gid child = true → ¬ Ready options child.state) ∧
        ∃ flag, waitLoop tree pid gid options cps flag = some (.unready flag') := by
      split at h
      · rename_i hno
        exact ⟨fun hyes => absurd (hno.symm.trans hyes) Bool.false_ne_true, flag, h⟩
      · split at h
        · cases h
        · split at h
          · cases h
          · rename_i hstopped hzombie
            exact ⟨fun _ hready => hready.elim hzombie hstopped, true, h⟩
    obtain ⟨flag₁, hrest⟩ := hhead.2
    intro c hc
    rcases List.mem_cons.mp hc with rfl | hc
    · exact ⟨child, hchild, hhead.1⟩
    · exact ih hrest c hc

theorem waitLoop_stopped {tree : Tree} {gid : Int} {cps : List TaskRef} {flag : Bool}
    (h : waitLoop tree pid gid options cps flag = some (.stopped c)) :
    c ∈ cps ∧ ∃ child, tree.tasks c = some child ∧ child.state = .stopped := by
  induction cps generalizing flag with
  | nil => cases h
  | cons cp cps ih =>
    obtain ⟨child, hchild, h⟩ := Option.bind_eq_some_iff.mp h
    have hrest : ∀ {flag}, waitLoop tree pid gid options cps flag = some (.stopped c) →
        c ∈ cp :: cps ∧ ∃ child, tree.tasks c = some child ∧ child.state = .stopped := by
      intro flag h
      exact ⟨List.mem_cons_of_mem cp (ih h).1, (ih h).2⟩
    split at h
    · exact hrest h
    · split at h
      · rename_i hstopped
        cases h
        exact ⟨List.mem_cons_self, child, hchild, hstopped.1⟩
      · split at h
        · cases h
        · exact hrest h

theorem waitLoop_isSome {tree : Tree} (pid : Pid) (gid : Int) (options : Options)
    {cps : List TaskRef} (flag : Bool)
    (h : ∀ c ∈ cps, ∃ child, tree.tasks c = some child) :
    ∃ found, waitLoop tree pid gid options cps flag = some found := by
  induction cps generalizing flag with
  | nil => exact ⟨_, rfl⟩
  | cons cp cps ih =>
    obtain ⟨child, hchild⟩ := h cp List.mem_cons_self
    have hrest := fun flag => ih flag fun c hc => h c (List.mem_cons_of_mem cp hc)
    rw [waitLoop, hchild]
    simp only [Option.bind_eq_bind, Option.bind_some]
    split
    · exact hrest flag
    · split
      · exact ⟨_, rfl⟩
      · split
        · exact ⟨_, rfl⟩
        · exact hrest true

/-- The outcomes of `before_wait`. -/
inductive Entered (s : State) (t : TaskRef) (slave : Task) (pid : Pid) (options : Options) :
    State → Inside → Prop
  | passed : Entered s t slave pid options s .wait
  | stopped (child : TaskRef) (h : child ∈ slave.childp) :
      Entered s t slave pid options
        (s.change t fun slave =>
          { slave with nextCall := .isstopped, stoppedChild := some child }) .wait
  | other (next : NextCall) (h : next ≠ .isstopped) :
      Entered s t slave pid options (s.change t fun slave => { slave with nextCall := next }) .wait
  | suspended (h : ∀ c ∈ slave.childp, ∃ child, s.tasks c = some child ∧
      (accepts pid slave.gid child = true → ¬ Ready options child.state)) :
      Entered s t slave pid options
        (s.change t fun slave => { slave with restartCall := some (pid, options) }) .pause

theorem Entered.kept {inside : Inside} (h : Entered s t slave pid options s' inside) :
    s'.status = s.status ∧ s'.firstTask = s.firstTask := by
  cases h <;> exact ⟨rfl, rfl⟩

theorem Entered.procs {inside : Inside} (h : Entered s t slave pid options s' inside) :
    s'.procs = s.procs := by
  cases h <;> rfl

theorem beforeWait_entered {r : State × Inside} (h : beforeWait s t slave pid options = some r) :
    Entered s t slave pid options r.1 r.2 := by
  unfold beforeWait at h
  split at h
  · cases h
    exact .passed
  · obtain ⟨found, hfound, rfl⟩ := Option.map_eq_some_iff.mp h
    cases found with
    | stopped child =>
      exact .stopped child (waitLoop_stopped hfound).1
    | zombie => exact .other .iszombie (by simp)
    | unready flag =>
      have hunready : enterFound s t pid options (.unready flag) =
          if flag = false then (s, .wait)
          else if options &&& WNOHANG ≠ 0 then
            (s.change t fun slave => { slave with nextCall := .wnohang }, .wait)
          else (s.change t fun slave => { slave with restartCall := some (pid, options) }, .pause) :=
        rfl
      rw [hunready]
      split
      · exact .passed
      · split
        · exact .other .wnohang (by simp)
        · exact .suspended (waitLoop_unready hfound)

theorem beforeWait_isSome (s : State) (t : TaskRef) (pid : Pid) (options : Options)
    (h : ∀ c ∈ slave.childp, ∃ child, s.tasks c = some child) :
    ∃ r, beforeWait s t slave pid options = some r := by
  unfold beforeWait
  split
  · exact ⟨_, rfl⟩
  · obtain ⟨found, hfound⟩ := waitLoop_isSome pid slave.gid options false h
    exact ⟨_, by rw [hfound]; rfl⟩

-- ---------------------------------------------------------------------------
-- The start and the return from a call
-- ---------------------------------------------------------------------------

theorem start_listed {first : Pid} {gid : Int} (ht : Listed (start first gid).toTree t task) :
    t = 0 ∧ task = firstSlave first gid := by
  have ht0 : t = 0 := List.mem_singleton.mp ht.1
  subst ht0
  exact ⟨rfl, (Option.some.inj ht.2).symm⟩

theorem start_findSlave (first : Pid) (gid : Int) :
    findSlave (start first gid).toTree first = some 0 :=
  List.find?_cons_of_pos (beq_self_eq_true (some first))

theorem start_procs (first : Pid) (gid : Int) :
    (start first gid).procs first = some ⟨1, .alive, 0, .user, none, false⟩ := by
  simp [start]

theorem start_apart (first : Pid) (gid : Int) : Apart (start first gid).toTree [] := by
  -- the first task has no children
  have hchildp : ∀ t task, Listed (start first gid).toTree t task → task.childp = [] := by
    intro t task ht
    rw [(start_listed ht).2]
    rfl
  have hnone : ∀ {t task c}, Listed (start first gid).toTree t task → c ∉ task.childp := by
    intro t task c ht hc
    rw [hchildp t task ht] at hc
    exact List.not_mem_nil hc
  refine ⟨by simp [start], fun t ht => ?_, fun t task ht c hc => absurd hc (hnone ht),
    fun t task ht c hc => absurd hc (hnone ht), fun t task ht => ?_,
    fun t task ht _ _ _ c hc => absurd hc (hnone ht), fun _ _ _ c hc => absurd hc List.not_mem_nil,
    List.nodup_nil⟩
  · rw [List.mem_singleton.mp ht]
    exact Nat.zero_lt_one
  · rw [hchildp t task ht]
    exact List.nodup_nil

/-- What `handle_syscall` does if the call is not restarted. -/
theorem leaveCall_next (hcall : slave.restartCall = none)
    (h : leaveCall s t slave ret status = some s') :
    ∃ s₁, callNext s t slave ret status = some s₁ ∧
      ((s₁.status ≠ .running ∧ s' = s₁) ∨
        (s₁.status = .running ∧ (∃ task, s₁.tasks t = some task) ∧
          s' = s₁.change t fun slave => { slave with nextCall := .nothing })) := by
  unfold leaveCall at h
  rw [if_neg (by simp [hcall])] at h
  obtain ⟨s₁, hnext, h⟩ := Option.bind_eq_some_iff.mp h
  refine ⟨s₁, hnext, ?_⟩
  split at h
  · obtain ⟨task, htask, h⟩ := Option.bind_eq_some_iff.mp h
    exact Or.inr ⟨‹_›, ⟨task, htask⟩, (Option.some.inj h).symm⟩
  · exact Or.inl ⟨‹_›, (Option.some.inj h).symm⟩

end Wait

end Okfs
