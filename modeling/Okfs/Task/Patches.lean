import Okfs.Task.Memacc

/-!
# OKFS — memory that is replaced for the time of a call

Four calls replace memory of the tracee when it enters them: `fork` and `clone` put a
loop behind the call, to catch the child, and `open` and `creat` another path. The
handler that runs when the tracee leaves the call puts the memory back, and after a fork
that of the child too. `after_fork` does so only if there is a child: the loop stays
behind a fork that failed.

* `restored_iff` — the memory is put back after every call exactly if no fork fails.
-/

namespace Okfs

namespace Memacc

open ByteMemory

-- ---------------------------------------------------------------------------
-- control.c and vfs_open.c
-- ---------------------------------------------------------------------------

def CLONE_VM : Nat := 0x100
def CLONE_FS : Nat := 0x200
def CLONE_FILES : Nat := 0x400
def CLONE_SIGHAND : Nat := 0x800
def CLONE_VFORK : Nat := 0x4000
def CLONE_PARENT : Nat := 0x8000
def CLONE_SYSVSEM : Nat := 0x40000

/-- What comes of the path: `proc_path1` fails, or finds Linux responsible for the
canonical path, or a filesystem, from which `okfs_do_open` has its result. -/
inductive Resolved
  | failed
  | linux (canonPath : List Byte)
  | okfs (ret : Int)

/-- The calls, with what they read from the tracee. -/
inductive Call
  | fork
  | clone (cloneFlags stackStart : Nat)
  | «open» (path : List Byte) (resolved : Resolved)
  | creat (path : List Byte) (resolved : Resolved)

inductive Handler
  | returnSaved | afterFork | afterOkfsOpen | afterLinuxOpen

/-- again: `movl $29, %eax; int $0x80; jmp again; nop; nop; nop`. -/
def forkCode : List Word := [0x00001db8, 0xeb80cd00, 0x909090f7]

def codeBytes (code : List Word) (i : Nat) : Byte := byte (code.getD (i / WORDNBYTES) 0) (i % WORDNBYTES)

def beforeFork (slave : Slave) (eip : Nat) : Option Slave :=
  slaveRplMem slave eip (codeBytes forkCode) (forkCode.length * WORDNBYTES)

/-- `clone` must share nothing. -/
def cloneRefused (cloneFlags stackStart : Nat) : Bool :=
  cloneFlags &&& (CLONE_VM ||| CLONE_FS ||| CLONE_FILES ||| CLONE_SIGHAND ||| CLONE_VFORK |||
    CLONE_PARENT ||| CLONE_SYSVSEM) != 0 || stackStart != 0

/-- `okfs_before_open`, and `okfs_before_creat`, which leaves another call to the kernel. -/
def okfsBeforeOpen (tmpf : List Byte) (slave : Slave) (arg1 : Nat) (path : List Byte) :
    Resolved → Option (Slave × Handler)
  | .failed => some (slave, .returnSaved)
  | .okfs ret =>
    if ret < 0 then some (slave, .returnSaved)
    else (slaveRplKnownStr slave arg1 tmpf path).map (·, .afterOkfsOpen)
  | .linux canonPath => (slaveRplKnownStr slave arg1 canonPath path).map (·, .afterLinuxOpen)

/-- `call_before`, with the handler that it leaves in `next_call`. -/
def callBefore (tmpf : List Byte) (slave : Slave) (eip arg1 : Nat) : Call → Option (Slave × Handler)
  | .fork => (beforeFork slave eip).map (·, .afterFork)
  | .clone cloneFlags stackStart =>
    if cloneRefused cloneFlags stackStart then some (slave, .returnSaved)
    else (beforeFork slave eip).map (·, .afterFork)
  | .open path resolved | .creat path resolved => okfsBeforeOpen tmpf slave arg1 path resolved

/-- The child starts with the memory of the parent, and `add_slave` has it know what is
replaced there. -/
def afterFork (slave : Slave) (ret : Int) : Option (Slave × Option Slave) :=
  if ret < 0 then some (slave, none)
  else do
    let newChild := slave
    let slave ← slaveRestoreMem slave
    let newChild ← slaveRestoreMem newChild
    return (slave, some newChild)

/-- `next_call`, when the kernel has returned `ret`. -/
def callNext (slave : Slave) (ret : Int) : Handler → Option (Slave × Option Slave)
  | .returnSaved => some (slave, none)
  | .afterFork => afterFork slave ret
  | .afterOkfsOpen | .afterLinuxOpen => (slaveRestoreMem slave).map (·, none)

/-- A call of the task: the memory that it has made for itself, the registers that are
looked at, and the result of the kernel. -/
structure Event where
  mem : Mem
  eip : Nat
  arg1 : Nat
  call : Call
  ret : Int

def step (tmpf : List Byte) (slave : Slave) (e : Event) : Option (Slave × Option Slave) := do
  let (slave, next) ← callBefore tmpf { slave with mem := e.mem } e.eip e.arg1 e.call
  callNext slave e.ret next

/-- The path is the one that was read from the tracee. -/
def Admissible (e : Event) : Prop :=
  match e.call with
  | .open path _ | .creat path _ => HasString e.mem e.arg1 path
  | _ => True

-- ---------------------------------------------------------------------------
-- One call
-- ---------------------------------------------------------------------------

/-- The memory is what it was before the call, and nothing is replaced. -/
def Intact (m : Mem) (slave : Slave) : Prop := slave.mem = m ∧ slave.rplCode = none

/-- A fork that is left to the kernel. -/
def Event.forks (e : Event) : Prop :=
  match e.call with
  | .fork => True
  | .clone cloneFlags stackStart => cloneRefused cloneFlags stackStart = false
  | _ => False

variable {tmpf : List Byte} {slave slave' : Slave} {m : Mem} {e : Event}

theorem Replaced.restore_intact (h : Replaced m slave) :
    ∃ slave', slaveRestoreMem slave = some slave' ∧ Intact m slave' :=
  ⟨_, h.restore, rfl, rfl⟩

theorem Replaced.rplCode_ne_none (h : Replaced m slave) : slave.rplCode ≠ none := by
  obtain ⟨n, src, -, hcode⟩ := h.code
  rw [hcode]
  simp

/-- What a call leaves replaced its handler puts back. -/
inductive Entered (m : Mem) (slave : Slave) : Handler → Prop
  | nothing (h : Intact m slave) : Entered m slave .returnSaved
  | fork (h : Replaced m slave) : Entered m slave .afterFork
  | okfsOpen (h : Replaced m slave) : Entered m slave .afterOkfsOpen
  | linuxOpen (h : Replaced m slave) : Entered m slave .afterLinuxOpen

theorem okfsBeforeOpen_entered (h : slave.rplCode = none) {arg1 : Nat} {path : List Byte}
    (hstr : HasString slave.mem arg1 path) (resolved : Resolved) :
    ∃ slave' next, okfsBeforeOpen tmpf slave arg1 path resolved = some (slave', next) ∧
      Entered slave.mem slave' next ∧ next ≠ .afterFork := by
  cases resolved with
  | failed => exact ⟨slave, _, rfl, .nothing ⟨rfl, h⟩, by simp⟩
  | linux canonPath =>
    obtain ⟨slave', heq, hrpl⟩ := slaveRplKnownStr_replaced h hstr canonPath
    exact ⟨slave', _, by rw [okfsBeforeOpen, heq]; rfl, .linuxOpen hrpl, by simp⟩
  | okfs ret =>
    by_cases hneg : ret < 0
    · exact ⟨slave, _, if_pos hneg, .nothing ⟨rfl, h⟩, by simp⟩
    · obtain ⟨slave', heq, hrpl⟩ := slaveRplKnownStr_replaced h hstr tmpf
      exact ⟨slave', _, by rw [okfsBeforeOpen, if_neg hneg, heq]; rfl, .okfsOpen hrpl, by simp⟩

theorem beforeFork_entered (h : slave.rplCode = none) (eip : Nat) :
    ∃ slave', beforeFork slave eip = some slave' ∧ Replaced slave.mem slave' :=
  slaveRplMem_replaced h _ _ _

theorem callBefore_entered (tmpf : List Byte) (h : slave.rplCode = none) (hadm : Admissible e) :
    ∃ slave' next, callBefore tmpf { slave with mem := e.mem } e.eip e.arg1 e.call =
        some (slave', next) ∧
      Entered e.mem slave' next ∧ (next = .afterFork ↔ e.forks) := by
  obtain ⟨mem, eip, arg1, call, ret⟩ := e
  have h : { slave with mem := mem }.rplCode = none := h
  cases call with
  | fork =>
    obtain ⟨slave', heq, hrpl⟩ := beforeFork_entered h eip
    exact ⟨slave', _, by rw [callBefore, heq]; rfl, .fork hrpl, iff_of_true rfl trivial⟩
  | clone cloneFlags stackStart =>
    cases hrefused : cloneRefused cloneFlags stackStart with
    | true =>
      refine ⟨_, _, by rw [callBefore, if_pos hrefused], .nothing ⟨rfl, h⟩, ?_⟩
      simp [Event.forks, hrefused]
    | false =>
      obtain ⟨slave', heq, hrpl⟩ := beforeFork_entered h eip
      refine ⟨slave', _, ?_, .fork hrpl, iff_of_true rfl hrefused⟩
      rw [callBefore, if_neg (by rw [hrefused]; simp), heq]
      rfl
  | «open» path resolved | creat path resolved =>
    obtain ⟨slave', next, heq, hentered, hnext⟩ := okfsBeforeOpen_entered h hadm resolved
    exact ⟨slave', next, heq, hentered, iff_of_false hnext id⟩

/-- After the call the memory is as before, and nothing is replaced: in the child too. -/
def Restores (tmpf : List Byte) (slave : Slave) (e : Event) (slave' : Slave) : Prop :=
  ∃ child, step tmpf slave e = some (slave', child) ∧ Intact e.mem slave' ∧
    ∀ newChild, child = some newChild → Intact e.mem newChild

theorem step_restores (tmpf : List Byte) (h : slave.rplCode = none) (hadm : Admissible e)
    (hforks : e.forks → 0 ≤ e.ret) : ∃ slave', Restores tmpf slave e slave' := by
  obtain ⟨slave₁, next, heq, hentered, hnext⟩ := callBefore_entered tmpf h hadm
  have hstep : step tmpf slave e = callNext slave₁ e.ret next := by
    rw [step, heq]
    rfl
  cases hentered with
  | nothing hintact => exact ⟨slave₁, none, hstep, hintact, fun _ hc => by cases hc⟩
  | fork hrpl =>
    obtain ⟨slave', hrestore, hintact⟩ := hrpl.restore_intact
    have hret : ¬ e.ret < 0 := Int.not_lt.mpr (hforks (hnext.mp rfl))
    refine ⟨slave', some slave', hstep.trans ?_, hintact, fun _ hc => ?_⟩
    · rw [callNext, afterFork, if_neg hret]
      simp only [hrestore, Option.bind_eq_bind, Option.bind_some]
      rfl
    · obtain rfl := Option.some.inj hc
      exact hintact
  | okfsOpen hrpl | linuxOpen hrpl =>
    obtain ⟨slave', hrestore, hintact⟩ := hrpl.restore_intact
    refine ⟨slave', none, hstep.trans ?_, hintact, fun _ hc => by cases hc⟩
    rw [callNext, hrestore]
    rfl

/-- After a fork that fails the memory is not put back. -/
theorem step_forkFailed (h : slave.rplCode = none) (hadm : Admissible e) (hforks : e.forks)
    (hret : e.ret < 0) : ¬ Restores tmpf slave e slave' := by
  obtain ⟨slave₁, next, heq, hentered, hnext⟩ := callBefore_entered tmpf h hadm
  obtain rfl := hnext.mpr hforks
  rintro ⟨child, hstep, hintact, -⟩
  rw [step, heq] at hstep
  have hstep : afterFork slave₁ e.ret = some (slave', child) := hstep
  rw [afterFork, if_pos hret, Option.some.injEq, Prod.mk.injEq] at hstep
  cases hentered with
  | fork hrpl => exact hrpl.rplCode_ne_none (hstep.1 ▸ hintact.2)

-- ---------------------------------------------------------------------------
-- Sequences of calls
-- ---------------------------------------------------------------------------

/-- Every call of the sequence restores what it has replaced. -/
def AllRestore (tmpf : List Byte) : Slave → List Event → Prop
  | _, [] => True
  | slave, e :: es => ∃ slave', Restores tmpf slave e slave' ∧ AllRestore tmpf slave' es

/-- **Replaced memory is put back**, after every call of a sequence, and no call finds a
range that is still replaced, exactly if every fork that the kernel is left to execute
succeeds. -/
theorem restored_iff (h : slave.rplCode = none) {es : List Event} (hadm : ∀ e ∈ es, Admissible e) :
    AllRestore tmpf slave es ↔ ∀ e ∈ es, e.forks → 0 ≤ e.ret := by
  induction es generalizing slave with
  | nil => exact iff_of_true trivial fun _ he => absurd he List.not_mem_nil
  | cons e es ih =>
    have hadm₁ := hadm e List.mem_cons_self
    have hadm₂ : ∀ e' ∈ es, Admissible e' := fun e' he => hadm e' (List.mem_cons_of_mem e he)
    constructor
    · rintro ⟨slave', hrestores, hall⟩ e' he' hforks
      rcases List.mem_cons.mp he' with rfl | he'
      · by_contra hneg
        exact step_forkFailed h hadm₁ hforks (Int.not_le.mp hneg) hrestores
      · obtain ⟨child, -, hintact, -⟩ := hrestores
        exact (ih hintact.2 hadm₂).mp hall e' he' hforks
    · intro hforks
      obtain ⟨slave', hrestores⟩ := step_restores tmpf h hadm₁
        (hforks e List.mem_cons_self)
      refine ⟨slave', hrestores, ?_⟩
      obtain ⟨child, -, hintact, -⟩ := hrestores
      exact (ih hintact.2 hadm₂).mpr fun e' he' => hforks e' (List.mem_cons_of_mem e he')

/-- A task at the start, with the string `a` at 8. -/
def firstSlave : Slave := ⟨fun x => if x = 8 then 97 else 0, none, 0⟩

/-- Linux opens `a`, for which the canonical path is longer. -/
theorem restored_iff_linuxOpen :
    AllRestore [47] firstSlave
      [{ mem := firstSlave.mem, eip := 0, arg1 := 8, call := .open [97] (.linux [47, 97]), ret := 3 }] := by
  refine (restored_iff rfl fun e he => ?_).mpr fun e he hforks => ?_
  · obtain rfl := List.mem_singleton.mp he
    exact ⟨fun i hi => by obtain rfl : i = 0 := Nat.lt_one_iff.mp hi; rfl, rfl⟩
  · obtain rfl := List.mem_singleton.mp he
    exact hforks.elim

/-- A fork that fails with `EAGAIN` leaves the loop behind it, and the next one ends OKFS. -/
theorem not_restored_after_failed_fork :
    ¬ AllRestore [47] firstSlave
        [{ mem := firstSlave.mem, eip := 0, arg1 := 0, call := .fork, ret := -11 }] ∧
      ∃ slave', step [47] firstSlave
          { mem := firstSlave.mem, eip := 0, arg1 := 0, call := .fork, ret := -11 } = some (slave', none) ∧
        slave'.rplCode ≠ none ∧
        step [47] slave'
          { mem := slave'.mem, eip := 0, arg1 := 0, call := .fork, ret := 0 } = none := by
  refine ⟨?_, _, rfl, by simp, rfl⟩
  rintro ⟨slave', hrestores, -⟩
  refine step_forkFailed rfl ?_ ?_ ?_ hrestores
  · trivial
  · trivial
  · decide

end Memacc

end Okfs
