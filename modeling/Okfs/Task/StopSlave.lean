import Okfs.Task.Registers
import Okfs.Task.TraceeMemory
import Mathlib.Logic.Relation

/-!
# OKFS — stopping a task and waking it up

A task that gets a stopping signal is stopped by OKFS: `stop_slave` writes a call of `pause`
into its code, and `wakeup_slave` puts the code back and sets the registers. Both go by the
record that OKFS has of the registers, which is read at the stops of system calls only. In
between the record is out of date: the call is written behind the last system call and not
where the task is, and that is also where the task goes on after `SIGCONT`. And where the
kernel makes an interrupted call again, the task is in that call before it comes to the
`pause`.

* `Asleep`            — what holds of a stopped task while it executes nothing but the `pause`.
* `Asleep.step`       — it is kept by whatever happens until `SIGCONT`.
* `stops_and_goes_iff` — a task is stopped and goes on as it was exactly if its parent has a
  record, its own record is up to date and no call is made again.

What the kernel does in a call other than `pause`, and the processor at an instruction that
is not of the injected code, is a parameter.
-/

namespace Okfs

namespace StopSlave

open ByteMemory Memacc Signal
open Syscall (Tracee UserRegs Memory Host Ending PAUSE_NR)

-- ---------------------------------------------------------------------------
-- okfs_signal.c
-- ---------------------------------------------------------------------------

/-- `movl $29, %eax; int $0x80; nop`. -/
def pauseCode : List Word := [0x00001db8, 0x9080cd00]

def sizeofCode : Nat := pauseCode.length * WORDNBYTES

/-- The registers that OKFS copies with the others and never looks at. -/
structure OtherRegs where
  ebp : Word
  eflags : Word
  xcs : Word
  xds : Word
  xes : Word
  xfs : Word
  xgs : Word
  xss : Word
  deriving DecidableEq

/-- Where a task is: stopped with a signal that is reported, at its own code, or stopped at the
entry or at the end of a system call. -/
inductive Place
  | reported | user | entry | exit
  deriving DecidableEq

/-- A task, its registers with the copies in `regs` and `save_regs`, its state, its parent, and
the tasks of `first_task`. -/
structure Watched (σ : Type) where
  tracee : Tracee σ
  others : OtherRegs
  cachedOthers : OtherRegs
  savedOthers : OtherRegs
  state : SlaveState
  place : Place
  ppid : Int
  firstTask : List Int

variable {σ : Type}

/-- OKFS ends where a task is looked for that has no record. -/
def findSlave (w : Watched σ) (pid : Int) : Except Ending Unit :=
  if pid ∈ w.firstTask then .ok () else .error .quit

/-- The code goes where the record says that the task is. The parent is looked for to be sent
`SIGCHLD`, which is left out. -/
def stopSlave (h : Host σ) (w : Watched σ) : Except Ending (Watched σ) := do
  let t ← Syscall.slaveRplMem h w.tracee w.tracee.slave.regs.eip (codeBytes pauseCode) sizeofCode
  findSlave w w.ppid
  return { w with
    tracee := { t with slave := { t.slave with saveRegs := t.slave.regs } }
    savedOthers := w.cachedOthers
    state := .stopped }

/-- The code is read once more, for an assertion. -/
def wakeupSlave (w : Watched σ) : Except Ending (Watched σ) := do
  let _ ← Syscall.slaveMemget w.tracee w.tracee.slave.saveRegs.eip sizeofCode
  let t ← Syscall.slaveRestoreMem w.tracee
  return { w with
    tracee := { t with regs := t.slave.saveRegs }
    others := w.savedOthers
    state := .running }

/-- `process_signal`, with the signal that it returns. Which signals wait in
`sigpending_mask` is left out: any can be reported next. -/
def processSignal (h : Host σ) (w : Watched σ) (sig : Int) : Except Ending (Watched σ × Int) :=
  let (action, ret) := Signal.processSignal w.state w.tracee.slave.sighandler sig
  match action with
  | .stopSlave => (stopSlave h w).map (·, ret)
  | .wakeupSlave => (wakeupSlave w).map (·, ret)
  | .sigaddset | .nothing => .ok (w, ret)

/-- `handle_syscall`. All registers are read, and those that are saved when a file of OKFS is
opened are saved as a whole. -/
def handleSyscall (h : Host σ) (fakeroot : Bool) (w : Watched σ) : Except Ending (Watched σ) := do
  let (tracee, _) ← Syscall.handleSyscall h fakeroot w.tracee
  let saves : Bool := tracee.slave.nextCall = some .okfsAfterOkfsOpen
  return { w with
    tracee
    cachedOthers := w.others
    savedOthers := if saves then w.others else w.savedOthers }

-- ---------------------------------------------------------------------------
-- The kernel and the processor
-- ---------------------------------------------------------------------------

/-- What a task goes on with. -/
structure Context where
  regs : UserRegs
  others : OtherRegs
  mem : Memory

def Watched.context (w : Watched σ) : Context := ⟨w.tracee.regs, w.others, w.tracee.mem⟩

def Watched.withRegs (w : Watched σ) (regs : UserRegs) : Watched σ :=
  { w with tracee := { w.tracee with regs } }

def Watched.withContext (w : Watched σ) (c : Context) : Watched σ :=
  { w with tracee := { w.tracee with regs := c.regs, mem := c.mem }, others := c.others }

/-- What can come of a system call, but for `pause`, and of an instruction. -/
structure Machine where
  call : Context → Context → Prop
  instr : Context → Context → Prop

def ERESTARTNOINTR : Int := 513
def ERESTARTNOHAND : Int := 514
def ERESTART_RESTARTBLOCK : Int := 516

/-- The system call is not done, and the kernel makes it again if no handler is called. -/
def Again (r : UserRegs) : Prop :=
  0 ≤ r.origEax.toInt ∧
    (r.eax.toInt = -Syscall.ERESTARTSYS ∨ r.eax.toInt = -ERESTARTNOINTR ∨
      r.eax.toInt = -ERESTARTNOHAND ∨ r.eax.toInt = -ERESTART_RESTARTBLOCK)

instance (r : UserRegs) : Decidable (Again r) := inferInstanceAs (Decidable (_ ∧ _))

/-- The registers with which a task leaves the kernel: a call that is made again is that of the
two bytes in front of it. -/
def restarted (r : UserRegs) : UserRegs :=
  if Again r then
    let nr := if r.eax.toInt = -ERESTART_RESTARTBLOCK then 0 else r.origEax
    { r with eax := nr, eip := r.eip - 2 }
  else r

/-- `movl` of a constant to `eax`. -/
def movlEax (m : Mem) (eip : Word) : Option Word :=
  if m eip.toNat = 0xb8 then some (peek m (eip.toNat + 1)) else none

/-- `int $0x80`. -/
def isInt80 (m : Mem) (eip : Word) : Bool := m eip.toNat = 0xcd ∧ m (eip.toNat + 1) = 0x80

/-- A signal is reported: one more, when a call is over, or while the task is at its own code.
Then the number of the call is negative. -/
inductive Reports (w : Watched σ) : Watched σ → Prop
  | again (hplace : w.place = .reported) : Reports w w
  | left (hplace : w.place = .exit) : Reports w { w with place := .reported }
  | interrupted (nr : Word) (hplace : w.place = .user) (hnr : nr.toInt < 0) :
      Reports w { w.withRegs { w.tracee.regs with origEax := nr } with place := .reported }

/-- At the entry of a system call. -/
def Watched.traps (w : Watched σ) : Watched σ :=
  let r := w.tracee.regs
  { w.withRegs { r with
      origEax := r.eax, eax := BitVec.ofInt 32 (-Errno.ENOSYS.code), eip := r.eip + 2 } with
    place := .entry }

/-- At the end of a `pause`, which only a signal ends. -/
def Watched.interrupted (w : Watched σ) : Watched σ :=
  { w.withRegs { w.tracee.regs with eax := BitVec.ofInt 32 (-ERESTARTNOHAND) } with place := .exit }

/-- What happens next, up to the next time that OKFS lets the task go on, unless OKFS ends. No
handler is called: of the signals only the first one is passed on, which has its default action. -/
inductive Next (h : Host σ) (fakeroot : Bool) (k : Machine) (w : Watched σ) :
    Except Ending (Watched σ) → Prop
  | signal (w₁ : Watched σ) (sig : Int) (hreports : Reports w w₁) (hcont : sig ≠ SIGCONT) :
      Next h fakeroot k w ((processSignal h w₁ sig).map Prod.fst)
  | toUser (hplace : w.place = .reported ∨ w.place = .exit) :
      Next h fakeroot k w (.ok { w.withRegs (restarted w.tracee.regs) with place := .user })
  | movl (v : Word) (hplace : w.place = .user)
      (hmovl : movlEax w.tracee.mem.bytes w.tracee.regs.eip = some v) :
      Next h fakeroot k w
        (.ok (w.withRegs { w.tracee.regs with eax := v, eip := w.tracee.regs.eip + 5 }))
  | int80 (hplace : w.place = .user) (hint : isInt80 w.tracee.mem.bytes w.tracee.regs.eip = true) :
      Next h fakeroot k w (handleSyscall h fakeroot w.traps)
  | pause (hplace : w.place = .entry) (hnr : w.tracee.regs.origEax = PAUSE_NR) :
      Next h fakeroot k w (handleSyscall h fakeroot w.interrupted)
  | call (c : Context) (hplace : w.place = .entry) (hnr : w.tracee.regs.origEax ≠ PAUSE_NR)
      (hcall : k.call w.context c) :
      Next h fakeroot k w (handleSyscall h fakeroot { w.withContext c with place := .exit })
  | instr (c : Context) (hplace : w.place = .user)
      (hmovl : movlEax w.tracee.mem.bytes w.tracee.regs.eip = none)
      (hint : isInt80 w.tracee.mem.bytes w.tracee.regs.eip = false)
      (hinstr : k.instr w.context c) :
      Next h fakeroot k w (.ok (w.withContext c))
  /-- The parent is told that the task is stopped. -/
  | notified (hstate : w.state = .stopped) :
      Next h fakeroot k w (.ok { w with state := .stoppedAndNotified })

/-- One step that OKFS survives. -/
def Step (h : Host σ) (fakeroot : Bool) (k : Machine) (w w' : Watched σ) : Prop :=
  Next h fakeroot k w (.ok w')

-- ---------------------------------------------------------------------------
-- The property, and when it holds
-- ---------------------------------------------------------------------------

/-- The task is about to execute an instruction of the code at `e`, or it is in `pause`. -/
def OnlyPauses (e : Word) (w : Watched σ) : Prop :=
  match w.place with
  | .user =>
    let r := w.tracee.regs
    (r.eip = e ∧ movlEax w.tracee.mem.bytes r.eip = some PAUSE_NR) ∨
      (r.eip = e + 5 ∧ isInt80 w.tracee.mem.bytes r.eip = true ∧ r.eax = PAUSE_NR)
  | .entry => w.tracee.regs.origEax = PAUSE_NR
  | .reported | .exit => True

/-- The signal stops the task, which executes nothing but `pause` then, whatever is reported for
it, and goes on after `SIGCONT` with what it had when it was stopped. -/
def StopsAndGoes (h : Host σ) (fakeroot : Bool) (k : Machine) (w : Watched σ) (sig : Int) : Prop :=
  ∃ w₁, processSignal h w sig = .ok (w₁, sig) ∧
    ∀ w₂, Relation.ReflTransGen (Step h fakeroot k) w₁ w₂ →
      OnlyPauses w.tracee.slave.regs.eip w₂ ∧
      (∀ r, Next h fakeroot k w₂ r → ∃ w₃, r = .ok w₃) ∧
      ∀ w₃, Reports w₂ w₃ →
        ∃ w₄, processSignal h w₃ SIGCONT = .ok (w₄, SIGCONT) ∧ w₄.state = .running ∧
          w₄.context = w.context

/-- `ptrace` can read and write the two words. -/
structure Accessible (m : Memory) (a : Nat) : Prop where
  readable : m.readable a = true ∧ m.readable (a + WORDNBYTES) = true
  writable : m.writable a = true ∧ m.writable (a + WORDNBYTES) = true

/-- There is nothing replaced yet, and room and access for the code. -/
structure Replaceable (h : Host σ) (w : Watched σ) : Prop where
  free : w.tracee.slave.rplCode = none
  room : h.malloc w.tracee.world sizeofCode = true
  code : Accessible w.tracee.mem w.tracee.slave.regs.eip.toNat

/-- The parent has a record, that of the task is up to date, no call is made again, and the code
can be replaced. -/
structure Stoppable (h : Host σ) (w : Watched σ) : Prop extends Replaceable h w where
  parent : w.ppid ∈ w.firstTask
  regs : w.tracee.slave.regs = w.tracee.regs
  others : w.cachedOthers = w.others
  done : ¬ Again w.tracee.regs

variable {h : Host σ} {fakeroot : Bool} {k : Machine} {w w₀ w₁ : Watched σ} {m : Memory} {a : Nat}
  {e : Word} {sig : Int}

-- ---------------------------------------------------------------------------
-- Two words of memory
-- ---------------------------------------------------------------------------

theorem peek_eq_ok_iff {v : Word} :
    m.peek a = .ok v ↔ m.readable a = true ∧ v = ByteMemory.peek m.bytes a := by
  unfold Memory.peek
  by_cases hread : m.readable a = true
  · rw [if_pos hread, Except.ok.injEq]
    exact ⟨fun heq => ⟨hread, heq.symm⟩, fun heq => heq.2.symm⟩
  · rw [if_neg hread]
    exact iff_of_false (by simp) fun heq => hread heq.1

theorem poke_eq_ok_iff {v : Word} {m' : Memory} :
    m.poke a v = .ok m' ↔
      m.writable a = true ∧ m' = { m with bytes := ByteMemory.poke m.bytes a v } := by
  unfold Memory.poke
  by_cases hwrite : m.writable a = true
  · rw [if_pos hwrite, Except.ok.injEq]
    exact ⟨fun heq => ⟨hwrite, heq.symm⟩, fun heq => heq.2.symm⟩
  · rw [if_neg hwrite]
    exact iff_of_false (by simp) fun heq => hwrite heq.1

/-- The bytes of the two words. -/
def codeAt (m : Memory) (a : Nat) : List ByteMemory.Byte :=
  (List.range sizeofCode).map fun i => m.bytes (a + i)

theorem get_eq_ok_iff {code : List ByteMemory.Byte} :
    m.get a sizeofCode = .ok code ↔
      (m.readable a = true ∧ m.readable (a + WORDNBYTES) = true) ∧ code = codeAt m a := by
  have hcode : codeAt m a = Memacc.slaveMemget m.bytes a sizeofCode := (slaveMemget_eq ..).symm
  rw [hcode]
  constructor
  · intro hget
    obtain ⟨v, hpeek, hrest⟩ := Syscall.bind_ok.mp hget
    obtain ⟨rest, hget₁, hlast⟩ := Syscall.bind_ok.mp hrest
    obtain ⟨v₁, hpeek₁, hrest₁⟩ := Syscall.bind_ok.mp hget₁
    obtain ⟨rest₁, hget₂, hlast₁⟩ := Syscall.bind_ok.mp hrest₁
    obtain rfl := Except.ok.inj hget₂
    obtain rfl := Except.ok.inj hlast₁
    obtain rfl := Except.ok.inj hlast
    obtain ⟨hread, rfl⟩ := peek_eq_ok_iff.mp hpeek
    obtain ⟨hread₁, rfl⟩ := peek_eq_ok_iff.mp hpeek₁
    exact ⟨⟨hread, hread₁⟩, rfl⟩
  · rintro ⟨⟨hread, hread₁⟩, rfl⟩
    refine Syscall.bind_ok.mpr ⟨_, peek_eq_ok_iff.mpr ⟨hread, rfl⟩, ?_⟩
    refine Syscall.bind_ok.mpr ⟨_, ?_, rfl⟩
    exact Syscall.bind_ok.mpr ⟨_, peek_eq_ok_iff.mpr ⟨hread₁, rfl⟩, rfl⟩

theorem set_eq_ok_iff {src : Nat → ByteMemory.Byte} {m' : Memory} :
    m.set a src sizeofCode = .ok m' ↔
      (m.writable a = true ∧ m.writable (a + WORDNBYTES) = true) ∧
        m' = { m with bytes := overwrite m.bytes a sizeofCode src } := by
  constructor
  · intro hset
    refine ⟨?_, Syscall.set_spec hset⟩
    obtain ⟨m₁, hpoke, hrest⟩ := Syscall.bind_ok.mp hset
    obtain ⟨hwrite, rfl⟩ := poke_eq_ok_iff.mp hpoke
    obtain ⟨m₂, hpoke₁, -⟩ := Syscall.bind_ok.mp hrest
    exact ⟨hwrite, (poke_eq_ok_iff.mp hpoke₁).1⟩
  · rintro ⟨⟨hwrite, hwrite₁⟩, rfl⟩
    have hset : m.set a src sizeofCode = .ok { m with
        bytes := ByteMemory.poke (ByteMemory.poke m.bytes a (ofBytes src)) (a + WORDNBYTES)
          (ofBytes fun i => src (WORDNBYTES + i)) } := by
      refine Syscall.bind_ok.mpr ⟨_, poke_eq_ok_iff.mpr ⟨hwrite, rfl⟩, ?_⟩
      exact Syscall.bind_ok.mpr ⟨_, poke_eq_ok_iff.mpr ⟨hwrite₁, rfl⟩, rfl⟩
    exact hset.trans (congrArg _ (Syscall.set_spec hset))

-- ---------------------------------------------------------------------------
-- Stopping and waking up
-- ---------------------------------------------------------------------------

/-- The code is written, and what was there is remembered. -/
def withCode (t : Tracee σ) : Tracee σ :=
  let e := t.slave.regs.eip.toNat
  { t with
    mem := { t.mem with bytes := overwrite t.mem.bytes e sizeofCode (codeBytes pauseCode) }
    slave := { t.slave with rplCode := some (codeAt t.mem e), rplDest := e } }

/-- What `stop_slave` makes of a task. -/
def stopped (w : Watched σ) : Watched σ :=
  let t := withCode w.tracee
  { w with
    tracee := { t with slave := { t.slave with saveRegs := t.slave.regs } }
    savedOthers := w.cachedOthers
    state := .stopped }

theorem findSlave_eq_ok_iff {pid : Int} : findSlave w pid = .ok () ↔ pid ∈ w.firstTask := by
  unfold findSlave
  by_cases hpid : pid ∈ w.firstTask
  · rw [if_pos hpid]
    exact iff_of_true rfl hpid
  · rw [if_neg hpid]
    exact iff_of_false (by simp) hpid

theorem stopSlave_eq_ok_iff :
    stopSlave h w = .ok w₁ ↔ Replaceable h w ∧ w.ppid ∈ w.firstTask ∧ w₁ = stopped w := by
  constructor
  · intro hstop
    obtain ⟨t, hrpl, hrest⟩ := Syscall.bind_ok.mp hstop
    obtain ⟨u, hparent, hlast⟩ := Syscall.bind_ok.mp hrest
    obtain rfl := Except.ok.inj hlast
    unfold Syscall.slaveRplMem at hrpl
    split at hrpl
    · cases hrpl
    · rename_i hfree
      obtain ⟨u, hmalloc, hrest⟩ := Syscall.bind_ok.mp hrpl
      obtain ⟨code, hget, hrest⟩ := Syscall.bind_ok.mp hrest
      obtain ⟨t₁, hset, hlast⟩ := Syscall.bind_ok.mp hrest
      obtain ⟨mem, hmem, hlast₁⟩ := Syscall.bind_ok.mp hset
      obtain rfl := Except.ok.inj hlast₁
      obtain rfl := Except.ok.inj hlast
      obtain ⟨hread, rfl⟩ := get_eq_ok_iff.mp hget
      obtain ⟨hwrite, rfl⟩ := set_eq_ok_iff.mp hmem
      refine ⟨⟨by simpa using hfree, ?_, ⟨hread, hwrite⟩⟩, findSlave_eq_ok_iff.mp hparent, rfl⟩
      unfold Syscall.malloc at hmalloc
      by_contra hroom
      rw [if_neg hroom] at hmalloc
      cases hmalloc
  · rintro ⟨⟨hfree, hroom, hcode⟩, hparent, rfl⟩
    refine Syscall.bind_ok.mpr ⟨withCode w.tracee, ?_,
      Syscall.bind_ok.mpr ⟨(), findSlave_eq_ok_iff.mpr hparent, rfl⟩⟩
    unfold Syscall.slaveRplMem
    rw [if_neg (by rw [hfree]; simp)]
    refine Syscall.bind_ok.mpr ⟨(), if_pos hroom, ?_⟩
    refine Syscall.bind_ok.mpr ⟨_, get_eq_ok_iff.mpr ⟨hcode.readable, rfl⟩, ?_⟩
    refine Syscall.bind_ok.mpr ⟨{ w.tracee with mem := (withCode w.tracee).mem }, ?_, rfl⟩
    exact Syscall.bind_ok.mpr ⟨_, set_eq_ok_iff.mpr ⟨hcode.writable, rfl⟩, rfl⟩

-- ---------------------------------------------------------------------------
-- The injected code
-- ---------------------------------------------------------------------------

theorem code_bytes (bytes : Mem) (a : Nat) {i : Nat} (hi : i < sizeofCode) :
    overwrite bytes a sizeofCode (codeBytes pauseCode) (a + i) = codeBytes pauseCode i := by
  rw [overwrite_inside (by omega) (by omega), Nat.add_sub_cancel_left]

theorem toNat_add {n : Nat} (hspace : e.toNat + sizeofCode ≤ Syscall.TASK_SIZE) (hn : n < sizeofCode) :
    (e + BitVec.ofNat 32 n).toNat = e.toNat + n := by
  have hsize : sizeofCode = 8 := rfl
  have htask : Syscall.TASK_SIZE = 2 ^ 32 := rfl
  rw [BitVec.toNat_add, BitVec.toNat_ofNat]
  omega

/-- The first instruction is the `movl`, -/
theorem movlEax_code (bytes : Mem) (e : Word) :
    movlEax (overwrite bytes e.toNat sizeofCode (codeBytes pauseCode)) e = some PAUSE_NR := by
  have hbyte : ∀ i < sizeofCode,
      overwrite bytes e.toNat sizeofCode (codeBytes pauseCode) (e.toNat + i) =
        codeBytes pauseCode i := fun i hi => code_bytes bytes e.toNat hi
  have hsize : sizeofCode = 8 := rfl
  have hfirst := hbyte 0 (by omega)
  rw [Nat.add_zero] at hfirst
  unfold movlEax
  rw [if_pos (by rw [hfirst]; decide), peek]
  refine congrArg some (word_ext fun i hi => ?_)
  rw [byte_ofBytes _ hi, Nat.add_assoc, hbyte (1 + i) (by omega)]
  obtain rfl | rfl | rfl | rfl : i = 0 ∨ i = 1 ∨ i = 2 ∨ i = 3 := by omega
  all_goals decide

theorem isInt80_first (bytes : Mem) (e : Word) :
    isInt80 (overwrite bytes e.toNat sizeofCode (codeBytes pauseCode)) e = false := by
  have hfirst := code_bytes bytes e.toNat (show 0 < sizeofCode by decide)
  rw [Nat.add_zero] at hfirst
  have hne : codeBytes pauseCode 0 ≠ 0xcd := by decide
  unfold isInt80
  rw [hfirst, decide_eq_false_iff_not]
  exact fun hint => hne hint.1

/-- and the second one the `int`. -/
theorem isInt80_code (bytes : Mem) (hspace : e.toNat + sizeofCode ≤ Syscall.TASK_SIZE) :
    isInt80 (overwrite bytes e.toNat sizeofCode (codeBytes pauseCode)) (e + 5) = true := by
  have haddr : (e + 5).toNat = e.toNat + 5 := toNat_add hspace (show 5 < sizeofCode by decide)
  have hfirst := code_bytes bytes e.toNat (show 5 < sizeofCode by decide)
  have hsecond := code_bytes bytes e.toNat (show 6 < sizeofCode by decide)
  unfold isInt80
  rw [haddr, Nat.add_assoc, hfirst, hsecond]
  decide

theorem movlEax_second (bytes : Mem) (hspace : e.toNat + sizeofCode ≤ Syscall.TASK_SIZE) :
    movlEax (overwrite bytes e.toNat sizeofCode (codeBytes pauseCode)) (e + 5) = none := by
  have haddr : (e + 5).toNat = e.toNat + 5 := toNat_add hspace (show 5 < sizeofCode by decide)
  have hfirst := code_bytes bytes e.toNat (show 5 < sizeofCode by decide)
  unfold movlEax
  rw [haddr, hfirst, if_neg (by decide)]

-- ---------------------------------------------------------------------------
-- The stops of `pause`
-- ---------------------------------------------------------------------------

variable {t : Tracee σ}

/-- The registers and the arguments of `pause` are read. -/
def fetched (t : Tracee σ) : Tracee σ :=
  let r := t.regs
  { t with
    slave := { t.slave with
      regs := r
      arg := ⟨r.ebx, r.ecx, r.edx, r.esi, r.edi, t.slave.arg.arg6⟩
      hasStackArgs := false } }

theorem fetch_pause (hnr : t.regs.origEax = PAUSE_NR) :
    Syscall.fetch fakeroot t = .ok (fetched t) := by
  have hrow : (Syscall.callTable fakeroot (Syscall.argsRow PAUSE_NR.toInt)).hasStackArgs = false := rfl
  unfold Syscall.fetch
  rw [hnr, hrow]
  rfl

/-- Nothing is done when `pause` is entered, -/
theorem handleSyscall_enterPause (h : Host σ) (fakeroot : Bool) (hidle : t.slave.duringCall = 0)
    (hnr : t.regs.origEax = PAUSE_NR) :
    ∃ regs arg hasStackArgs, Syscall.handleSyscall h fakeroot t =
      .ok ({ t with slave := { t.slave with
        regs, arg, hasStackArgs, duringCall := PAUSE_NR.toInt, nextCall := none } }, none) := by
  refine ⟨t.regs, (fetched t).slave.arg, false, ?_⟩
  refine Syscall.bind_ok.mpr ⟨_, fetch_pause hnr, ?_⟩
  have hidle' : (fetched t).slave.duringCall = 0 := hidle
  have hnr' : (fetched t).slave.regs.origEax = PAUSE_NR := hnr
  rw [if_pos hidle']
  refine Syscall.bind_ok.mpr ⟨_, ?_, rfl⟩
  unfold Syscall.enter
  rw [hnr']
  rfl

/-- and when it is left. -/
theorem handleSyscall_leavePause (h : Host σ) (fakeroot : Bool)
    (hcall : t.slave.duringCall = PAUSE_NR.toInt) (hnext : t.slave.nextCall = none)
    (hrestart : t.slave.restartCall = 0)
    (hnr : t.regs.origEax = PAUSE_NR) :
    ∃ regs arg hasStackArgs, Syscall.handleSyscall h fakeroot t =
      .ok ({ t with slave := { t.slave with
        regs, arg, hasStackArgs, duringCall := 0, nextCall := none } }, none) := by
  refine ⟨{ t.regs with origEax := BitVec.ofInt 32 t.slave.duringCall }, (fetched t).slave.arg, false, ?_⟩
  refine Syscall.bind_ok.mpr ⟨_, fetch_pause hnr, ?_⟩
  have hcall' : ¬ (fetched t).slave.duringCall = 0 := by
    intro hzero
    have hzero : t.slave.duringCall = 0 := hzero
    rw [hcall] at hzero
    exact absurd hzero (by decide)
  have hrestart' : ¬ (Syscall.leaving (fetched t)).slave.restartCall ≠ 0 := not_not.mpr hrestart
  have hnext' : (Syscall.leaving (fetched t)).slave.nextCall = none := hnext
  have hcomplete : Syscall.complete h (Syscall.leaving (fetched t)) =
      .ok (Syscall.leaving (fetched t), none) := by
    unfold Syscall.complete
    rw [if_neg hrestart', hnext']
  rw [if_neg hcall']
  exact Syscall.bind_ok.mpr ⟨_, hcomplete, rfl⟩

-- ---------------------------------------------------------------------------
-- A task that is asleep
-- ---------------------------------------------------------------------------

/-- The task goes on at one of the two instructions. -/
def Resumes (e : Word) (r : UserRegs) : Prop := r.eip = e ∨ (r.eip = e + 5 ∧ r.eax = PAUSE_NR)

/-- The registers at each place; a `pause` that was interrupted is made again. -/
def Rests (e : Word) (w : Watched σ) : Prop :=
  match w.place with
  | .reported | .exit => w.tracee.slave.duringCall = 0 ∧ Resumes e (restarted w.tracee.regs)
  | .user => w.tracee.slave.duringCall = 0 ∧ Resumes e w.tracee.regs
  | .entry =>
    w.tracee.slave.duringCall = PAUSE_NR.toInt ∧ w.tracee.regs.origEax = PAUSE_NR ∧
      w.tracee.regs.eip = e + 5 + 2

/-- The task of `w₀` is stopped, and has done nothing but to pause. -/
structure Asleep (w₀ w : Watched σ) : Prop where
  saved : w.tracee.slave.saveRegs = w₀.tracee.regs
  savedOthers : w.savedOthers = w₀.others
  state : stoppedTask w.state = true
  code : w.tracee.slave.rplCode = some (codeAt w₀.tracee.mem w₀.tracee.regs.eip.toNat)
  dest : w.tracee.slave.rplDest = w₀.tracee.regs.eip.toNat
  mem : w.tracee.mem =
    { w₀.tracee.mem with
      bytes := overwrite w₀.tracee.mem.bytes w₀.tracee.regs.eip.toNat sizeofCode (codeBytes pauseCode) }
  next : w.tracee.slave.nextCall = none
  restart : w.tracee.slave.restartCall = 0
  rests : Rests w₀.tracee.regs.eip w

theorem restarted_of_done {r : UserRegs} (hdone : ¬ Again r) : restarted r = r := if_neg hdone

theorem stopped_asleep (hstop : Stoppable h w) (hplace : w.place = .reported)
    (hidle : w.tracee.slave.duringCall = 0) (hnext : w.tracee.slave.nextCall = none)
    (hrestart : w.tracee.slave.restartCall = 0) : Asleep w (stopped w) := by
  have heip : w.tracee.slave.regs.eip = w.tracee.regs.eip := congrArg UserRegs.eip hstop.regs
  refine ⟨hstop.regs, hstop.others, rfl, ?_, ?_, ?_, hnext, hrestart, ?_⟩
  · rw [← heip]
    rfl
  · rw [← heip]
    rfl
  · rw [← heip]
    rfl
  · have hplace' : (stopped w).place = .reported := hplace
    unfold Rests
    rw [hplace']
    refine ⟨hidle, .inl ?_⟩
    exact congrArg UserRegs.eip (restarted_of_done hstop.done)

/-- Where it is at its own code, it executes the injected one. -/
theorem Asleep.onlyPauses (hasleep : Asleep w₀ w)
    (hspace : w₀.tracee.regs.eip.toNat + sizeofCode ≤ Syscall.TASK_SIZE) :
    OnlyPauses w₀.tracee.regs.eip w := by
  have hrests := hasleep.rests
  unfold OnlyPauses
  unfold Rests at hrests
  cases hplace : w.place with
  | reported => trivial
  | exit => trivial
  | entry =>
    rw [hplace] at hrests
    exact hrests.2.1
  | user =>
    rw [hplace] at hrests
    simp only [hasleep.mem]
    rcases hrests.2 with heip | ⟨heip, heax⟩
    · refine .inl ⟨heip, ?_⟩
      rw [heip]
      exact movlEax_code ..
    · refine .inr ⟨heip, ?_, heax⟩
      rw [heip]
      exact isInt80_code _ hspace

/-- Reports come with registers that the task resumes from. -/
theorem Asleep.reports (hasleep : Asleep w₀ w) (hreports : Reports w w₁) : Asleep w₀ w₁ := by
  obtain ⟨hsaved, hothers, hstate, hcode, hdest, hmem, hnext, hrestart, hrests⟩ := hasleep
  unfold Rests at hrests
  cases hreports with
  | again hplace => exact ⟨hsaved, hothers, hstate, hcode, hdest, hmem, hnext, hrestart, hrests⟩
  | left hplace =>
    rw [hplace] at hrests
    exact ⟨hsaved, hothers, hstate, hcode, hdest, hmem, hnext, hrestart, hrests⟩
  | interrupted nr hplace hnr =>
    rw [hplace] at hrests
    refine ⟨hsaved, hothers, hstate, hcode, hdest, hmem, hnext, hrestart, hrests.1, ?_⟩
    have hdone : ¬ Again { w.tracee.regs with origEax := nr } := fun hagain =>
      absurd hagain.1 (Int.not_le.mpr hnr)
    show Resumes _ (restarted { w.tracee.regs with origEax := nr })
    rw [restarted_of_done hdone]
    exact hrests.2

/-- No signal but `SIGCONT` does anything. -/
theorem processSignal_asleep (hstate : stoppedTask w.state = true) (hcont : sig ≠ SIGCONT) :
    processSignal h w sig = .ok (w, 0) := by
  unfold processSignal
  rw [Signal.processSignal_stopped hstate hcont]
  by_cases hqueue : sig ≠ SIGUNPAUSE ∧ stoppingSig sig = false
  · rw [if_pos hqueue]
  · rw [if_neg hqueue]

/-- What `wakeup_slave` makes of it. -/
def awakened (w₀ w : Watched σ) : Watched σ :=
  { w with
    tracee := { w.tracee with
      mem := w₀.tracee.mem, slave := { w.tracee.slave with rplCode := none }
      regs := w.tracee.slave.saveRegs }
    others := w.savedOthers
    state := .running }

/-- The code is put back, and the registers are set. -/
theorem Asleep.wakes (hasleep : Asleep w₀ w)
    (hcode : Accessible w₀.tracee.mem w₀.tracee.regs.eip.toNat) :
    ∃ w₄, processSignal h w SIGCONT = .ok (w₄, SIGCONT) ∧ w₄.state = .running ∧
      w₄.context = w₀.context := by
  have heip : w.tracee.slave.saveRegs.eip = w₀.tracee.regs.eip := congrArg UserRegs.eip hasleep.saved
  have hread : Syscall.slaveMemget w.tracee w.tracee.slave.saveRegs.eip sizeofCode =
      .ok (codeAt w.tracee.mem w₀.tracee.regs.eip.toNat) := by
    rw [heip]
    refine get_eq_ok_iff.mpr ⟨?_, rfl⟩
    rw [hasleep.mem]
    exact hcode.readable
  have hbytes : ∀ i < sizeofCode,
      (codeAt w₀.tracee.mem w₀.tracee.regs.eip.toNat).getD i 0 =
        w₀.tracee.mem.bytes (w₀.tracee.regs.eip.toNat + i) := by
    intro i hi
    rw [codeAt, List.getD_eq_getElem?_getD, List.getElem?_map, List.getElem?_range hi]
    rfl
  have hset : w.tracee.mem.set w.tracee.slave.rplDest
      (fun i => (codeAt w₀.tracee.mem w₀.tracee.regs.eip.toNat).getD i 0) sizeofCode =
        .ok w₀.tracee.mem := by
    rw [hasleep.dest, hasleep.mem]
    refine set_eq_ok_iff.mpr ⟨hcode.writable, ?_⟩
    simp only [overwrite_congr hbytes, overwrite_restore]
  have hrestore : Syscall.slaveRestoreMem w.tracee =
      .ok { w.tracee with
        mem := w₀.tracee.mem, slave := { w.tracee.slave with rplCode := none } } := by
    unfold Syscall.slaveRestoreMem
    rw [hasleep.code]
    exact Syscall.bind_ok.mpr ⟨_, hset, rfl⟩
  have hwake : wakeupSlave w = .ok (awakened w₀ w) :=
    Syscall.bind_ok.mpr ⟨_, hread, Syscall.bind_ok.mpr ⟨_, hrestore, rfl⟩⟩
  refine ⟨awakened w₀ w, ?_, rfl, ?_⟩
  · unfold processSignal
    rw [Signal.processSignal_cont hasleep.state]
    exact congrArg (Except.map (·, SIGCONT)) hwake
  · show Context.mk w.tracee.slave.saveRegs w.savedOthers w₀.tracee.mem = _
    rw [hasleep.saved, hasleep.savedOthers]
    rfl

/-- The entry and the end of a call, if no file of OKFS is opened. -/
theorem handleSyscall_of {t' : Tracee σ} {child : Option (Tracee σ)}
    (hs' : Syscall.handleSyscall h fakeroot w.tracee = .ok (t', child))
    (hnext : t'.slave.nextCall = none) :
    handleSyscall h fakeroot w = .ok { w with tracee := t', cachedOthers := w.others } := by
  refine Syscall.bind_ok.mpr ⟨(t', child), hs', ?_⟩
  simp only [hnext, reduceCtorEq, decide_false, Bool.false_eq_true, if_false]
  rfl

/-- An interrupted `pause` is made again. -/
theorem restarted_pause {r : UserRegs} (hnr : r.origEax = PAUSE_NR) :
    restarted { r with eax := BitVec.ofInt 32 (-ERESTARTNOHAND) } =
      { r with eax := PAUSE_NR, eip := r.eip - 2 } := by
  have hcode : (BitVec.ofInt 32 (-ERESTARTNOHAND)).toInt = -ERESTARTNOHAND := by decide
  have hcall : 0 ≤ r.origEax.toInt := by
    rw [hnr]
    decide
  have hagain : Again { r with eax := BitVec.ofInt 32 (-ERESTARTNOHAND) } :=
    ⟨hcall, .inr (.inr (.inl hcode))⟩
  unfold restarted
  rw [if_pos hagain, hnr]
  rfl

/-- Whatever happens to the task, OKFS survives it and the task stays asleep. -/
theorem Asleep.step (hasleep : Asleep w₀ w)
    (hspace : w₀.tracee.regs.eip.toNat + sizeofCode ≤ Syscall.TASK_SIZE)
    {r : Except Ending (Watched σ)} (hnext : Next h fakeroot k w r) :
    ∃ w', r = .ok w' ∧ Asleep w₀ w' := by
  have honly := hasleep.onlyPauses hspace
  have hrests := hasleep.rests
  unfold OnlyPauses at honly
  unfold Rests at hrests
  have hkept := hasleep
  obtain ⟨hsaved, hothers, hstate, hcode, hdest, hmem, hnone, hrestart, -⟩ := hkept
  cases hnext with
  | signal w₁ sig hreports hcont =>
    have hasleep₁ := hasleep.reports hreports
    rw [processSignal_asleep hasleep₁.state hcont]
    exact ⟨w₁, rfl, hasleep₁⟩
  | toUser hplace =>
    refine ⟨_, rfl, hsaved, hothers, hstate, hcode, hdest, hmem, hnone, hrestart, ?_⟩
    rcases hplace with hplace | hplace
    · rw [hplace] at hrests
      exact hrests
    · rw [hplace] at hrests
      exact hrests
  | movl v hplace hmovl =>
    rw [hplace] at honly hrests
    refine ⟨_, rfl, hsaved, hothers, hstate, hcode, hdest, hmem, hnone, hrestart, ?_⟩
    unfold Rests
    have hplace' : (w.withRegs { w.tracee.regs with
      eax := v, eip := w.tracee.regs.eip + 5 }).place = .user := hplace
    rw [hplace']
    refine ⟨hrests.1, .inr ?_⟩
    rcases honly with ⟨heip, hcode⟩ | ⟨heip, -, -⟩
    · rw [hmovl] at hcode
      exact ⟨congrArg (· + 5) heip, Option.some.inj hcode⟩
    · rw [hmem, heip, movlEax_second _ hspace] at hmovl
      cases hmovl
  | int80 hplace hint =>
    rw [hplace] at honly hrests
    rcases honly with ⟨heip, -⟩ | ⟨heip, -, heax⟩
    · rw [hmem, heip, isInt80_first] at hint
      cases hint
    · have hidle : w.traps.tracee.slave.duringCall = 0 := hrests.1
      have hnr : w.traps.tracee.regs.origEax = PAUSE_NR := heax
      obtain ⟨regs, arg, hasStackArgs, hs'⟩ := handleSyscall_enterPause h fakeroot hidle hnr
      rw [handleSyscall_of hs' rfl]
      refine ⟨_, rfl, hsaved, hothers, hstate, hcode, hdest, hmem, rfl, hrestart, rfl, heax, ?_⟩
      exact congrArg (· + 2) heip
  | pause hplace hnr =>
    rw [hplace] at hrests
    have hcall : w.interrupted.tracee.slave.duringCall = PAUSE_NR.toInt := hrests.1
    obtain ⟨regs, arg, hasStackArgs, hs'⟩ :=
      handleSyscall_leavePause h fakeroot hcall hnone hrestart hnr
    rw [handleSyscall_of hs' rfl]
    refine ⟨_, rfl, hsaved, hothers, hstate, hcode, hdest, hmem, rfl, hrestart, rfl, ?_⟩
    show Resumes _ (restarted { w.tracee.regs with eax := BitVec.ofInt 32 (-ERESTARTNOHAND) })
    rw [restarted_pause hnr]
    refine .inr ⟨?_, rfl⟩
    show w.tracee.regs.eip - 2 = _
    rw [hrests.2.2, BitVec.add_sub_cancel]
  | call c hplace hnr hcall =>
    rw [hplace] at honly
    exact absurd honly hnr
  | instr c hplace hmovl hint hinstr =>
    rw [hplace] at honly
    rcases honly with ⟨-, hcode⟩ | ⟨-, hcode, -⟩
    · rw [hmovl] at hcode
      cases hcode
    · rw [hint] at hcode
      cases hcode
  | notified hstopped =>
    exact ⟨_, rfl, hsaved, hothers, rfl, hcode, hdest, hmem, hnone, hrestart, hrests⟩

-- ---------------------------------------------------------------------------
-- Runs
-- ---------------------------------------------------------------------------

theorem Asleep.run (hasleep : Asleep w₀ w)
    (hspace : w₀.tracee.regs.eip.toNat + sizeofCode ≤ Syscall.TASK_SIZE)
    (hrun : Relation.ReflTransGen (Step h fakeroot k) w w₁) : Asleep w₀ w₁ := by
  induction hrun with
  | refl => exact hasleep
  | tail _ hstep ih =>
    obtain ⟨w', heq, hasleep'⟩ := ih.step hspace hstep
    obtain rfl := Except.ok.inj heq
    exact hasleep'

theorem processSignal_stops (hstate : w.state = .running) (hsig : stoppingSig sig = true)
    (hdfl : w.tracee.slave.sighandler sig = SIG_DFL) :
    processSignal h w sig = (stopSlave h w).map (·, sig) := by
  have hunpause : sig ≠ SIGUNPAUSE := by
    rintro rfl
    exact absurd hsig (by decide)
  unfold processSignal
  rw [Signal.processSignal_running (by rw [hstate]; rfl) hunpause, if_pos ⟨hsig, hdfl⟩]

theorem wakeupSlave_context {w' : Watched σ} (hwake : wakeupSlave w = .ok w') :
    w'.tracee.regs = w.tracee.slave.saveRegs ∧ w'.others = w.savedOthers := by
  obtain ⟨code, -, hrest⟩ := Syscall.bind_ok.mp hwake
  obtain ⟨t, hrestore, hlast⟩ := Syscall.bind_ok.mp hrest
  obtain rfl := Except.ok.inj hlast
  obtain ⟨mem, rfl⟩ := Syscall.slaveRestoreMem_spec hrestore
  exact ⟨rfl, rfl⟩

/-- A call that is made again is not at the injected code. -/
theorem restarted_eip {r : UserRegs} (hagain : Again r) :
    (restarted r).eip ≠ r.eip ∧ (restarted r).eip ≠ r.eip + 5 := by
  unfold restarted
  rw [if_pos hagain]
  constructor
  · show r.eip - 2 ≠ r.eip
    bv_omega
  · show r.eip - 2 ≠ r.eip + 5
    bv_omega

/-- The signal is followed by `SIGCONT` at once, or by the kernel, which makes the call again. -/
theorem StopsAndGoes.stoppable (hstops : StopsAndGoes h fakeroot k w sig)
    (hplace : w.place = .reported) (hstate : w.state = .running) (hsig : stoppingSig sig = true)
    (hdfl : w.tracee.slave.sighandler sig = SIG_DFL) : Stoppable h w := by
  obtain ⟨w₁, hproc, hall⟩ := hstops
  rw [processSignal_stops hstate hsig hdfl] at hproc
  cases hstop : stopSlave h w with
  | error e =>
    rw [hstop] at hproc
    cases hproc
  | ok w₁' =>
    rw [hstop] at hproc
    obtain ⟨rfl, -⟩ := Prod.mk.inj (Except.ok.inj hproc)
    obtain ⟨hreplaceable, hparent, rfl⟩ := stopSlave_eq_ok_iff.mp hstop
    obtain ⟨-, -, hwakes⟩ := hall _ .refl
    obtain ⟨w₄, hcont, -, hcontext⟩ := hwakes _ (.again hplace)
    unfold processSignal at hcont
    rw [Signal.processSignal_cont rfl] at hcont
    cases hwake : wakeupSlave (stopped w) with
    | error e =>
      simp only [hwake] at hcont
      cases hcont
    | ok w' =>
      simp only [hwake] at hcont
      obtain ⟨rfl, -⟩ := Prod.mk.inj (Except.ok.inj hcont)
      obtain ⟨hregs, hothers⟩ := wakeupSlave_context hwake
      have hsame : w.tracee.slave.regs = w.tracee.regs :=
        hregs.symm.trans (congrArg Context.regs hcontext)
      refine ⟨hreplaceable, hparent, hsame, hothers.symm.trans (congrArg Context.others hcontext), ?_⟩
      intro hagain
      have hstep : Step h fakeroot k (stopped w)
          { (stopped w).withRegs (restarted w.tracee.regs) with place := .user } :=
        .toUser (.inl hplace)
      obtain ⟨honly, -, -⟩ := hall _ (.single hstep)
      have heip : w.tracee.slave.regs.eip = w.tracee.regs.eip := congrArg UserRegs.eip hsame
      obtain ⟨hfirst, hsecond⟩ := restarted_eip hagain
      rw [heip] at honly
      rcases honly with ⟨hat, -⟩ | ⟨hat, -⟩
      · exact hfirst hat
      · exact hsecond hat

/-- **Stopping and waking up.** A task for which a stopping signal is reported is stopped, executes
only the injected `pause` and goes on with the registers and the memory that it had, for whatever
is reported in between, exactly if the record has its registers, the call that it has left is not
to be made again, and its code can be replaced. -/
theorem stops_and_goes_iff {s : Tracee σ} (hreached : Syscall.Reached h fakeroot s)
    (hmeanwhile : Syscall.Meanwhile s w.tracee) (hidle : w.tracee.slave.duringCall = 0)
    (hspace : ∀ a, w.tracee.mem.readable a = true → a + WORDNBYTES ≤ Syscall.TASK_SIZE)
    (hplace : w.place = .reported) (hstate : w.state = .running) (hsig : stoppingSig sig = true)
    (hdfl : w.tracee.slave.sighandler sig = SIG_DFL) :
    StopsAndGoes h fakeroot k w sig ↔ Stoppable h w := by
  refine ⟨fun hstops => hstops.stoppable hplace hstate hsig hdfl, fun hstop => ?_⟩
  have hready := (hreached.ready (hmeanwhile.duringCall.symm.trans hidle)).meanwhile hmeanwhile
  have hrestart := (hready.scratch.idle hready.duringCall).2
  have heip : w.tracee.slave.regs.eip = w.tracee.regs.eip := congrArg UserRegs.eip hstop.regs
  have hcode := hstop.code
  rw [heip] at hcode
  have hroom : w.tracee.regs.eip.toNat + sizeofCode ≤ Syscall.TASK_SIZE := hspace _ hcode.readable.2
  have hasleep := stopped_asleep hstop hplace hidle hready.nextCall hrestart
  refine ⟨stopped w, ?_, fun w₂ hrun => ?_⟩
  · rw [processSignal_stops hstate hsig hdfl, stopSlave_eq_ok_iff.mpr
      ⟨hstop.toReplaceable, hstop.parent, rfl⟩]
    rfl
  · have hasleep₂ := hasleep.run hroom hrun
    refine ⟨?_, fun r hnext => ?_, fun w₃ hreports => ?_⟩
    · rw [heip]
      exact hasleep₂.onlyPauses hroom
    · obtain ⟨w', heq, -⟩ := hasleep₂.step hroom hnext
      exact ⟨w', heq⟩
    · exact (hasleep₂.reports hreports).wakes hcode

/-- OKFS handles a stop of the task, with these registers: its record, and that of a child. -/
def handled (t : Tracee Unit) (regs : UserRegs) : Tracee Unit × Option (Tracee Unit) :=
  match Syscall.handleSyscall Syscall.bareHost false { t with regs } with
  | .ok r => r
  | .error _ => (t, none)

def firstSlave : Tracee Unit :=
  { Syscall.bareTracee (Syscall.callRegs 2 0 0 0) with
    mem := ⟨fun _ => 0, fun a => a + WORDNBYTES ≤ Syscall.TASK_SIZE, fun _ => true⟩ }

/-- The first task has forked. -/
def forkedSlave : Tracee Unit :=
  (handled (handled firstSlave (Syscall.callRegs 2 0 0 0)).1
    { Syscall.callRegs 2 0 0 0 with eax := 101 }).2.getD firstSlave

/-- The child has called `kill` with its own pid. -/
def killedSlave : Tracee Unit :=
  (handled (handled forkedSlave (Syscall.callRegs 37 101 20 0)).1 (Syscall.callRegs 37 101 20 0)).1

theorem killedSlave_reached : Syscall.Reached Syscall.bareHost false killedSlave := by
  have hfirst : Syscall.Reached Syscall.bareHost false firstSlave :=
    .start firstSlave ⟨rfl, rfl, rfl, rfl, rfl⟩
  have henters := hfirst.stop _ { firstSlave with regs := Syscall.callRegs 2 0 0 0 }
    (handled firstSlave (Syscall.callRegs 2 0 0 0)).1 _ ⟨rfl, rfl, rfl, rfl, rfl⟩ rfl
  have hforked : Syscall.Reached Syscall.bareHost false forkedSlave :=
    .child _ { (handled firstSlave (Syscall.callRegs 2 0 0 0)).1 with
      regs := { Syscall.callRegs 2 0 0 0 with eax := 101 } } _ _ henters ⟨rfl, rfl, rfl, rfl, rfl⟩ rfl
  have hcalls := hforked.stop _ { forkedSlave with regs := Syscall.callRegs 37 101 20 0 }
    (handled forkedSlave (Syscall.callRegs 37 101 20 0)).1 _ ⟨rfl, rfl, rfl, rfl, rfl⟩ rfl
  exact hcalls.stop _ { (handled forkedSlave (Syscall.callRegs 37 101 20 0)).1 with
    regs := Syscall.callRegs 37 101 20 0 } _ _ ⟨rfl, rfl, rfl, rfl, rfl⟩ rfl

/-- The child with these registers; in a call and at an instruction anything can happen to it. -/
def watchedSlave (regs : UserRegs) : Watched Unit where
  tracee := { killedSlave with regs }
  others := ⟨0, 0, 0, 0, 0, 0, 0, 0⟩
  cachedOthers := ⟨0, 0, 0, 0, 0, 0, 0, 0⟩
  savedOthers := ⟨0, 0, 0, 0, 0, 0, 0, 0⟩
  state := .running
  place := .reported
  ppid := 100
  firstTask := [101, 100]

def anyMachine : Machine := ⟨fun _ _ => True, fun _ _ => True⟩

/-- `kill` of itself with `SIGTSTP` has returned 0. -/
theorem stops_and_goes_kill :
    StopsAndGoes Syscall.bareHost false anyMachine
      (watchedSlave (Syscall.callRegs 37 101 20 0)) SIGTSTP := by
  refine (stops_and_goes_iff killedSlave_reached ⟨rfl, rfl, rfl, rfl, rfl⟩ rfl
    (fun a ha => of_decide_eq_true ha) rfl rfl rfl rfl).mpr ?_
  exact ⟨⟨rfl, rfl, ⟨⟨rfl, rfl⟩, ⟨rfl, rfl⟩⟩⟩, by decide, rfl, rfl, by decide⟩

/-- One that has gone on from 0 to 64 after its last call. -/
theorem not_stops_and_goes :
    ¬ StopsAndGoes Syscall.bareHost false anyMachine
      (watchedSlave { Syscall.callRegs 37 101 20 0 with eip := 64 }) SIGTSTP := by
  intro hstops
  have hstop := hstops.stoppable rfl rfl rfl rfl
  exact absurd (congrArg UserRegs.eip hstop.regs) (by decide)

end StopSlave

end Okfs
