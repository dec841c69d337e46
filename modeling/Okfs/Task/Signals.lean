import Okfs.Lib.ByteMemory

/-!
# OKFS — signals

The signals of i386 that OKFS treats specially, the states of a task, and
`process_signal`: what OKFS does with a signal that is reported for a task, and which
signal it then passes on. What stopping, waking up and queueing do is modelled where
it is used.
-/

namespace Okfs

namespace Signal

open ByteMemory

-- ---------------------------------------------------------------------------
-- Signals
-- ---------------------------------------------------------------------------

/-- `_NSIG` of the kernel's headers. -/
def NSIG : Nat := 64

def SIGKILL : Int := 9
def SIGCHLD : Int := 17
def SIGCONT : Int := 18
def SIGSTOP : Int := 19
def SIGTSTP : Int := 20
def SIGTTIN : Int := 21
def SIGTTOU : Int := 22

/-- `SIGUNUSED`. -/
def SIGUNPAUSE : Int := 31

/-- Real-time signals are queued, not only marked as pending. -/
def SIGRTMIN : Int := 32

/-- `STOPPING_SIG`. -/
def stoppingSig (sig : Int) : Bool :=
  sig == SIGSTOP || sig == SIGTSTP || sig == SIGTTIN || sig == SIGTTOU

def validSig (sig : Int) : Bool := decide (1 ≤ sig ∧ sig ≤ NSIG)

def SIG_DFL : Word := 0
def SIG_IGN : Word := 1
def NOT_SIG_DFL : Word := SIG_DFL + 1

-- ---------------------------------------------------------------------------
-- The states of a task
-- ---------------------------------------------------------------------------

/-- `SLAVE_RUNNING`, `SLAVE_STOPPED`, `SLAVE_ZOMBIE` and `SLAVE_STOPPED_AND_NOTIFIED`. -/
inductive SlaveState
  | running | stopped | zombie | stoppedAndNotified
  deriving DecidableEq, Repr

/-- `STOPPED_TASK`. -/
def stoppedTask : SlaveState → Bool
  | .stopped | .stoppedAndNotified => true
  | .running | .zombie => false

-- ---------------------------------------------------------------------------
-- process_signal
-- ---------------------------------------------------------------------------

/-- What `process_signal` does with the signal: it calls `wakeup_slave`, `sigaddset` or
`stop_slave`, or nothing. -/
inductive SignalAction
  | nothing | wakeupSlave | sigaddset | stopSlave
  deriving DecidableEq, Repr

/-- The call that `process_signal` makes, and the signal that it returns. -/
def processSignal (state : SlaveState) (sighandler : Int → Word) (sig : Int) : SignalAction × Int :=
  if sig = SIGUNPAUSE then (.nothing, 0)
  else if stoppedTask state then
    if sig = SIGCONT then (.wakeupSlave, SIGCONT)
    -- a stopping signal is ignored, not queued
    else if stoppingSig sig then (.nothing, 0)
    else (.sigaddset, 0)
  else if stoppingSig sig && sighandler sig == SIG_DFL then (.stopSlave, sig)
  else (.nothing, sig)

variable {state : SlaveState} {sig : Int}

theorem processSignal_unpause (sighandler : Int → Word) :
    processSignal state sighandler SIGUNPAUSE = (.nothing, 0) :=
  if_pos rfl

theorem processSignal_cont (h : stoppedTask state = true) (sighandler : Int → Word) :
    processSignal state sighandler SIGCONT = (.wakeupSlave, SIGCONT) := by
  rw [processSignal, if_neg (by decide), if_pos h, if_pos rfl]

/-- While a task is stopped only `SIGCONT` is passed on. -/
theorem processSignal_stopped (h : stoppedTask state = true) (hcont : sig ≠ SIGCONT)
    (sighandler : Int → Word) :
    processSignal state sighandler sig =
      (if sig ≠ SIGUNPAUSE ∧ stoppingSig sig = false then .sigaddset else .nothing, 0) := by
  unfold processSignal
  by_cases hunpause : sig = SIGUNPAUSE
  · rw [if_pos hunpause, if_neg fun hc => hc.1 hunpause]
  · rw [if_neg hunpause, if_pos h, if_neg hcont]
    cases hstop : stoppingSig sig with
    | true => rw [if_pos rfl, if_neg (by simp)]
    | false => rw [if_neg Bool.false_ne_true, if_pos ⟨hunpause, rfl⟩]

theorem processSignal_running (h : stoppedTask state = false) (hunpause : sig ≠ SIGUNPAUSE)
    (sighandler : Int → Word) :
    processSignal state sighandler sig =
      (if stoppingSig sig = true ∧ sighandler sig = SIG_DFL then .stopSlave else .nothing, sig) := by
  unfold processSignal
  rw [if_neg hunpause, if_neg (by rw [h]; exact Bool.false_ne_true)]
  by_cases hstop : stoppingSig sig = true ∧ sighandler sig = SIG_DFL
  · rw [if_pos hstop, if_pos (by rw [hstop.1, hstop.2]; rfl)]
  · rw [if_neg hstop, if_neg (by simpa using hstop)]

end Signal

end Okfs
