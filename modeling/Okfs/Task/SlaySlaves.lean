import Okfs.Task.WaitTree

/-!
# OKFS — the end of OKFS

However OKFS is left, by `exit` in a turn or by a signal between two of them, `slay_slaves` is called
and kills what the list of tasks has. The list has every process that has not been reported as ended
(`Linked.live`), so none survives OKFS; and the `exit(0)` of `remove_slave`, for an empty list, finds
none that could.

* `none_survive` — behind `slay_slaves` every process is a zombie;
* `exited_empty` — the list is empty where OKFS has ended with `exit(0)`.
-/

namespace Okfs

namespace Wait

open Signal

variable {s s' k : State} {tree : Tree} {t : TaskRef} {slave : Task} {p : Proc} {pid arg : Pid}
  {options : Options} {ret : Int} {status : Option Int} {e : Event}

/-- The pids that `slay_slaves` sends `SIGKILL` to, from the first task on. -/
def slaySlaves (s : Tree) : List Pid := s.firstTask.filterMap s.pidOf

/-- What the kernel makes of it. -/
def State.slain (s : State) : State :=
  { s with
    procs := fun q => (s.procs q).map fun p =>
      if (slaySlaves s.toTree).contains q then { p with phase := .zombie } else p }

-- ---------------------------------------------------------------------------
-- The empty list
-- ---------------------------------------------------------------------------

/-- OKFS ends with `exit(0)` only where the list is empty. -/
def ExitsEmpty (s : State) : Prop := s.status = .exited → s.firstTask = []

theorem exitsEmpty_of_ne (h : s.status ≠ .exited) : ExitsEmpty s := fun hexited => absurd hexited h

theorem exitsEmpty_removed (hrun : s.status = .running) (tree : Tree) :
    ExitsEmpty (s.removed tree) := by
  intro hexited
  by_contra hne
  have hkept : (s.removed tree).status = s.status := if_neg hne
  rw [hkept, hrun] at hexited
  cases hexited

theorem changeSlaveState_exitsEmpty {state : SlaveState} {st : Int} (hrun : s.status = .running)
    (h : changeSlaveState s t slave state st = some s') : ExitsEmpty s' := by
  have hrunning : ∀ k : State, k.status = .running → ExitsEmpty k := by
    intro k hk
    exact exitsEmpty_of_ne (by simp [hk])
  unfold changeSlaveState at h
  split at h
  · split at h
    · exact Option.some.inj h ▸ hrunning _ hrun
    · exact Option.some.inj h ▸ hrunning _ hrun
  · split at h
    · obtain ⟨tree, -, h⟩ := Option.bind_eq_some_iff.mp h
      exact Option.some.inj h ▸ exitsEmpty_removed (s := s.change t _) hrun tree
    · exact Option.some.inj h ▸ hrunning _ hrun

theorem processSignal_exitsEmpty {sig st : Int} (hrun : s.status = .running)
    (h : processSignal s t slave sig st = some s') : ExitsEmpty s' := by
  have hquit : ∀ k : State, ExitsEmpty k.quit := fun k => exitsEmpty_of_ne (by simp [State.quit])
  unfold processSignal at h
  split at h
  · exact Option.some.inj h ▸ exitsEmpty_of_ne (by simp [hrun])
  · exact Option.some.inj h ▸ exitsEmpty_of_ne (by simp [hrun])
  · unfold wakeupSlave at h
    split at h
    · exact changeSlaveState_exitsEmpty (s := s.change t _) hrun h
    · exact Option.some.inj h ▸ hquit s
  · unfold stopSlave at h
    split at h
    · exact Option.some.inj h ▸ hquit s
    · obtain ⟨k, hk, h⟩ := Option.bind_eq_some_iff.mp h
      split at h
      · exact Option.some.inj h ▸ hquit k
      · exact Option.some.inj h ▸ changeSlaveState_exitsEmpty (s := s.change t _) hrun hk

theorem iszombie_exitsEmpty (hrun : s.status = .running)
    (h : afterWaitIszombie s t ret = some s') : ExitsEmpty s' := by
  obtain ⟨tree, -, h⟩ := Option.bind_eq_some_iff.mp h
  obtain ⟨tree', -, h⟩ := Option.bind_eq_some_iff.mp h
  exact Option.some.inj h ▸ exitsEmpty_removed hrun tree'

theorem callNext_exitsEmpty (hrun : s.status = .running)
    (h : callNext s t slave ret status = some s') : ExitsEmpty s' := by
  have hrunning : ∀ k : State, k.status = .running → ExitsEmpty k := by
    intro k hk
    exact exitsEmpty_of_ne (by simp [hk])
  unfold callNext at h
  split at h
  · exact Option.some.inj h ▸ hrunning s hrun
  · unfold afterWaitWnohang at h
    split at h
    · obtain ⟨tree, -, h⟩ := Option.bind_eq_some_iff.mp h
      exact Option.some.inj h ▸ hrunning _ hrun
    · exact Option.some.inj h ▸ hrunning s hrun
  · exact iszombie_exitsEmpty hrun h
  · unfold afterWaitIsstopped at h
    split at h
    · exact Option.some.inj h ▸ exitsEmpty_of_ne (by simp [State.quit])
    · split at h
      · split at h
        · exact iszombie_exitsEmpty hrun h
        · exact Option.some.inj h ▸ hrunning s hrun
      · obtain ⟨child, -, h⟩ := Option.bind_eq_some_iff.mp h
        obtain ⟨task, -, h⟩ := Option.bind_eq_some_iff.mp h
        exact Option.some.inj h ▸ hrunning _ hrun

theorem leaveCall_exitsEmpty (hrun : s.status = .running)
    (h : leaveCall s t slave ret status = some s') : ExitsEmpty s' := by
  cases hcall : slave.restartCall with
  | some restart =>
    unfold leaveCall at h
    rw [if_pos (by simp [hcall])] at h
    exact Option.some.inj h ▸ exitsEmpty_of_ne (by simp [State.change, hrun])
  | none =>
    obtain ⟨s₁, hnext, hrest⟩ := leaveCall_next hcall h
    rcases hrest with ⟨-, rfl⟩ | ⟨hrunning, -, rfl⟩
    · exact callNext_exitsEmpty hrun hnext
    · exact exitsEmpty_of_ne (by simp [State.change, hrunning])

theorem turn_exitsEmpty {handle : TaskRef → Task → Option State}
    (hhandle : ∀ t slave s', handle t slave = some s' → ExitsEmpty s') :
    ExitsEmpty (turn s pid handle) := by
  rcases turn_cases s pid handle with ⟨-, heq⟩ | ⟨t, slave, -, -, -, heq⟩
  · rw [heq]
    exact exitsEmpty_of_ne (by simp [State.quit])
  · rw [heq]
    cases hres : handle t slave with
    | none => exact exitsEmpty_of_ne (by simp)
    | some s' => exact hhandle t slave s' hres

theorem kernel_status (h : kernel s e = some k) : k.status = s.status := by
  cases e with
  | dies pid =>
    obtain ⟨p, -, -, rfl⟩ := kernel_dies h
    rfl
  | reaped pid =>
    obtain ⟨p, -, -, rfl⟩ := kernel_reaped h
    rfl
  | answers pid child =>
    obtain ⟨p, c, -, -, -, -, -, -, -, rfl⟩ := kernel_answers h
    rfl
  | fork pid child =>
    obtain ⟨p, -, -, -, -, -, rfl⟩ := kernel_fork h
    rfl
  | waitEnter pid arg options =>
    obtain ⟨p, -, -, -, rfl⟩ := kernel_waitEnter h
    rfl
  | leave pid ret status =>
    obtain ⟨p, -, -, -, rfl⟩ := kernel_leave h
    rfl
  | signal pid sig st =>
    obtain ⟨p, -, -, -, rfl⟩ := kernel_signal h
    split
    · rfl
    · rfl
  | exit pid st =>
    obtain ⟨p, -, -, rfl⟩ := kernel_exit h
    rfl

/-- A step ends OKFS with `exit(0)` only by taking the last record off the list. -/
theorem exited_empty (h : Wait.step s e = some s') : ExitsEmpty s' := by
  obtain ⟨hrun, k, hk, rfl⟩ := step_spec h
  have hkrun : k.status = .running := (kernel_status hk).trans hrun
  have hkept : ExitsEmpty k := exitsEmpty_of_ne (by simp [hkrun])
  cases e with
  | dies pid => exact hkept
  | reaped pid => exact hkept
  | answers pid child => exact hkept
  | fork pid child =>
    refine turn_exitsEmpty fun t slave s' hs' => ?_
    exact Option.some.inj hs' ▸ exitsEmpty_of_ne (by simp [hkrun])
  | waitEnter pid arg options =>
    refine turn_exitsEmpty fun t slave s' hs' => ?_
    obtain ⟨r, hr, rfl⟩ := Option.map_eq_some_iff.mp hs'
    have hstatus : r.1.status = .running := (beforeWait_entered hr).kept.1.trans hkrun
    exact exitsEmpty_of_ne (by simp [State.changeProc, hstatus])
  | leave pid ret status =>
    exact turn_exitsEmpty fun t slave s' hs' => leaveCall_exitsEmpty hkrun hs'
  | signal pid sig st =>
    exact turn_exitsEmpty fun t slave s' hs' => processSignal_exitsEmpty hkrun hs'
  | exit pid st =>
    exact turn_exitsEmpty fun t slave s' hs' => changeSlaveState_exitsEmpty hkrun hs'

-- ---------------------------------------------------------------------------
-- The processes
-- ---------------------------------------------------------------------------

/-- What has a record is killed. -/
theorem Linked.mem_slaySlaves {busy : Option TaskRef} (h : Linked s busy)
    (hp : s.procs pid = some p) (hphase : p.phase ≠ .zombie) : pid ∈ slaySlaves s.toTree := by
  obtain ⟨hfind, -⟩ := h.live pid p hp hphase
  exact List.mem_filterMap.mpr ⟨p.task, findSlave_mem hfind, findSlave_pid hfind⟩

/-- **None survives.** In every state of a run in which forks return new pids, a call of
`slay_slaves` leaves no process but zombies; and where OKFS has ended with `exit(0)`, there were no
others before. -/
theorem none_survive {first : Pid} (hfirst : 1 < first) {gid : Int} {es : List Event}
    (hnew : Runs.Along Wait.step NewPid (start first gid) es)
    (hrun : Runs.exec Wait.step (start first gid) es = some s) :
    (∀ q p, s.slain.procs q = some p → p.phase = .zombie) ∧
      (s.status = .exited → ∀ q p, s.procs q = some p → p.phase = .zombie) := by
  have hinv : Linked s none ∧ ExitsEmpty s := by
    refine Runs.inv_of_exec (I := fun s => Linked s none ∧ ExitsEmpty s) ?_
      ⟨start_linked hfirst gid, exitsEmpty_of_ne (by simp [start])⟩ hnew hrun
    rintro s e s' ⟨h, -⟩ hnew hs'
    exact ⟨(h.step hs' hnew).1, exited_empty hs'⟩
  refine ⟨fun q p hp => ?_, fun hexited q p hp => ?_⟩
  · obtain ⟨p', hp', rfl⟩ := Option.map_eq_some_iff.mp hp
    by_cases hphase : p'.phase = .zombie
    · split
      · rfl
      · exact hphase
    · have hmem := hinv.1.mem_slaySlaves hp' hphase
      rw [if_pos (List.contains_iff_mem.mpr hmem)]
  · by_contra hphase
    have hmem := hinv.1.mem_slaySlaves hp hphase
    rw [slaySlaves, hinv.2 hexited] at hmem
    cases hmem

/-- A child that is alive and one that OKFS has not been told of. -/
theorem none_survive_fork :
    ∃ s, Runs.exec Wait.step (start 100 1) [.fork 100 101, .fork 100 102, .dies 102] = some s ∧
      slaySlaves s.toTree = [102, 101, 100] ∧
      ∀ q p, s.slain.procs q = some p → p.phase = .zombie := by
  have hnew : Runs.Along Wait.step NewPid (start 100 1) [.fork 100 101, .fork 100 102, .dies 102] := by
    refine ⟨fun t task ht hpid => ?_, fun s' hs' => ⟨fun t task ht hpid => ?_, fun _ _ =>
      ⟨trivial, fun _ _ => trivial⟩⟩⟩
    · rw [(start_listed ht).2] at hpid
      exact absurd hpid (by decide)
    · obtain rfl := Option.some.inj hs'
      have hlist : t ∈ [1, 0] := ht.1
      rcases List.mem_pair.mp hlist with rfl | rfl
      · obtain rfl : _ = task := Option.some.inj ht.2
        exact absurd hpid (by decide)
      · obtain rfl : _ = task := Option.some.inj ht.2
        exact absurd hpid (by decide)
  exact ⟨_, rfl, by decide, (none_survive (by decide) hnew rfl).1⟩

end Wait

end Okfs
