import Okfs.Task.Wait

/-!
# OKFS — the tree of tasks

The two lists that OKFS keeps of its tasks belong together: `first_task` has a record of every
task, and `childp` of a record has the children that wait can return. `Linked` says so of a
state of a run, and what makes it so: the process of every task that runs is the one that is
found by its pid, the children that the kernel knows of are in the list of their parent, and
so is a child that wait has reaped, until OKFS handles the return from the call.

It holds in every run in which a fork returns no pid that a child on record still has
(`NewPid`). If besides every wait for which `before_wait` has found a zombie returns a pid
(`ZombieReturned`), no list is read past its end.
-/

namespace Okfs

namespace Wait

open ByteMemory Signal

variable {s s' k : State} {tree tree' : Tree} {t u c r : TaskRef} {slave task child owner : Task}
  {p p' pp : Proc} {q pid arg : Pid} {options : Options} {ret : Int} {status : Option Int}
  {e : Event} {f : Task → Task} {busy : Option TaskRef}

-- ---------------------------------------------------------------------------
-- What links the records and the processes
-- ---------------------------------------------------------------------------

/-- The child that a wait call has reaped is still on record. -/
structure Answers (s : State) (p : Proc) (c : Pid) (r : TaskRef) : Prop where
  inside : p.inside = .wait
  reaped : s.procs c = none
  pid : s.pidOf r = some c
  owned : ∃ owner, Listed s.toTree p.task owner ∧ r ∈ owner.childp

/-- The child that `before_wait` has found to be stopped is one of the list. -/
def Noted (task : Task) : Prop :=
  task.nextCall = .isstopped → ∃ c ∈ task.childp, task.stoppedChild = some c

/-- `busy` is the task whose return from a call is handled. -/
structure Linked (s : State) (busy : Option TaskRef) : Prop where
  apart : Apart s.toTree []
  whole : Whole s.toTree []
  pidPos : ∀ t task, Listed s.toTree t task → 1 < task.pid
  older : ∀ t task, Listed s.toTree t task → ∀ c ∈ task.childp, t < c
  noted : ∀ t task, Listed s.toTree t task → busy ≠ some t → Noted task
  zombies : ∀ t task, Listed s.toTree t task → task.state = .zombie → s.ended t = true
  fresh : ∀ t, s.ended t = true ∨ s.returned t = true → t < s.nextTask
  live : ∀ q p, s.procs q = some p → p.phase ≠ .zombie →
    findSlave s.toTree q = some p.task ∧ s.ended p.task = false
  family : ∀ q p, s.procs q = some p → p.parent ≠ 1 →
    ∃ pp owner, s.procs p.parent = some pp ∧ pp.phase = .alive ∧ Listed s.toTree pp.task owner ∧
      p.task ∈ owner.childp ∧ s.pidOf p.task = some q
  answered : ∀ q p, s.procs q = some p → p.phase = .alive → ∀ c r, p.answer = some (c, r) →
    Answers s p c r

theorem Linked.weaken (h : Linked s none) (busy : Option TaskRef) : Linked s busy :=
  { h with noted := fun t task ht _ => h.noted t task ht (by simp) }

theorem Linked.withStatus (h : Linked s busy) (status : Status) : Linked { s with status } busy :=
  { h with
    answered := fun q p hp halive c r hans => by
      obtain ⟨hinside, hreaped, hpid, howned⟩ := h.answered q p hp halive c r hans
      exact ⟨hinside, hreaped, hpid, howned⟩ }

theorem Linked.pid_lt (h : Linked s busy) (hp : s.procs q = some p) (hphase : p.phase ≠ .zombie) :
    ∃ task, Listed s.toTree p.task task ∧ task.pid = q ∧ 1 < q := by
  obtain ⟨hfind, -⟩ := h.live q p hp hphase
  obtain ⟨task, htask, hpid⟩ := findSlave_task hfind
  have ht : Listed s.toTree p.task task := ⟨findSlave_mem hfind, htask⟩
  exact ⟨task, ht, hpid, hpid ▸ h.pidPos _ task ht⟩

/-- A running task is no child that wait has reaped. -/
theorem Linked.live_ne (h : Linked s busy) (hp : s.procs q = some p) (hphase : p.phase ≠ .zombie)
    (hpid : s.pidOf r = some pid) (hnone : s.procs pid = none) : p.task ≠ r := by
  rintro rfl
  obtain ⟨hfind, -⟩ := h.live q p hp hphase
  rw [findSlave_pid hfind] at hpid
  obtain rfl := Option.some.inj hpid
  rw [hp] at hnone
  cases hnone

-- ---------------------------------------------------------------------------
-- Changes of the processes
-- ---------------------------------------------------------------------------

/-- What may become of a process: it dies, and loses its parent or the answer. -/
structure Fares (s s' : State) (p p' : Proc) : Prop where
  task : p'.task = p.task
  phase : p'.phase ≠ .zombie → p.phase ≠ .zombie
  alive : p'.phase = .alive → p.phase = .alive
  answer : p'.answer = none ∨ (p'.answer = p.answer ∧ p'.inside = p.inside)
  parent : p'.parent ≠ 1 → p'.parent = p.parent ∧
    ∀ pp, s.procs p.parent = some pp → pp.phase = .alive →
      ∃ pp', s'.procs p.parent = some pp' ∧ pp'.phase = .alive ∧ pp'.task = pp.task

theorem Linked.procs (h : Linked s busy) (htree : s'.toTree = s.toTree)
    (hnone : ∀ q, s.procs q = none → s'.procs q = none)
    (hfares : ∀ q p', s'.procs q = some p' → ∃ p, s.procs q = some p ∧ Fares s s' p p')
    (hlive : ∀ q p', s'.procs q = some p' → p'.phase ≠ .zombie → s'.ended p'.task = false)
    (hended : ∀ t, s.ended t = true → s'.ended t = true)
    (hfresh : ∀ t, s'.ended t = true ∨ s'.returned t = true → t < s.nextTask) : Linked s' busy := by
  refine ⟨htree ▸ h.apart, htree ▸ h.whole, htree ▸ h.pidPos, htree ▸ h.older, htree ▸ h.noted,
    fun t task ht hz => ?_, htree ▸ hfresh, fun q p' hp' hphase => ?_, fun q p' hp' hparent => ?_,
    fun q p' hp' halive c r hans => ?_⟩
  · rw [htree] at ht
    exact hended t (h.zombies t task ht hz)
  · obtain ⟨p, hp, hf⟩ := hfares q p' hp'
    obtain ⟨hfind, -⟩ := h.live q p hp (hf.phase hphase)
    rw [htree, hf.task]
    exact ⟨hfind, hf.task ▸ hlive q p' hp' hphase⟩
  · obtain ⟨p, hp, hf⟩ := hfares q p' hp'
    obtain ⟨hsame, hpp⟩ := hf.parent hparent
    obtain ⟨pp, owner, hpp₀, halive, howner, hmem, hpid⟩ := h.family q p hp (hsame ▸ hparent)
    obtain ⟨pp', hpp', halive', htask'⟩ := hpp pp hpp₀ halive
    rw [htree, hf.task, hsame]
    exact ⟨pp', owner, hpp', halive', htask' ▸ howner, hmem, hpid⟩
  · obtain ⟨p, hp, hf⟩ := hfares q p' hp'
    rcases hf.answer with hno | ⟨hsame, hinside⟩
    · rw [hno] at hans
      cases hans
    · obtain ⟨hwait, hreaped, hpid, howned⟩ := h.answered q p hp (hf.alive halive) c r (hsame ▸ hans)
      refine ⟨hinside.trans hwait, hnone c hreaped, ?_, ?_⟩
      · rw [htree]
        exact hpid
      · rw [htree, hf.task]
        exact howned

/-- A change of one process that is none of its phase and its parent. -/
theorem Linked.changeProc (h : Linked s busy) {f : Proc → Proc} (pid : Pid)
    (hf : ∀ p, (f p).task = p.task ∧ (f p).phase = p.phase ∧ (f p).parent = p.parent ∧
      ((f p).answer = none ∨ ((f p).answer = p.answer ∧ (f p).inside = p.inside)))
    (hended : s'.ended = s.ended) (htree : s'.toTree = s.toTree)
    (hprocs : s'.procs = (s.changeProc pid f).procs)
    (hreturned : ∀ t, s'.returned t = true → t < s.nextTask) : Linked s' busy := by
  have hself : ∀ q, s'.procs q = if q = pid then (s.procs q).map f else s.procs q := by
    intro q
    rw [hprocs]
    split
    · rename_i hq
      rw [hq, State.changeProc_self]
    · exact s.changeProc_of_ne f ‹_›
  have hback : ∀ q p, s.procs q = some p → ∃ p', s'.procs q = some p' ∧ p'.phase = p.phase ∧
      p'.task = p.task := by
    intro q p hp
    rw [hself, hp]
    split
    · exact ⟨f p, rfl, (hf p).2.1, (hf p).1⟩
    · exact ⟨p, rfl, rfl, rfl⟩
  have hold : ∀ q p', s'.procs q = some p' → ∃ p, s.procs q = some p ∧
      p'.task = p.task ∧ p'.phase = p.phase ∧ p'.parent = p.parent ∧
      (p'.answer = none ∨ (p'.answer = p.answer ∧ p'.inside = p.inside)) := by
    intro q p' hp'
    rw [hself] at hp'
    split at hp'
    · obtain ⟨p, hp, rfl⟩ := Option.map_eq_some_iff.mp hp'
      exact ⟨p, hp, hf p⟩
    · exact ⟨p', hp', rfl, rfl, rfl, Or.inr ⟨rfl, rfl⟩⟩
  refine h.procs htree (fun q hq => ?_) (fun q p' hp' => ?_) (fun q p' hp' hphase => ?_)
    (fun t ht => hended ▸ ht) (fun t ht => ?_)
  · rw [hself, hq]
    split <;> rfl
  · obtain ⟨p, hp, htask, hphase, hparent, hans⟩ := hold q p' hp'
    refine ⟨p, hp, htask, fun hz => hphase ▸ hz, fun ha => hphase ▸ ha, hans,
      fun _ => ⟨hparent, fun pp hpp halive => ?_⟩⟩
    obtain ⟨pp', hpp', hphase', htask'⟩ := hback p.parent pp hpp
    exact ⟨pp', hpp', hphase'.trans halive, htask'⟩
  · obtain ⟨p, hp, htask, hphase₀, -⟩ := hold q p' hp'
    rw [hended, htask]
    exact (h.live q p hp (hphase₀ ▸ hphase)).2
  · rcases ht with ht | ht
    · exact h.fresh t (Or.inl (hended ▸ ht))
    · exact hreturned t ht

theorem Linked.sendUnpause (h : Linked s busy) (pid : Pid) : Linked (s.sendUnpause pid) busy :=
  h.changeProc (f := fun p => { p with unpause := true }) pid
    (fun _ => ⟨rfl, rfl, rfl, Or.inr ⟨rfl, rfl⟩⟩) rfl rfl rfl fun t ht => h.fresh t (Or.inr ht)

-- The kernel's part of the events.

theorem Linked.dies (h : Linked s none) (hk : kernel s (.dies pid) = some k) : Linked k none := by
  obtain ⟨p₀, hp₀, halive₀, rfl⟩ := kernel_dies hk
  have hself : ∀ q, ((s.changeProc pid fun p => { p with phase := .dying }).mapProcs
      (Proc.reparent pid)).procs q = if q = pid then
        (s.procs q).map fun p => Proc.reparent pid { p with phase := .dying }
      else (s.procs q).map (Proc.reparent pid) := by
    intro q
    show Option.map _ _ = _
    split
    · rename_i hq
      rw [hq, State.changeProc_self, Option.map_map]
      rfl
    · rw [s.changeProc_of_ne _ ‹_›]
  have hold : ∀ q p', ((s.changeProc pid fun p => { p with phase := .dying }).mapProcs
      (Proc.reparent pid)).procs q = some p' → ∃ p, s.procs q = some p ∧ p'.task = p.task ∧
        (p'.phase ≠ .zombie → p.phase ≠ .zombie) ∧ (p'.phase = .alive → p.phase = .alive) ∧
        p'.answer = p.answer ∧ p'.inside = p.inside ∧
        p'.parent = if p.parent = pid then 1 else p.parent := by
    intro q p' hp'
    rw [hself] at hp'
    split at hp'
    · rename_i hq
      subst hq
      obtain ⟨p, hp, rfl⟩ := Option.map_eq_some_iff.mp hp'
      obtain rfl := Option.some.inj (hp₀.symm.trans hp)
      rw [Proc.reparent_spec]
      exact ⟨p₀, hp, rfl, fun _ => by simp [halive₀], fun _ => halive₀, rfl, rfl, rfl⟩
    · obtain ⟨p, hp, rfl⟩ := Option.map_eq_some_iff.mp hp'
      rw [Proc.reparent_spec]
      exact ⟨p, hp, rfl, fun h => h, fun h => h, rfl, rfl, rfl⟩
  refine h.procs rfl (fun q hq => ?_) (fun q p' hp' => ?_) (fun q p' hp' hphase => ?_)
    (fun t ht => ht) h.fresh
  · rw [hself, hq]
    split <;> rfl
  · obtain ⟨p, hp, htask, hphase, halive, hans, hinside, hparent⟩ := hold q p' hp'
    refine ⟨p, hp, htask, hphase, halive, Or.inr ⟨hans, hinside⟩, fun hne => ?_⟩
    rw [hparent] at hne
    have hnpid : p.parent ≠ pid := fun heq => hne (if_pos heq)
    rw [if_neg hnpid] at hparent
    refine ⟨hparent, fun pp hpp halive => ⟨pp.reparent pid, ?_, ?_, ?_⟩⟩
    · rw [hself, if_neg hnpid, hpp]
      rfl
    · rw [Proc.reparent_spec]
      exact halive
    · rw [Proc.reparent_spec]
  · obtain ⟨p, hp, htask, hphase₀, -⟩ := hold q p' hp'
    rw [htask]
    exact (h.live q p hp (hphase₀ hphase)).2

/-- A zombie leaves the table. -/
theorem Linked.reap (h : Linked s none) (hp : s.procs pid = some p) (hz : p.phase = .zombie) :
    Linked { s with procs := Function.update s.procs pid none } none := by
  have hold : ∀ q p', Function.update s.procs pid none q = some p' → q ≠ pid ∧ s.procs q = some p' := by
    intro q p' hp'
    by_cases hq : q = pid
    · rw [hq, Function.update_self] at hp'
      cases hp'
    · exact ⟨hq, (Function.update_of_ne hq ..).symm.trans hp'⟩
  refine h.procs rfl (fun q hq => ?_) (fun q p' hp' => ?_) (fun q p' hp' hphase => ?_)
    (fun t ht => ht) h.fresh
  · show Function.update s.procs pid none q = none
    by_cases hqp : q = pid
    · rw [hqp, Function.update_self]
    · rw [Function.update_of_ne hqp, hq]
  · refine ⟨p', (hold q p' hp').2, rfl, fun h => h, fun h => h, Or.inr ⟨rfl, rfl⟩,
      fun _ => ⟨rfl, fun pp hpp halive => ⟨pp, ?_, halive, rfl⟩⟩⟩
    have hne : p'.parent ≠ pid := by
      intro heq
      rw [heq, hp] at hpp
      obtain rfl := Option.some.inj hpp
      rw [hz] at halive
      cases halive
    exact (Function.update_of_ne hne ..).trans hpp
  · exact (h.live q p' (hold q p' hp').2 hphase).2

theorem Linked.answers {child : Pid} (h : Linked s none)
    (hk : kernel s (.answers pid child) = some k) : Linked k none := by
  obtain ⟨p₀, c₀, hp₀, hc₀, halive, hinside, -, hz, hparent, rfl⟩ := kernel_answers hk
  have hne : pid ≠ child := by
    rintro rfl
    obtain rfl := Option.some.inj (hp₀.symm.trans hc₀)
    rw [hz] at halive
    cases halive
  have hpid : pid ≠ 1 := by
    obtain ⟨-, -, -, hlt⟩ := h.pid_lt hp₀ (by simp [halive])
    exact Int.ne_of_gt hlt
  obtain ⟨pp, owner, hpp, -, howner, hmem, hcpid⟩ := h.family child c₀ hc₀ (hparent ▸ hpid)
  rw [hparent] at hpp
  obtain rfl := Option.some.inj (hp₀.symm.trans hpp)
  have h₁ := h.reap hc₀ hz
  have hcomm : Function.update (s.changeProc pid fun p =>
      { p with answer := some (child, c₀.task) }).procs child none =
      Function.update (Function.update s.procs child none) pid
        (some { p₀ with answer := some (child, c₀.task) }) := by
    rw [State.changeProc, hp₀]
    exact Function.update_comm hne _ _ _
  have hold : ∀ q p', Function.update (Function.update s.procs child none) pid
      (some { p₀ with answer := some (child, c₀.task) }) q = some p' →
      (q = pid ∧ p' = { p₀ with answer := some (child, c₀.task) }) ∨
        Function.update s.procs child none q = some p' := by
    intro q p' hp'
    by_cases hq : q = pid
    · subst hq
      rw [Function.update_self] at hp'
      exact Or.inl ⟨rfl, (Option.some.inj hp').symm⟩
    · exact Or.inr ((Function.update_of_ne hq ..).symm.trans hp')
  have hp₁ : Function.update s.procs child none pid = some p₀ :=
    (Function.update_of_ne hne ..).trans hp₀
  rw [hcomm]
  refine ⟨h.apart, h.whole, h.pidPos, h.older, h.noted, h.zombies, h.fresh, fun q p' hp' hphase => ?_,
    fun q p' hp' hparent' => ?_, fun q p' hp' halive' c r hans => ?_⟩
  · rcases hold q p' hp' with ⟨rfl, rfl⟩ | hp'
    · exact h.live q p₀ hp₀ hphase
    · exact h₁.live q p' hp' hphase
  · have hfamily : ∃ pp owner, Function.update s.procs child none p'.parent = some pp ∧
        pp.phase = .alive ∧ Listed s.toTree pp.task owner ∧ p'.task ∈ owner.childp ∧
        s.pidOf p'.task = some q := by
      rcases hold q p' hp' with ⟨rfl, rfl⟩ | hp'
      · exact h₁.family q p₀ hp₁ hparent'
      · exact h₁.family q p' hp' hparent'
    obtain ⟨pp', owner', hpp', hrest⟩ := hfamily
    by_cases hpar : p'.parent = pid
    · rw [hpar] at hpp' ⊢
      obtain rfl := Option.some.inj (hp₁.symm.trans hpp')
      exact ⟨_, owner', Function.update_self .., hrest⟩
    · exact ⟨pp', owner', (Function.update_of_ne hpar ..).trans hpp', hrest⟩
  · have hnone : ∀ q, Function.update s.procs child none q = none →
        q ≠ pid → Function.update (Function.update s.procs child none) pid
          (some { p₀ with answer := some (child, c₀.task) }) q = none := by
      intro q hq hqp
      rw [Function.update_of_ne hqp, hq]
    rcases hold q p' hp' with ⟨rfl, rfl⟩ | hp'
    · obtain ⟨rfl, rfl⟩ := Prod.mk.inj (Option.some.inj hans)
      exact ⟨hinside, hnone _ (Function.update_self ..) (Ne.symm hne), hcpid, owner, howner, hmem⟩
    · obtain ⟨hwait, hreaped, hrpid, howned⟩ := h₁.answered q p' hp' halive' c r hans
      refine ⟨hwait, hnone c hreaped ?_, hrpid, howned⟩
      rintro rfl
      rw [show Function.update s.procs child none c = none from hreaped] at hp₁
      cases hp₁

theorem Linked.exits {st : Int} (h : Linked s none) (hk : kernel s (.exit pid st) = some k) :
    Linked k none ∧ ∃ p, s.procs pid = some p ∧ p.phase = .dying ∧ k.toTree = s.toTree ∧
      k.ended = Function.update s.ended p.task true := by
  obtain ⟨p₀, hp₀, hdying, rfl⟩ := kernel_exit hk
  refine ⟨?_, p₀, hp₀, hdying, rfl, rfl⟩
  obtain ⟨task₀, ht₀, hpid₀, -⟩ := h.pid_lt hp₀ (by simp [hdying])
  have hself : ∀ q, (s.changeProc pid fun p => { p with phase := .zombie }).procs q =
      if q = pid then (s.procs q).map fun p => { p with phase := .zombie } else s.procs q := by
    intro q
    split
    · rename_i hq
      rw [hq, State.changeProc_self]
    · exact s.changeProc_of_ne _ ‹_›
  refine h.procs rfl (fun q hq => ?_) (fun q p' hp' => ?_) (fun q p' hp' hphase => ?_)
    (fun t ht => ?_) (fun t ht => ?_)
  · rw [hself, hq]
    split <;> rfl
  · rw [hself] at hp'
    have hkept : ∀ pp q, s.procs q = some pp → pp.phase = .alive → q ≠ pid := by
      rintro pp q hpp halive rfl
      obtain rfl := Option.some.inj (hp₀.symm.trans hpp)
      rw [hdying] at halive
      cases halive
    have hparent : ∀ q pp, s.procs q = some pp → pp.phase = .alive → ∃ pp',
        (s.changeProc pid fun p => { p with phase := .zombie }).procs q = some pp' ∧
          pp'.phase = .alive ∧ pp'.task = pp.task := by
      intro q pp hpp halive
      exact ⟨pp, (s.changeProc_of_ne _ (hkept pp q hpp halive)).trans hpp, halive, rfl⟩
    split at hp'
    · obtain ⟨p, hp, rfl⟩ := Option.map_eq_some_iff.mp hp'
      refine ⟨p, hp, rfl, fun hz => absurd rfl hz, fun ha => ?_, Or.inr ⟨rfl, rfl⟩,
        fun _ => ⟨rfl, hparent _⟩⟩
      cases ha
    · exact ⟨p', hp', rfl, fun h => h, fun h => h, Or.inr ⟨rfl, rfl⟩, fun _ => ⟨rfl, hparent _⟩⟩
  · rw [hself] at hp'
    split at hp'
    · obtain ⟨p, hp, rfl⟩ := Option.map_eq_some_iff.mp hp'
      exact absurd rfl hphase
    · rename_i hq
      obtain ⟨hfind, hend⟩ := h.live q p' hp' hphase
      have hne : p'.task ≠ p₀.task := by
        intro heq
        have hpid := findSlave_pid hfind
        rw [heq, findSlave_pid (h.live pid p₀ hp₀ (by simp [hdying])).1] at hpid
        exact hq (Option.some.inj hpid).symm
      exact (Function.update_of_ne hne ..).trans hend
  · show Function.update s.ended p₀.task true t = true
    by_cases htp : t = p₀.task
    · rw [htp, Function.update_self]
    · rw [Function.update_of_ne htp, ht]
  · by_cases htp : t = p₀.task
    · exact htp ▸ h.apart.fresh _ ht₀.1
    · rcases ht with ht | ht
      · exact h.fresh t (Or.inl ((Function.update_of_ne htp ..).symm.trans ht))
      · exact h.fresh t (Or.inr ht)

theorem Linked.leaves (h : Linked s none) (hk : kernel s (.leave pid ret status) = some k) :
    Linked k none := by
  obtain ⟨p₀, hp₀, halive, -, rfl⟩ := kernel_leave hk
  refine h.changeProc (f := fun p => { p with inside := .user, answer := none }) pid
    (fun _ => ⟨rfl, rfl, rfl, Or.inl rfl⟩) rfl rfl rfl fun t ht => ?_
  rcases (Bool.or_eq_true _ _).mp ht with ht | ht
  · exact h.fresh t (Or.inr ht)
  · -- what is returned is a record of before
    obtain ⟨⟨c, r⟩, hans, rfl⟩ := Option.map_eq_some_iff.mp (eq_of_beq ht)
    obtain ⟨owner, howner, hmem⟩ := (h.answered pid p₀ hp₀ halive c r hans).owned
    exact h.apart.freshChild _ owner howner r hmem

/-- The kernel's part of every event but `fork`, of which the record is not made yet. -/
theorem Linked.kernel (h : Linked s none) (hk : Wait.kernel s e = some k)
    (hfork : ∀ pid child, e ≠ .fork pid child) : Linked k none := by
  cases e with
  | dies pid => exact h.dies hk
  | reaped pid =>
    obtain ⟨p, hp, hz, rfl⟩ := kernel_reaped hk
    exact h.reap hp hz
  | answers pid child => exact h.answers hk
  | fork pid child => exact absurd rfl (hfork pid child)
  | waitEnter pid arg options =>
    obtain ⟨p, -, -, -, rfl⟩ := kernel_waitEnter hk
    exact h
  | leave pid ret status => exact h.leaves hk
  | signal pid sig st =>
    obtain ⟨p, -, -, -, rfl⟩ := kernel_signal hk
    split
    · exact h.changeProc (f := fun p => { p with unpause := false }) pid
        (fun _ => ⟨rfl, rfl, rfl, Or.inr ⟨rfl, rfl⟩⟩) rfl rfl rfl fun t ht => h.fresh t (Or.inr ht)
    · exact h
  | exit pid st => exact (h.exits hk).1

-- ---------------------------------------------------------------------------
-- Changes of the records
-- ---------------------------------------------------------------------------

theorem Linked.change (h : Linked s busy) (hf : Neutral f)
    (hstate : ∀ task, Listed s.toTree t task → (f task).state = .zombie → s.ended t = true)
    (hnoted : busy ≠ some t → ∀ task, Listed s.toTree t task → Noted task → Noted (f task)) :
    Linked (s.change t f) busy := by
  have hlisted : ∀ u task', Listed (s.change t f).toTree u task' → ∃ task, Listed s.toTree u task ∧
      task'.pid = task.pid ∧ task'.childp = task.childp ∧ task' = if u = t then f task else task := by
    intro u task' hu
    obtain ⟨task, hold, heq⟩ := listed_modify.mp hu
    obtain ⟨task₁, hold₁, hpid, -, hchildp⟩ := hf.listed hu
    obtain rfl := Option.some.inj (hold.2.symm.trans hold₁.2)
    exact ⟨task, hold, hpid, hchildp, heq⟩
  have hback : ∀ u task, Listed s.toTree u task → ∃ task', Listed (s.change t f).toTree u task' ∧
      task'.childp = task.childp := by
    intro u task hu
    obtain ⟨task', hu', -, -, hchildp⟩ := hf.back t hu
    exact ⟨task', hu', hchildp⟩
  refine ⟨h.apart.modify hf t, h.whole.modify hf t, fun u task' hu => ?_, fun u task' hu c hc => ?_,
    fun u task' hu hbusy => ?_, fun u task' hu hz => ?_, h.fresh, fun q p hp hphase => ?_,
    fun q p hp hparent => ?_, fun q p hp halive c r hans => ?_⟩
  · obtain ⟨task, hold, hpid, -⟩ := hlisted u task' hu
    exact hpid ▸ h.pidPos u task hold
  · obtain ⟨task, hold, -, hchildp, -⟩ := hlisted u task' hu
    exact h.older u task hold c (hchildp ▸ hc)
  · obtain ⟨task, hold, -, -, rfl⟩ := hlisted u task' hu
    split
    · rename_i hut
      subst hut
      exact hnoted hbusy task hold (h.noted u task hold hbusy)
    · exact h.noted u task hold hbusy
  · obtain ⟨task, hold, -, -, rfl⟩ := hlisted u task' hu
    split at hz
    · rename_i hut
      subst hut
      exact hstate task hold hz
    · exact h.zombies u task hold hz
  · rw [State.change_toTree, hf.findSlave]
    exact h.live q p hp hphase
  · obtain ⟨pp, owner, hpp, halive, howner, hmem, hpid⟩ := h.family q p hp hparent
    obtain ⟨owner', howner', hchildp⟩ := hback pp.task owner howner
    exact ⟨pp, owner', hpp, halive, howner', hchildp ▸ hmem, (hf.pidOf s.toTree t _).trans hpid⟩
  · obtain ⟨hinside, hreaped, hpid, owner, howner, hmem⟩ := h.answered q p hp halive c r hans
    obtain ⟨owner', howner', hchildp⟩ := hback p.task owner howner
    exact ⟨hinside, hreaped, (hf.pidOf s.toTree t r).trans hpid, owner', howner', hchildp ▸ hmem⟩

/-- Records are removed, but of no running task. -/
theorem Linked.shrinks (h : Linked s busy) (hapart : Apart tree []) (hwhole : Whole tree [])
    (hshrinks : Shrinks s.toTree tree)
    (hkeeps : ∀ q p, s.procs q = some p → p.phase ≠ .zombie → p.task ∈ tree.firstTask) :
    Linked (s.removed tree) busy := by
  have hback : ∀ u task, Listed s.toTree u task → u ∈ tree.firstTask →
      ∃ task', Listed tree u task' ∧ task'.childp = task.childp := by
    intro u task hu hmem
    obtain ⟨task', htask', hleft⟩ := hshrinks.tasks u hmem task hu.2
    exact ⟨task', ⟨hmem, htask'⟩, hleft.childp_eq⟩
  have hpidOf : ∀ u task, Listed tree u task → ∀ c ∈ task.childp, tree.pidOf c = s.pidOf c :=
    fun u task hu c hc => hshrinks.pidOf_eq (hwhole.childListed u task hu c hc)
  refine ⟨hapart, hwhole, fun u task' hu => ?_, fun u task' hu c hc => ?_, fun u task' hu hbusy => ?_,
    fun u task' hu hz => ?_, ?_, fun q p hp hphase => ?_, fun q p hp hparent => ?_,
    fun q p hp halive c r hans => ?_⟩
  · obtain ⟨task, hold, hleft⟩ := hshrinks.listed hu
    exact hleft.pid_eq ▸ h.pidPos u task hold
  · obtain ⟨task, hold, hleft⟩ := hshrinks.listed hu
    exact h.older u task hold c (hleft.childp_eq ▸ hc)
  · obtain ⟨task, hold, hleft⟩ := hshrinks.listed hu
    have hnoted := h.noted u task hold hbusy
    rcases hleft with rfl | rfl
    · exact hnoted
    · exact hnoted
  · obtain ⟨task, hold, hleft⟩ := hshrinks.listed hu
    exact h.zombies u task hold (hleft.state_eq ▸ hz)
  · intro t ht
    rw [State.removed_toTree, hshrinks.nextTask]
    exact h.fresh t ht
  · obtain ⟨hfind, hend⟩ := h.live q p hp hphase
    exact ⟨hshrinks.findSlave h.apart.nodup hfind (hkeeps q p hp hphase), hend⟩
  · obtain ⟨pp, owner, hpp, halive, howner, hmem, hpid⟩ := h.family q p hp hparent
    obtain ⟨owner', howner', hchildp⟩ :=
      hback pp.task owner howner (hkeeps _ pp hpp (by simp [halive]))
    have hmem' : p.task ∈ owner'.childp := hchildp ▸ hmem
    exact ⟨pp, owner', hpp, halive, howner', hmem', (hpidOf _ owner' howner' _ hmem').trans hpid⟩
  · obtain ⟨hinside, hreaped, hpid, owner, howner, hmem⟩ := h.answered q p hp halive c r hans
    obtain ⟨owner', howner', hchildp⟩ :=
      hback p.task owner howner (hkeeps q p hp (by simp [halive]))
    have hmem' : r ∈ owner'.childp := hchildp ▸ hmem
    exact ⟨hinside, hreaped, (hpidOf _ owner' howner' r hmem').trans hpid, owner', howner', hmem'⟩

/-- `remove_child` of the child that wait has returned. -/
theorem Linked.removeChild (h : Linked s busy) (hbusy : busy = some t)
    (ht : Listed s.toTree t slave) (hr : r ∈ slave.childp) (hpid : s.pidOf r = some pid)
    (hnone : s.procs pid = none)
    (hidle : ∀ q p, s.procs q = some p → p.phase = .alive → p.task = t → p.answer = none) :
    removeChild s.toTree t pid = some (orphan (detach s.toTree t r) r) ∧
      Linked { s with toTree := orphan (detach s.toTree t r) r } busy := by
  obtain ⟨heq, hwhole⟩ := removeChild_whole h.whole h.apart ht hr hpid
  refine ⟨heq, ?_⟩
  have hlisted : ∀ u task', Listed (orphan (detach s.toTree t r) r) u task' →
      ∃ task, Listed s.toTree u task ∧ task'.pid = task.pid ∧ task'.state = task.state ∧
        task'.childp.Sublist task.childp ∧ (u ≠ t → Noted task → Noted task') := by
    intro u task' hu
    obtain ⟨task₁, hu₁, rfl⟩ := listed_orphan.mp hu
    obtain ⟨task, hold, rfl⟩ := listed_modify.mp hu₁
    refine ⟨task, hold, ?_⟩
    by_cases hut : u = t
    · simp only [if_pos hut]
      split <;> exact ⟨rfl, rfl, List.erase_sublist, fun hne => absurd hut hne⟩
    · simp only [if_neg hut]
      split <;> exact ⟨rfl, rfl, .refl _, fun _ h => h⟩
  have hback : ∀ u task, Listed s.toTree u task → ∃ task',
      Listed (orphan (detach s.toTree t r) r) u task' ∧
        task'.childp = if u = t then task.childp.erase r else task.childp := by
    intro u task hu
    refine ⟨_, listed_orphan.mpr ⟨_, listed_modify.mpr ⟨task, hu, rfl⟩, rfl⟩, ?_⟩
    by_cases hut : u = t
    · simp only [if_pos hut]
      split <;> rfl
    · simp only [if_neg hut]
      split <;> rfl
  have hpidOf : ∀ u, (orphan (detach s.toTree t r) r).pidOf u = s.pidOf u := fun u =>
    (orphan_pidOf _ r u).trans (detach_pidOf s.toTree t r u)
  refine ⟨removeChild_apart h.apart ht.1 heq, hwhole, fun u task' hu => ?_,
    fun u task' hu c hc => ?_, fun u task' hu hne => ?_, fun u task' hu hz => ?_, h.fresh,
    fun q p hp hphase => ?_, fun q p hp hparent => ?_, fun q p hp halive c r' hans => ?_⟩
  · obtain ⟨task, hold, hpid', -⟩ := hlisted u task' hu
    exact hpid' ▸ h.pidPos u task hold
  · obtain ⟨task, hold, -, -, hsub, -⟩ := hlisted u task' hu
    exact h.older u task hold c (hsub.subset hc)
  · obtain ⟨task, hold, -, -, -, hkeeps⟩ := hlisted u task' hu
    exact hkeeps (fun heq => hne (hbusy.trans (congrArg some heq.symm))) (h.noted u task hold hne)
  · obtain ⟨task, hold, -, hstate, -⟩ := hlisted u task' hu
    exact h.zombies u task hold (hstate ▸ hz)
  · obtain ⟨hfind, hend⟩ := h.live q p hp hphase
    refine ⟨?_, hend⟩
    rw [orphan_findSlave, detach_findSlave]
    exact hfind
  · obtain ⟨pp, owner, hpp, halive, howner, hmem, hppid⟩ := h.family q p hp hparent
    obtain ⟨owner', howner', hchildp⟩ := hback pp.task owner howner
    refine ⟨pp, owner', hpp, halive, howner', ?_, (hpidOf _).trans hppid⟩
    have hne : p.task ≠ r := by
      intro heq
      rw [heq, hpid] at hppid
      obtain rfl := Option.some.inj hppid
      rw [hp] at hnone
      cases hnone
    rw [hchildp]
    split
    · exact (List.mem_erase_of_ne hne).mpr hmem
    · exact hmem
  · obtain ⟨hinside, hreaped, hrpid, owner, howner, hmem⟩ := h.answered q p hp halive c r' hans
    obtain ⟨owner', howner', hchildp⟩ := hback p.task owner howner
    have hne : p.task ≠ t := by
      intro heq
      rw [hidle q p hp halive heq] at hans
      cases hans
    rw [if_neg hne] at hchildp
    exact ⟨hinside, hreaped, (hpidOf r').trans hrpid, owner', howner', hchildp ▸ hmem⟩

-- ---------------------------------------------------------------------------
-- The turns of OKFS
-- ---------------------------------------------------------------------------

/-- OKFS ends when the list is empty, and not for something else that it does not handle. -/
def Stands (s : State) : Prop :=
  match s.status with
  | .running => s.firstTask ≠ []
  | .exited => s.firstTask = []
  | .quit => True
  | .crashed => False

theorem stands_running (hrun : s.status = .running) : Stands s ↔ s.firstTask ≠ [] := by
  rw [Stands, hrun]

theorem stands_removed (hrun : s.status = .running) (tree : Tree) : Stands (s.removed tree) := by
  unfold Stands State.removed
  by_cases hempty : tree.firstTask = []
  · simp [hempty]
  · simp [hempty, hrun]

/-- A handler that is defined, and what it leaves. -/
def Handles (res : Option State) : Prop := ∃ s', res = some s' ∧ Linked s' none ∧ Stands s'

theorem Linked.turn (h : Linked s none) (handle : TaskRef → Task → Option State)
    (hp : s.procs pid = some p) (hphase : p.phase ≠ .zombie) :
    ∃ slave, Listed s.toTree p.task slave ∧ slave.pid = pid ∧ findSlave s.toTree pid = some p.task ∧
      turn s pid handle = (handle p.task slave).getD { s with status := .crashed } := by
  obtain ⟨hfind, -⟩ := h.live pid p hp hphase
  rcases turn_cases s pid handle with ⟨hno, -⟩ | ⟨t, slave, hfind', hslave, hpid, heq⟩
  · rw [hfind] at hno
    cases hno
  · obtain rfl := Option.some.inj (hfind.symm.trans hfind')
    exact ⟨slave, ⟨findSlave_mem hfind, hslave⟩, hpid, hfind, heq⟩

theorem Linked.setState {state : SlaveState} {st : Int} (h : Linked s busy)
    (hend : state = .zombie → s.ended t = true) : Linked (s.change t (setState state st)) busy :=
  h.change (setState_neutral state st) (fun _ _ hz => hend hz) fun _ _ _ hn => hn

theorem Linked.changeSlaveState {state : SlaveState} {st : Int} (h : Linked s none)
    (hrun : s.status = .running) (ht : Listed s.toTree t task) (hppid : task.ppid = slave.ppid)
    (hend : state = .zombie → s.ended t = true)
    (hfind : findSlave s.toTree slave.pid = some t) :
    Handles (changeSlaveState s t slave state st) := by
  have h₁ : Linked (s.change t (Wait.setState state st)) none := h.setState hend
  have hfirst : s.firstTask ≠ [] := List.ne_nil_of_mem ht.1
  have hstands : ∀ k : State, k.status = s.status → k.firstTask = s.firstTask → Stands k := by
    intro k hstatus hlist
    exact (stands_running (hstatus.trans hrun)).mpr (hlist ▸ hfirst)
  unfold Wait.changeSlaveState
  by_cases hone : slave.ppid = 1
  · simp only [hone, ne_eq, not_true_eq_false, if_false]
    by_cases hz : state = .zombie
    · have ht₁ : Listed (s.change t (Wait.setState state st)).toTree t (Wait.setState state st task) :=
        listed_modify.mpr ⟨task, ht, (if_pos rfl).symm⟩
      have hfind₁ : findSlave (s.change t (Wait.setState state st)).toTree slave.pid = some t :=
        ((setState_neutral state st).findSlave s.toTree t _).trans hfind
      obtain ⟨tree, htree, hwhole, hreaps, -⟩ :=
        removeSlave_whole h₁.apart h₁.whole hfind₁ ht₁ (hppid.trans hone)
      obtain ⟨hapart, hshrinks⟩ := removeSlave_apart htree h₁.apart
      refine ⟨(s.change t (Wait.setState state st)).removed tree, ?_, ?_, stands_removed hrun tree⟩
      · rw [if_pos hz, show removeSlave ((s.change t fun slave =>
          { slave with state, exitCode := st }).toTree) slave.pid = some tree from htree]
        rfl
      · refine h₁.shrinks hapart hwhole hshrinks fun q p hp hphase => ?_
        by_contra hmem
        obtain ⟨hfound, hlive⟩ := h₁.live q p hp hphase
        obtain ⟨task', htask', -⟩ := findSlave_task hfound
        have hgone : s.ended p.task = true := by
          rcases hreaps p.task task' ⟨findSlave_mem hfound, htask'⟩ hmem with heq | hz'
          · exact heq ▸ hend hz
          · exact h₁.zombies _ task' ⟨findSlave_mem hfound, htask'⟩ hz'
        exact Bool.false_ne_true (hlive.symm.trans hgone)
    · exact ⟨_, if_neg hz, h₁, hstands _ rfl rfl⟩
  · simp only [ne_eq, hone, not_false_eq_true, if_true]
    split
    · exact ⟨_, rfl, h₁.sendUnpause _, hstands _ rfl rfl⟩
    · exact ⟨_, rfl, h₁, hstands _ rfl rfl⟩

theorem stands_quit (s : State) : Stands s.quit := trivial

theorem Linked.processSignal {sig st : Int} (h : Linked s none) (hrun : s.status = .running)
    (ht : Listed s.toTree t slave) (hfind : findSlave s.toTree slave.pid = some t) :
    Handles (processSignal s t slave sig st) := by
  have hsame : Handles (some s) :=
    ⟨s, rfl, h, (stands_running hrun).mpr (List.ne_nil_of_mem ht.1)⟩
  have hquit : Handles (some s.quit) := ⟨s.quit, rfl, h.withStatus .quit, stands_quit s⟩
  have hpatched : ∀ (patched : Bool) (state : SlaveState) (st : Int), state ≠ .zombie →
      Handles (Wait.changeSlaveState (s.change t fun slave => { slave with patched }) t slave state st) := by
    intro patched state st hstate
    have h₁ : Linked (s.change t fun slave => { slave with patched }) none := by
      refine h.change (patched_neutral patched) (fun task ht' hz => ?_) fun _ _ _ hn => hn
      exact h.zombies t task ht' hz
    have ht₁ : Listed (s.change t fun slave => { slave with patched }).toTree t { slave with patched } :=
      listed_modify.mpr ⟨slave, ht, (if_pos rfl).symm⟩
    exact h₁.changeSlaveState hrun ht₁ rfl (fun hz => absurd hz hstate)
      (((patched_neutral patched).findSlave s.toTree t _).trans hfind)
  unfold Wait.processSignal
  split
  · exact hsame
  · exact hsame
  · unfold wakeupSlave
    split
    · exact hpatched false .running 0 (by simp)
    · exact hquit
  · unfold stopSlave
    split
    · exact hquit
    · obtain ⟨s₁, hs₁, h₁, hstands₁⟩ := hpatched true .stopped st (by simp)
      rw [hs₁]
      simp only [Option.bind_eq_bind, Option.bind_some]
      split
      · exact ⟨s₁.quit, rfl, h₁.withStatus .quit, stands_quit s₁⟩
      · exact ⟨s₁, rfl, h₁, hstands₁⟩

/-- A task enters a wait call. -/
theorem Linked.enter {inside : Inside} (h : Linked s none) (ht : Listed s.toTree t slave)
    (huser : ∀ p, s.procs pid = some p → p.answer = none)
    (hs' : Entered s t slave arg options s' inside) :
    Linked (s'.changeProc pid fun p => { p with inside }) none := by
  have hinside : ∀ k : State, Linked k none → (∀ p, k.procs pid = some p → p.answer = none) →
      Linked (k.changeProc pid fun p => { p with inside }) none := by
    intro k hk hno
    have h₁ : Linked (k.changeProc pid fun p => { p with inside, answer := none }) none :=
      hk.changeProc (f := fun p => { p with inside, answer := none }) pid
        (fun _ => ⟨rfl, rfl, rfl, Or.inl rfl⟩) rfl rfl rfl fun t ht => hk.fresh t (Or.inr ht)
    have heq : k.changeProc pid (fun p => { p with inside, answer := none }) =
        k.changeProc pid fun p => { p with inside } := by
      unfold State.changeProc
      cases hp : k.procs pid with
      | none => rfl
      | some p => simp [hno p hp]
    exact heq ▸ h₁
  have hchange : ∀ f : Task → Task, Neutral f → (∀ task, (f task).state = task.state) →
      (∀ task, Listed s.toTree t task → Noted task → Noted (f task)) →
      Linked ((s.change t f).changeProc pid fun p => { p with inside }) none := by
    intro f hf hstate hnoted
    refine hinside _ (h.change hf (fun task ht' hz => ?_) fun _ => hnoted) huser
    exact h.zombies t task ht' (hstate task ▸ hz)
  cases hs' with
  | passed => exact hinside s h huser
  | stopped c hc =>
    refine hchange (fun slave => { slave with nextCall := .isstopped, stoppedChild := some c })
      ⟨fun _ => rfl, fun _ => rfl, fun _ => rfl⟩ (fun _ => rfl) fun task ht' _ _ => ?_
    obtain rfl := Option.some.inj (ht.2.symm.trans ht'.2)
    exact ⟨c, hc, rfl⟩
  | other next hnext =>
    exact hchange (fun slave => { slave with nextCall := next }) (nextCall_neutral next)
      (fun _ => rfl) fun task _ _ hstopped => absurd hstopped hnext
  | suspended hunready =>
    exact hchange (fun slave => { slave with restartCall := some (arg, options) })
      ⟨fun _ => rfl, fun _ => rfl, fun _ => rfl⟩ (fun _ => rfl) fun _ _ hn => hn

-- ---------------------------------------------------------------------------
-- The return from a wait call
-- ---------------------------------------------------------------------------

/-- What is known of the child whose pid wait returns, when OKFS is told. -/
structure Returned (s : State) (t : TaskRef) (slave : Task) (ret : Int) (r : TaskRef) : Prop where
  mem : r ∈ slave.childp
  pid : s.pidOf r = some ret
  reaped : s.procs ret = none

theorem Proc.returns_pos (h : p.returns ret status = true) (hret : 0 < ret) :
    ∃ r, p.answer = some (ret, r) ∧ ∀ st, status = some st → wifstopped st = false := by
  unfold Proc.returns at h
  split at h
  · cases h
  · exact absurd (of_decide_eq_true h) (by omega)
  · rename_i c r _ hans
    obtain ⟨hc, hst⟩ := (Bool.and_eq_true _ _).mp h
    rw [eq_of_beq hc]
    refine ⟨r, hans, fun st hstatus => ?_⟩
    simpa [hstatus] using hst
  · exact absurd (of_decide_eq_true h) (by omega)

theorem Linked.returned (h : Linked s none) (hk : Wait.kernel s (.leave pid ret status) = some k)
    (ht : Listed k.toTree t slave) (hfind : findSlave k.toTree pid = some t) (hret : 0 < ret) :
    (∃ r, Returned k t slave ret r ∧ k.returned = fun u => s.returned u || (some r == some u)) ∧
      ∀ st, status = some st → wifstopped st = false := by
  obtain ⟨p, hp, halive, hreturns, rfl⟩ := kernel_leave hk
  obtain ⟨r, hans, hst⟩ := Proc.returns_pos hreturns hret
  refine ⟨⟨r, ?_, by rw [hans]; rfl⟩, hst⟩
  obtain ⟨-, hreaped, hrpid, owner, howner, hmem⟩ := h.answered pid p hp halive ret r hans
  have htp : p.task = t :=
    Option.some.inj ((h.live pid p hp (by simp [halive])).1.symm.trans hfind)
  have hne : ret ≠ pid := by
    rintro rfl
    rw [hp] at hreaped
    cases hreaped
  obtain rfl := Option.some.inj ((htp ▸ howner.2).symm.trans ht.2)
  exact ⟨hmem, hrpid, (s.changeProc_of_ne _ hne).trans hreaped⟩

/-- After the kernel's part no answer of the task is left. -/
theorem Linked.idle (h : Linked s none) (hk : Wait.kernel s (.leave pid ret status) = some k)
    (hfind : findSlave k.toTree pid = some t) :
    ∀ q p, k.procs q = some p → p.phase = .alive → p.task = t → p.answer = none := by
  obtain ⟨p₀, hp₀, halive₀, -, rfl⟩ := kernel_leave hk
  intro q p hp halive htask
  by_cases hq : q = pid
  · subst hq
    have hp' := (s.changeProc_self q _).symm.trans hp
    rw [hp₀] at hp'
    exact (Option.some.inj hp') ▸ rfl
  · have hp' : s.procs q = some p := (s.changeProc_of_ne _ hq).symm.trans hp
    have hqpid := findSlave_pid (h.live q p hp' (by simp [halive])).1
    rw [htask, show s.pidOf t = some pid from findSlave_pid hfind] at hqpid
    exact absurd (Option.some.inj hqpid).symm hq

/-- `after_wait_iszombie` for the child that wait has returned. -/
theorem Linked.iszombie (h : Linked s none) (ht : Listed s.toTree t slave)
    (hr : Returned s t slave ret r)
    (hidle : ∀ q p, s.procs q = some p → p.phase = .alive → p.task = t → p.answer = none) :
    ∃ tree, afterWaitIszombie s t ret = some (s.removed tree) ∧ Linked (s.removed tree) (some t) ∧
      Shrinks (orphan (detach s.toTree t r) r) tree ∧ r ∉ tree.firstTask ∧
      Spares (orphan (detach s.toTree t r) r) tree := by
  obtain ⟨heq, h₁⟩ := (h.weaken (some t)).removeChild rfl ht hr.mem hr.pid hr.reaped hidle
  have hrmem := h.whole.childListed t slave ht r hr.mem
  obtain ⟨child, hchild⟩ := h.whole.alloc r hrmem
  have hrlisted : Listed s.toTree r child := ⟨hrmem, hchild⟩
  have hrpid : child.pid = ret := by
    have hpid := hr.pid
    rw [Tree.pidOf, hchild] at hpid
    exact Option.some.inj hpid
  have hppid : child.ppid ≠ 1 :=
    h.apart.ppid t slave ht r hr.mem child hchild ▸ h.whole.pidNe t slave ht
  have hfind : findSlave (orphan (detach s.toTree t r) r) ret = some r := by
    rw [orphan_findSlave, detach_findSlave]
    exact hrpid ▸ h.whole.found r child hrlisted hppid
  obtain ⟨child', hchild', -⟩ := findSlave_task hfind
  have hrlisted' : Listed (orphan (detach s.toTree t r) r) r child' := ⟨hrmem, hchild'⟩
  have horphan : child'.ppid = 1 := by
    obtain ⟨task, -, hsame⟩ := listed_orphan.mp hrlisted'
    rw [hsame, if_pos rfl]
  obtain ⟨tree, htree, hwhole, hreaps, hgone, hspares⟩ :=
    removeSlave_whole h₁.apart h₁.whole hfind hrlisted' horphan
  obtain ⟨hapart, hshrinks⟩ := removeSlave_apart htree h₁.apart
  refine ⟨tree, ?_, ?_, hshrinks, hgone, hspares⟩
  · rw [afterWaitIszombie, heq]
    simp only [Option.bind_eq_bind, Option.bind_some, htree]
    rfl
  · refine h₁.shrinks hapart hwhole hshrinks fun q p hp hphase => ?_
    by_contra hmem
    obtain ⟨hfound, hlive⟩ := h₁.live q p hp hphase
    obtain ⟨task', htask', -⟩ := findSlave_task hfound
    rcases hreaps p.task task' ⟨findSlave_mem hfound, htask'⟩ hmem with heq' | hz
    · exact h.live_ne hp hphase hr.pid hr.reaped heq'
    · have hgone' := h₁.zombies _ task' ⟨findSlave_mem hfound, htask'⟩ hz
      exact Bool.false_ne_true (hlive.symm.trans hgone')

/-- There is no child with a pid that is not positive. -/
theorem Linked.iszombie_none (h : Linked s none) (ht : Listed s.toTree t slave) (hret : ret ≤ 0) :
    afterWaitIszombie s t ret = none := by
  unfold afterWaitIszombie
  cases hrem : Wait.removeChild s.toTree t ret with
  | none => rfl
  | some tree =>
    obtain ⟨slave', c, hslave', hc, hpid, -⟩ := removeChild_spec hrem
    have hcmem := h.whole.childListed t slave' ⟨ht.1, hslave'⟩ c hc
    obtain ⟨child, hchild⟩ := h.whole.alloc c hcmem
    have hpos := h.pidPos c child ⟨hcmem, hchild⟩
    rw [Tree.pidOf, hchild] at hpid
    obtain rfl := Option.some.inj hpid
    exact absurd (Int.lt_trans Int.zero_lt_one hpos) (Int.not_lt.mpr hret)

/-- A function that completes the call, and what it leaves: the task, or nothing to do. -/
def Completes (t : TaskRef) (res : Option State) : Prop :=
  ∃ s', res = some s' ∧ Linked s' (some t) ∧ Stands s' ∧
    ((s'.status = .running ∧ t ∈ s'.firstTask) ∨ (s'.status ≠ .running ∧ Linked s' none))

theorem Linked.completes_removed {tree : Tree} (h : Linked (s.removed tree) (some t))
    (hrun : s.status = .running) (hp : s.procs pid = some p) (hphase : p.phase ≠ .zombie)
    (htask : p.task = t) : Completes t (some (s.removed tree)) := by
  refine ⟨_, rfl, h, stands_removed hrun tree, Or.inl ?_⟩
  obtain ⟨hfound, -⟩ := h.live pid p hp hphase
  have hmem : t ∈ tree.firstTask := htask ▸ findSlave_mem hfound
  exact ⟨(if_neg (List.ne_nil_of_mem hmem)).trans hrun, hmem⟩

theorem Linked.callNext (h : Linked s none) (hrun : s.status = .running)
    (ht : Listed s.toTree t slave) (hp : s.procs pid = some p) (hphase : p.phase ≠ .zombie)
    (htask : p.task = t)
    (hidle : ∀ q p, s.procs q = some p → p.phase = .alive → p.task = t → p.answer = none)
    (hret : 0 < ret → ∃ r, Returned s t slave ret r)
    (hstatus : 0 < ret → ∀ st, status = some st → wifstopped st = false) :
    Completes t (callNext s t slave ret status) ∨
      (callNext s t slave ret status = none ∧ slave.nextCall = .iszombie ∧ ret ≤ 0) := by
  have hfirst : s.firstTask ≠ [] := List.ne_nil_of_mem ht.1
  have hsame : Completes t (some s) :=
    ⟨s, rfl, h.weaken _, (stands_running hrun).mpr hfirst, Or.inl ⟨hrun, ht.1⟩⟩
  have hzombie : 0 < ret → Completes t (afterWaitIszombie s t ret) := by
    intro hpos
    obtain ⟨r, hr⟩ := hret hpos
    obtain ⟨tree, heq, h', -⟩ := h.iszombie ht hr hidle
    rw [heq]
    exact h'.completes_removed hrun hp hphase htask
  unfold Wait.callNext
  split
  · exact Or.inl hsame
  · refine Or.inl ?_
    unfold afterWaitWnohang
    split
    · rename_i hpos
      obtain ⟨r, hr⟩ := hret hpos
      obtain ⟨heq, h'⟩ := (h.weaken (some t)).removeChild rfl ht hr.mem hr.pid hr.reaped hidle
      rw [heq]
      exact ⟨_, rfl, h', (stands_running hrun).mpr hfirst, Or.inl ⟨hrun, ht.1⟩⟩
    · exact hsame
  · rename_i hnext
    by_cases hpos : 0 < ret
    · exact Or.inl (hzombie hpos)
    · exact Or.inr ⟨h.iszombie_none ht (by omega), hnext, by omega⟩
  · rename_i hnext
    refine Or.inl ?_
    cases status with
    | none =>
      have hquit : Linked s.quit none := h.withStatus .quit
      exact ⟨s.quit, rfl, hquit.weaken _, stands_quit s, Or.inr ⟨by simp [State.quit], hquit⟩⟩
    | some st =>
      unfold afterWaitIsstopped
      simp only
      split
      · split
        · rename_i hboth
          exact hzombie hboth.1
        · exact hsame
      · obtain ⟨c, hc, hstopped⟩ := h.noted t slave ht (by simp) hnext
        have hcmem := h.whole.childListed t slave ht c hc
        obtain ⟨child, hchild⟩ := h.whole.alloc c hcmem
        rw [hstopped]
        simp only [Option.bind_eq_bind, Option.bind_some, hchild]
        refine ⟨_, rfl, ?_, (stands_running hrun).mpr hfirst, Or.inl ⟨hrun, ht.1⟩⟩
        have hneutral : Neutral fun child => { child with state := .stoppedAndNotified } :=
          ⟨fun _ => rfl, fun _ => rfl, fun _ => rfl⟩
        refine (h.weaken (some t)).change hneutral (fun task _ hz => ?_) fun _ _ _ hn => hn
        cases hz

/-- The call is over: no function is left to complete it. -/
theorem Linked.done (h : Linked s (some t)) :
    Linked (s.change t fun slave => { slave with nextCall := .nothing }) none := by
  have h₁ : Linked (s.change t fun slave => { slave with nextCall := .nothing }) (some t) := by
    refine h.change (nextCall_neutral .nothing) (fun task ht hz => h.zombies t task ht hz) ?_
    exact fun hne => absurd rfl hne
  refine { h₁ with noted := fun u task hu _ => ?_ }
  by_cases hut : u = t
  · subst hut
    obtain ⟨task₀, -, rfl⟩ := listed_modify.mp hu
    rw [if_pos rfl]
    intro hstopped
    cases hstopped
  · exact h₁.noted u task hu fun heq => hut (Option.some.inj heq).symm

-- ---------------------------------------------------------------------------
-- Steps
-- ---------------------------------------------------------------------------

/-- A fork returns no pid that is on record, unless it is an orphan's. -/
def NewPid (s : State) : Event → Prop
  | .fork _ child => ∀ t task, Listed s.toTree t task → task.pid = child → task.ppid = 1
  | _ => True

/-- What is said of the return from a call that is not restarted. -/
def AtLeave (P : Task → Int → Option Int → Prop) (s : State) : Event → Prop
  | .leave pid ret status => ∀ t slave, findSlave s.toTree pid = some t → s.tasks t = some slave →
      slave.restartCall = none → P slave ret status
  | _ => True

/-- A wait for which `before_wait` has found a zombie returns a pid. -/
def ZombieReturned : State → Event → Prop :=
  AtLeave fun slave ret _ => slave.nextCall = .iszombie → 0 < ret

theorem Linked.leaveCall (h : Linked s none) (hrun : s.status = .running)
    (hk : Wait.kernel s (.leave pid ret status) = some k) :
    ∃ p slave, s.procs pid = some p ∧ Listed k.toTree p.task slave ∧
      Wait.turn k pid (fun t slave => leaveCall k t slave ret status) =
        (leaveCall k p.task slave ret status).getD { k with status := .crashed } ∧
      (Handles (leaveCall k p.task slave ret status) ∨
        (leaveCall k p.task slave ret status = none ∧ slave.restartCall = none ∧
          slave.nextCall = .iszombie ∧ ret ≤ 0)) := by
  obtain ⟨p, hp, halive, -, hkeq⟩ := kernel_leave hk
  have h₁ := h.leaves hk
  have hrun₁ : k.status = .running := by
    rw [hkeq]
    exact hrun
  have hp₁ : k.procs pid = some { p with inside := .user, answer := none } := by
    rw [hkeq]
    exact (s.changeProc_self _ _).trans (by rw [hp]; rfl)
  have hphase₁ : ({ p with inside := .user, answer := none } : Proc).phase ≠ .zombie := by
    simp [halive]
  obtain ⟨slave, ht, -, hfind, heq⟩ :=
    h₁.turn (fun t slave => Wait.leaveCall k t slave ret status) hp₁ hphase₁
  refine ⟨p, slave, hp, ht, heq, ?_⟩
  by_cases hcall : slave.restartCall.isSome
  · refine Or.inl ⟨_, if_pos hcall, ?_, (stands_running hrun₁).mpr (List.ne_nil_of_mem ht.1)⟩
    refine h₁.change ⟨fun _ => rfl, fun _ => rfl, fun _ => rfl⟩ (f := fun slave =>
      { slave with restartCall := none, nextCall := .nothing }) (fun task ht' hz => ?_) ?_
    · exact h₁.zombies _ task ht' hz
    · intro _ task _ _ hstopped
      cases hstopped
  · have hno : slave.restartCall = none := by simpa using hcall
    have hreturned := fun hpos => h.returned hk ht hfind hpos
    rcases h₁.callNext hrun₁ ht hp₁ hphase₁ rfl (h.idle hk hfind)
      (fun hpos => (hreturned hpos).1.imp fun _ => And.left) (fun hpos => (hreturned hpos).2) with
      ⟨s₁, hnext, hlinked, hstands, hrest⟩ | ⟨hnone, hzombie, hret⟩
    · refine Or.inl ?_
      unfold Wait.leaveCall
      rw [if_neg hcall, hnext]
      simp only [Option.bind_eq_bind, Option.bind_some]
      rcases hrest with ⟨hrun', hmem⟩ | ⟨hend, hdone⟩
      · obtain ⟨task, htask⟩ := hlinked.whole.alloc _ hmem
        rw [if_pos hrun', htask]
        exact ⟨_, rfl, hlinked.done, (stands_running hrun').mpr (List.ne_nil_of_mem hmem)⟩
      · rw [if_neg hend]
        exact ⟨s₁, rfl, hdone, hstands⟩
    · refine Or.inr ⟨?_, hno, hzombie, hret⟩
      unfold Wait.leaveCall
      rw [if_neg hcall, hnone]
      rfl

theorem Linked.fork {child : Pid} (h : Linked s none) (hk : Wait.kernel s (.fork pid child) = some k)
    (hnew : NewPid s (.fork pid child)) (ht : Listed s.toTree t slave)
    (hfind : findSlave s.toTree pid = some t) :
    Linked { k with toTree := forkTree k.toTree t slave child } none := by
  obtain ⟨p₀, hp₀, halive, -, hfree, hlt, rfl⟩ := kernel_fork hk
  have hfreshT := h.apart.fresh
  have htp : p₀.task = t :=
    Option.some.inj ((h.live pid p₀ hp₀ (by simp [halive])).1.symm.trans hfind)
  have hpne : ∀ q p, s.procs q = some p → q ≠ child := by
    rintro q p hp rfl
    rw [hfree] at hp
    cases hp
  have hold : ∀ q p', Function.update s.procs child
      (some ⟨pid, .alive, s.nextTask, .user, none, false⟩) q = some p' →
      (q = child ∧ p' = ⟨pid, .alive, s.nextTask, .user, none, false⟩) ∨
        (q ≠ child ∧ s.procs q = some p') := by
    intro q p' hp'
    by_cases hq : q = child
    · subst hq
      rw [Function.update_self] at hp'
      exact Or.inl ⟨rfl, (Option.some.inj hp').symm⟩
    · exact Or.inr ⟨hq, (Function.update_of_ne hq ..).symm.trans hp'⟩
  have hlisted : ∀ u task, Listed (forkTree s.toTree t slave child) u task ↔
      (u = s.nextTask ∧ task = newSlave child slave) ∨
        ∃ task₀, Listed s.toTree u task₀ ∧
          task = if u = t then withChild s.nextTask task₀ else task₀ :=
    fun _ _ => forkTree_listed hfreshT ht.1 slave child
  have hback : ∀ u task₀, Listed s.toTree u task₀ →
      ∃ task, Listed (forkTree s.toTree t slave child) u task ∧ ∀ c ∈ task₀.childp, c ∈ task.childp := by
    intro u task₀ hu
    refine ⟨_, (hlisted u _).mpr (Or.inr ⟨task₀, hu, rfl⟩), fun c hc => ?_⟩
    split
    · exact List.mem_cons_of_mem _ hc
    · exact hc
  have hpidOf : ∀ u task₀, Listed s.toTree u task₀ → ∀ c ∈ task₀.childp,
      (forkTree s.toTree t slave child).pidOf c = s.pidOf c := fun u task₀ hu c hc =>
    forkTree_pidOf_old slave child (Nat.ne_of_lt (hfreshT c (h.whole.childListed u task₀ hu c hc)))
  have hfound := fun q => forkTree_findSlave hfreshT ht.1 slave child q
  refine ⟨h.apart.fork ht child, h.whole.fork h.apart ht (Int.ne_of_gt hlt) hnew,
    fun u task hu => ?_, fun u task hu c hc => ?_, fun u task hu _ => ?_, fun u task hu hz => ?_,
    fun u hu => ?_, fun q p' hp' hphase => ?_, fun q p' hp' hparent => ?_,
    fun q p' hp' halive' c r hans => ?_⟩
  · rcases (hlisted u task).mp hu with ⟨-, rfl⟩ | ⟨task₀, hu₀, rfl⟩
    · exact hlt
    · have hpos := h.pidPos u task₀ hu₀
      split <;> exact hpos
  · rcases (hlisted u task).mp hu with ⟨-, rfl⟩ | ⟨task₀, hu₀, rfl⟩
    · cases hc
    · split at hc
      · rcases List.mem_cons.mp hc with rfl | hc
        · exact hfreshT u hu₀.1
        · exact h.older u task₀ hu₀ c hc
      · exact h.older u task₀ hu₀ c hc
  · rcases (hlisted u task).mp hu with ⟨-, rfl⟩ | ⟨task₀, hu₀, rfl⟩
    · intro hstopped
      cases hstopped
    · have hnoted := h.noted u task₀ hu₀ (by simp)
      split
      · intro hstopped
        obtain ⟨c, hc, hsc⟩ := hnoted hstopped
        exact ⟨c, List.mem_cons_of_mem _ hc, hsc⟩
      · exact hnoted
  · rcases (hlisted u task).mp hu with ⟨-, rfl⟩ | ⟨task₀, hu₀, rfl⟩
    · cases hz
    · refine h.zombies u task₀ hu₀ ?_
      split at hz <;> exact hz
  · exact Nat.lt_succ_of_lt (h.fresh u hu)
  · rcases hold q p' hp' with ⟨rfl, rfl⟩ | ⟨hq, hp'⟩
    · refine ⟨(hfound q).trans (if_pos rfl), ?_⟩
      by_contra hend
      exact Nat.lt_irrefl _ (h.fresh s.nextTask (Or.inl (by simpa using hend)))
    · obtain ⟨hfindq, hend⟩ := h.live q p' hp' hphase
      exact ⟨(hfound q).trans ((if_neg hq).trans hfindq), hend⟩
  · rcases hold q p' hp' with ⟨rfl, rfl⟩ | ⟨hq, hp'⟩
    · refine ⟨p₀, withChild s.nextTask slave, (Function.update_of_ne (hpne pid p₀ hp₀) ..).trans hp₀,
        halive, ?_, List.mem_cons_self, forkTree_pidOf_new slave q (Nat.ne_of_lt (hfreshT t ht.1))⟩
      exact (hlisted _ _).mpr (Or.inr ⟨slave, htp ▸ ht, (if_pos htp).symm⟩)
    · obtain ⟨pp, owner, hpp, hppalive, howner, hmem, hqpid⟩ := h.family q p' hp' hparent
      obtain ⟨owner', howner', hchildp⟩ := hback pp.task owner howner
      exact ⟨pp, owner', (Function.update_of_ne (hpne _ pp hpp) ..).trans hpp, hppalive, howner',
        hchildp _ hmem, (hpidOf _ owner howner _ hmem).trans hqpid⟩
  · rcases hold q p' hp' with ⟨rfl, rfl⟩ | ⟨hq, hp'⟩
    · cases hans
    · obtain ⟨hinside, hreaped, hrpid, owner, howner, hmem⟩ := h.answered q p' hp' halive' c r hans
      obtain ⟨owner', howner', hchildp⟩ := hback p'.task owner howner
      have hcne : c ≠ child := by
        -- the record of a reaped child still has the pid
        intro heq
        have hrmem := h.whole.childListed _ owner howner r hmem
        obtain ⟨rt, hrt⟩ := h.whole.alloc r hrmem
        have hrtpid : rt.pid = c := by
          rw [Tree.pidOf, hrt] at hrpid
          exact Option.some.inj hrpid
        have hppid := h.apart.ppid _ owner howner r hmem rt hrt
        exact h.whole.pidNe _ owner howner
          (hppid.symm.trans (hnew r rt ⟨hrmem, hrt⟩ (hrtpid.trans heq)))
      exact ⟨hinside, (Function.update_of_ne hcne ..).trans hreaped,
        (hpidOf _ owner howner r hmem).trans hrpid, owner', howner', hchildp r hmem⟩

/-- A step keeps what links the records, and OKFS goes on if a wait for a zombie returns a
pid. -/
theorem Linked.step (h : Linked s none) (hs' : Wait.step s e = some s') (hnew : NewPid s e) :
    Linked s' none ∧ (Stands s → ZombieReturned s e → Stands s') := by
  obtain ⟨hrun, k, hk, rfl⟩ := step_spec hs'
  have hdone : ∀ res : Option State, Handles res →
      Linked (res.getD { k with status := .crashed }) none ∧
        (Stands s → ZombieReturned s e → Stands (res.getD { k with status := .crashed })) := by
    rintro res ⟨s', rfl, hlinked, hstands⟩
    exact ⟨hlinked, fun _ _ => hstands⟩
  cases e with
  | dies pid =>
    have hlinked := h.kernel hk (by simp)
    obtain ⟨p, -, -, rfl⟩ := kernel_dies hk
    exact ⟨hlinked, fun hstands _ => hstands⟩
  | reaped pid =>
    have hlinked := h.kernel hk (by simp)
    obtain ⟨p, -, -, rfl⟩ := kernel_reaped hk
    exact ⟨hlinked, fun hstands _ => hstands⟩
  | answers pid child =>
    have hlinked := h.kernel hk (by simp)
    obtain ⟨p, c, -, -, -, -, -, -, -, rfl⟩ := kernel_answers hk
    exact ⟨hlinked, fun hstands _ => hstands⟩
  | fork pid child =>
    obtain ⟨p, hp, halive, -, -, -, hkeq⟩ := kernel_fork hk
    obtain ⟨slave, ht, hpid, hfind, -⟩ :=
      h.turn (fun _ _ => none) hp (by simp [halive])
    have hlinked := h.fork hk hnew ht hfind
    have hturn : okfs k (.fork pid child) =
        { k with toTree := forkTree k.toTree p.task slave child } := by
      have hfindk : findSlave k.toTree pid = some p.task := by
        rw [hkeq]
        exact hfind
      have htask : k.tasks p.task = some slave := by
        rw [hkeq]
        exact ht.2
      show Wait.turn k pid _ = _
      rw [Wait.turn, hfindk]
      simp only [htask]
      rfl
    rw [hturn]
    refine ⟨hlinked, fun _ _ => (stands_running ?_).mpr (List.cons_ne_nil _ _)⟩
    rw [hkeq]
    exact hrun
  | waitEnter pid arg options =>
    obtain ⟨p, hp, halive, huser, rfl⟩ := kernel_waitEnter hk
    obtain ⟨slave, ht, -, -, heq⟩ := h.turn (fun t slave =>
      (beforeWait k t slave arg options).map fun r =>
        r.1.changeProc pid fun p => { p with inside := r.2 }) hp (by simp [halive])
    show Linked (Wait.turn k pid _) none ∧ (_ → _ → Stands (Wait.turn k pid _))
    rw [heq]
    refine hdone _ ?_
    obtain ⟨r, hr⟩ := beforeWait_isSome k p.task arg options fun c hc =>
      h.whole.alloc c (h.whole.childListed p.task slave ht c hc)
    rw [hr]
    have hentered := beforeWait_entered hr
    have hidle : ∀ p', k.procs pid = some p' → p'.answer = none := by
      intro p' hp'
      obtain rfl := Option.some.inj (hp.symm.trans hp')
      by_contra hans
      obtain ⟨⟨c, r⟩, hans⟩ := Option.ne_none_iff_exists'.mp hans
      have hinside := (h.answered pid p hp halive c r hans).inside
      rw [huser] at hinside
      cases hinside
    refine ⟨_, rfl, h.enter ht hidle hentered, ?_⟩
    refine (stands_running (hentered.kept.1.trans hrun)).mpr ?_
    exact hentered.kept.2 ▸ List.ne_nil_of_mem ht.1
  | leave pid ret status =>
    obtain ⟨p, slave, hp, ht, heq, hres⟩ := h.leaveCall hrun hk
    show Linked (Wait.turn k pid _) none ∧ (_ → _ → Stands (Wait.turn k pid _))
    rw [heq]
    rcases hres with hres | ⟨hnone, hno, hzombie, hret⟩
    · exact hdone _ hres
    · rw [hnone]
      refine ⟨(h.leaves hk).withStatus .crashed, fun _ hzr => ?_⟩
      obtain ⟨p', hp', halive, -, hkeq⟩ := kernel_leave hk
      obtain rfl := Option.some.inj (hp.symm.trans hp')
      have hslave : s.tasks p.task = some slave := by
        have htask := ht.2
        rw [hkeq] at htask
        exact htask
      have hpos := hzr p.task slave (h.live pid p hp (by simp [halive])).1 hslave hno hzombie
      exact absurd hpos (Int.not_lt.mpr hret)
  | signal pid sig st =>
    have hlinked := h.kernel hk (by simp)
    obtain ⟨p, hp, halive, -, hkeq⟩ := kernel_signal hk
    have hp' : ∃ p', k.procs pid = some p' ∧ p'.phase = .alive := by
      rw [hkeq]
      split
      · exact ⟨{ p with unpause := false }, (s.changeProc_self _ _).trans (by rw [hp]; rfl), halive⟩
      · exact ⟨p, hp, halive⟩
    obtain ⟨p', hp', halive'⟩ := hp'
    have hrun' : k.status = .running := by
      rw [hkeq]
      split <;> exact hrun
    obtain ⟨slave, ht, hpid, hfind, heq⟩ := hlinked.turn
      (fun t slave => Wait.processSignal k t slave sig st) hp' (by simp [halive'])
    show Linked (Wait.turn k pid _) none ∧ (_ → _ → Stands (Wait.turn k pid _))
    rw [heq]
    exact hdone _ (hlinked.processSignal hrun' ht (hpid ▸ hfind))
  | exit pid st =>
    obtain ⟨hlinked, p, hp, hdying, htree, hended⟩ := h.exits hk
    have hrun' : k.status = .running := by
      obtain ⟨p, -, -, rfl⟩ := kernel_exit hk
      exact hrun
    obtain ⟨slave, ht, hpid, hfind, -⟩ :=
      h.turn (fun _ _ => none) hp (by simp [hdying])
    rw [← htree] at ht hfind
    have hturn : okfs k (.exit pid st) =
        (Wait.changeSlaveState k p.task slave .zombie st).getD { k with status := .crashed } := by
      show Wait.turn k pid _ = _
      rw [Wait.turn, hfind]
      simp only [ht.2]
      rfl
    rw [hturn]
    refine hdone _ (hlinked.changeSlaveState hrun' ht rfl (fun _ => ?_) (hpid ▸ hfind))
    rw [hended, Function.update_self]

-- ---------------------------------------------------------------------------
-- Runs
-- ---------------------------------------------------------------------------

theorem start_linked {first : Pid} (hfirst : 1 < first) (gid : Int) :
    Linked (start first gid) none := by
  have hchildp : ∀ t task c, Listed (start first gid).toTree t task → c ∉ task.childp := by
    intro t task c ht hc
    rw [(start_listed ht).2] at hc
    exact List.not_mem_nil hc
  have hpid : ∀ t task, Listed (start first gid).toTree t task → 1 < task.pid ∧ task.ppid = 1 := by
    intro t task ht
    rw [(start_listed ht).2]
    exact ⟨hfirst, rfl⟩
  have hproc : ∀ q p, (start first gid).procs q = some p →
      q = first ∧ p = ⟨1, .alive, 0, .user, none, false⟩ := by
    intro q p hp
    by_cases hq : q = first
    · subst hq
      rw [start_procs] at hp
      exact ⟨rfl, (Option.some.inj hp).symm⟩
    · simp [start, hq] at hp
  refine ⟨start_apart first gid, ⟨fun t ht => ?_, fun t task ht => Int.ne_of_gt (hpid t task ht).1,
    fun t task ht c hc => absurd hc (hchildp t task c ht), fun c hc => absurd hc List.not_mem_nil,
    fun t task ht hne => absurd (hpid t task ht).2 hne,
    fun t task ht hne => absurd (hpid t task ht).2 hne⟩, fun t task ht => (hpid t task ht).1,
    fun t task ht c hc => absurd hc (hchildp t task c ht), fun t task ht _ hstopped => ?_,
    fun t task ht hz => ?_, fun t ht => ?_, fun q p hp _ => ?_, fun q p hp hparent => ?_,
    fun q p hp _ c r hans => ?_⟩
  · rw [List.mem_singleton.mp ht]
    exact ⟨firstSlave first gid, rfl⟩
  · rw [(start_listed ht).2] at hstopped
    cases hstopped
  · rw [(start_listed ht).2] at hz
    cases hz
  · rcases ht with ht | ht <;> cases ht
  · obtain ⟨rfl, rfl⟩ := hproc q p hp
    exact ⟨start_findSlave q gid, rfl⟩
  · rw [(hproc q p hp).2] at hparent
    exact absurd rfl hparent
  · rw [(hproc q p hp).2] at hans
    cases hans

/-- What the two lists of the tasks say of each other, and that OKFS finds what it looks for. -/
structure ListsMatch (s : State) : Prop where
  listed : ∀ t task, Listed s.toTree t task → ∀ c ∈ task.childp,
    ∃ child, Listed s.toTree c child ∧ child.ppid = task.pid
  once : ∀ c child, Listed s.toTree c child → child.ppid ≠ 1 →
    ∃ t task, Listed s.toTree t task ∧ task.childp.count c = 1 ∧
      ∀ t' task', Listed s.toTree t' task' → c ∈ task'.childp → t' = t
  stopped : ∀ t task, Listed s.toTree t task → task.nextCall = .isstopped →
    ∃ c child, task.stoppedChild = some c ∧ Listed s.toTree c child
  found : s.status ≠ .crashed

theorem Linked.listsMatch (h : Linked s none) (hstands : Stands s) : ListsMatch s := by
  have hchild : ∀ t task, Listed s.toTree t task → ∀ c ∈ task.childp,
      ∃ child, Listed s.toTree c child := by
    intro t task ht c hc
    have hmem := h.whole.childListed t task ht c hc
    obtain ⟨child, hchild⟩ := h.whole.alloc c hmem
    exact ⟨child, hmem, hchild⟩
  refine ⟨fun t task ht c hc => ?_, fun c child hc hppid => ?_, fun t task ht hstopped => ?_, ?_⟩
  · obtain ⟨child, hlisted⟩ := hchild t task ht c hc
    exact ⟨child, hlisted, h.apart.ppid t task ht c hc child hlisted.2⟩
  · rcases h.whole.owned c child hc hppid with hrest | ⟨t, task, ht, hmem⟩
    · cases hrest
    · refine ⟨t, task, ht, (h.apart.once t task ht).count.trans (if_pos hmem), ?_⟩
      exact fun t' task' ht' hmem' => h.apart.apart t' task' ht' t task ht c hmem' hmem
  · obtain ⟨c, hc, hstop⟩ := h.noted t task ht (by simp) hstopped
    obtain ⟨child, hlisted⟩ := hchild t task ht c hc
    exact ⟨c, child, hstop, hlisted⟩
  · intro hcrashed
    rw [Stands, hcrashed] at hstands
    exact hstands

/-- The events for which OKFS keeps the tree. -/
def Orderly (s : State) (e : Event) : Prop := NewPid s e ∧ ZombieReturned s e

/-- **The tree of tasks.** In every state of a run in which forks return new pids, and a wait
for a zombie returns a pid, the lists of the tasks match, and no search goes past the end of
a list. -/
theorem lists_match {first : Pid} (hfirst : 1 < first) {gid : Int} {es : List Event}
    (horderly : Runs.Along Wait.step Orderly (start first gid) es)
    (hrun : Runs.exec Wait.step (start first gid) es = some s) : ListsMatch s := by
  have hinv : Linked s none ∧ Stands s := by
    refine Runs.inv_of_exec (I := fun s => Linked s none ∧ Stands s) ?_
      ⟨start_linked hfirst gid, List.cons_ne_nil _ _⟩ horderly hrun
    rintro s e s' ⟨h, hstands⟩ ⟨hnew, hzr⟩ hs'
    obtain ⟨h', hstands'⟩ := h.step hs' hnew
    exact ⟨h', hstands' hstands hzr⟩
  exact hinv.1.listsMatch hinv.2

/-- A child exits and its parent waits for it. -/
def forkAndWait : List Event :=
  [.fork 100 101, .dies 101, .exit 101 0, .waitEnter 100 (-1) 0, .answers 100 101,
    .leave 100 101 (some 0)]

theorem lists_match_forkAndWait :
    ∃ s, Runs.exec Wait.step (start 100 1) forkAndWait = some s ∧ ListsMatch s := by
  have hfork : NewPid (start 100 1) (.fork 100 101) := by
    intro t task ht hpid
    rw [(start_listed ht).2] at hpid
    exact absurd hpid (by decide)
  have horderly : Runs.Along Wait.step Orderly (start 100 1) forkAndWait :=
    ⟨⟨hfork, trivial⟩, fun _ _ => ⟨⟨trivial, trivial⟩, fun _ _ => ⟨⟨trivial, trivial⟩, fun _ _ =>
      ⟨⟨trivial, trivial⟩, fun _ _ => ⟨⟨trivial, trivial⟩, fun _ _ =>
        ⟨⟨trivial, fun _ _ _ _ _ _ => by decide⟩, fun _ _ => trivial⟩⟩⟩⟩⟩⟩
  exact ⟨_, rfl, lists_match (by decide) horderly rfl⟩

/-- A zombie whose parent is a zombie too has been reaped by process 1, and its pid is given
to a new task. When the parent's record is removed, it is the new task's that is removed
for the zombie's, and stays in a list of children. -/
theorem child_not_listed :
    ∃ s task, Runs.exec Wait.step (start 100 1)
        [.fork 100 101, .fork 101 102, .dies 101, .exit 101 0, .dies 102, .exit 102 0, .reaped 102,
          .fork 100 102, .waitEnter 100 (-1) 0, .answers 100 101, .leave 100 101 (some 0)] = some s ∧
      Listed s.toTree 0 task ∧ 3 ∈ task.childp ∧ s.tasks 3 = none ∧ ¬ ListsMatch s := by
  refine ⟨_, _, rfl, ⟨?_, rfl⟩, ?_, rfl, fun hmatch => ?_⟩
  · decide
  · decide
  · obtain ⟨child, ⟨-, hchild⟩, -⟩ := hmatch.listed 0 _ ⟨by decide, rfl⟩ 3 (by decide)
    have hnone : (none : Option Task) = some child := hchild
    cases hnone

end Wait

end Okfs
