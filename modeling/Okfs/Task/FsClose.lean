import Okfs.Lib.Owners
import Okfs.Task.Shares

/-!
# OKFS — closing the descriptors of the filesystems

A filesystem that has a `close` is owed one for each descriptor that its open returned.
`okfs_after_close` pays it, for the last slot of the file. The other ways in which a file
goes do not: `dup2` onto its last slot, `close_on_exec`, the end of the task, and an open
whose second half fails. `ClosesLast` leaves these out, and then a descriptor is open
exactly as long as a slot or a pending open refers to it.
-/

namespace Okfs

namespace FdTab

open RefTable Owners

variable {s s' : State} {t : TaskRef} {heap heap' heap₁ : Heap} {slave slave' : Task} {i j : Slot}
  {r : OkfsFileRef} {fd ret : Int} {closes : Closes} {call : Call} {next : Handler}

/-! ## Owners -/

/-- What a descriptor of a filesystem is open for: a file, or the open that a task is in. -/
inductive User
  | file (r : OkfsFileRef)
  | task (t : TaskRef)
  deriving DecidableEq

/-- The descriptor that is to be closed for the file. -/
def Heap.owns (closes : Closes) (heap : Heap) (r : OkfsFileRef) : Option (FsRef × Int) :=
  ((heap.files r).bind fun filep => filep.fsp.map (·, filep.opened)).filter fun o => closes o.1

/-- The descriptor of a pending open. -/
def Task.pending (closes : Closes) (slave : Task) : Option (FsRef × Int) :=
  (if slave.nextCall = some .afterOkfsOpen then slave.arg1Fsp.map (·, slave.retvalSaved)
    else none).filter fun o => closes o.1

def State.own (closes : Closes) (s : State) : User → Option (FsRef × Int)
  | .file r => s.heap.owns closes r
  | .task t => (s.tasks t).bind (Task.pending closes)

def Heap.opens (closes : Closes) (heap : Heap) (o : FsRef × Int) : Bool :=
  closes o.1 && heap.opened o

/-- The slots know the descriptors of their files. -/
def FsfdOk (heap : Heap) (slave : Task) : Prop :=
  ∀ i r filep, slave.fdTab i = some r → heap.files r = some filep → slave.fsfd i = filep.opened

structure Held (closes : Closes) (s : State) : Prop where
  owned : Owned (s.own closes) (s.heap.opens closes)
  fsfd : ∀ t slave, s.tasks t = some slave → FsfdOk s.heap slave
  ended : ∀ t slave, s.tasks t = some slave → slave.zombie = true → slave.pending closes = none
  once : s.heap.closedTwice = false

theorem pending_eq_none (h : slave.nextCall ≠ some .afterOkfsOpen) :
    slave.pending closes = none := by
  rw [Task.pending, if_neg h]
  rfl

theorem State.own_put (s : State) (u : User) : (s.put t heap slave).own closes u =
    match u with
    | .file r => heap.owns closes r
    | .task u => if u = t then slave.pending closes else s.own closes (.task u) := by
  cases u with
  | file r => rfl
  | task u =>
    show ((s.put t heap slave).tasks u).bind _ = _
    by_cases hut : u = t
    · simp only [if_pos hut]
      rw [hut, State.put_tasks_self, Option.bind_some]
    · simp only [if_neg hut]
      rw [State.put_tasks_of_ne s hut, State.own]

/-! ## Files that change their count only -/

structure Kept (closes : Closes) (heap heap' : Heap) : Prop where
  opened : heap'.opened = heap.opened
  once : heap'.closedTwice = heap.closedTwice
  owns : ∀ r, heap'.owns closes r = heap.owns closes r
  files : ∀ r filep', heap'.files r = some filep' →
    ∃ filep, heap.files r = some filep ∧ filep'.opened = filep.opened

namespace Kept

theorem refl (heap : Heap) : Kept closes heap heap :=
  ⟨rfl, rfl, fun _ => rfl, fun _ filep' h => ⟨filep', h, rfl⟩⟩

theorem trans (h : Kept closes heap heap₁) (h' : Kept closes heap₁ heap') :
    Kept closes heap heap' := by
  refine ⟨h'.opened.trans h.opened, h'.once.trans h.once,
    fun r => (h'.owns r).trans (h.owns r), fun r filep' hr => ?_⟩
  obtain ⟨filep₁, hr₁, he₁⟩ := h'.files r filep' hr
  obtain ⟨filep, hr, he⟩ := h.files r filep₁ hr₁
  exact ⟨filep, hr, he₁.trans he⟩

theorem setFile {filep : OkfsFile} (hr : heap.files r = some filep) {o : Option OkfsFile}
    (hsome : ∀ filep', o = some filep' → filep'.fsp = filep.fsp ∧ filep'.opened = filep.opened)
    (hnone : o = none → heap.owns closes r = none) : Kept closes heap (heap.setFile r o) := by
  have hfiles : (heap.setFile r o).files r = o := Function.update_self ..
  have hother : ∀ q, q ≠ r → (heap.setFile r o).files q = heap.files q :=
    fun q hq => Function.update_of_ne hq ..
  refine ⟨rfl, rfl, fun q => ?_, fun q filep' hq => ?_⟩
  · by_cases hqr : q = r
    · rw [hqr]
      cases o with
      | none => rw [hnone rfl, Heap.owns, hfiles]; rfl
      | some filep' =>
        obtain ⟨hfsp, hopened⟩ := hsome filep' rfl
        rw [Heap.owns, Heap.owns, hfiles, hr, Option.bind_some, Option.bind_some, hfsp, hopened]
    · rw [Heap.owns, Heap.owns, hother q hqr]
  · by_cases hqr : q = r
    · rw [hqr, hfiles] at hq
      exact ⟨filep, hqr ▸ hr, (hsome filep' hq).2⟩
    · exact ⟨filep', (hother q hqr).symm.trans hq, rfl⟩

theorem share (h : heap.share r = some heap') : Kept closes heap heap' := by
  obtain ⟨filep, hr, heq⟩ := Option.bind_eq_some_iff.mp h
  obtain rfl := Option.some.inj heq
  exact setFile hr (fun filep' h => by rw [← Option.some.inj h]; exact ⟨rfl, rfl⟩)
    fun h => by cases h

theorem unshare {filep : OkfsFile} (hr : heap.files r = some filep)
    (hlast : filep.nshared = 1 → heap.owns closes r = none) (h : heap.unshare r = some heap') :
    Kept closes heap heap' := by
  rw [Heap.unshare_eq hr, Option.some.injEq] at h
  rw [← h]
  refine setFile hr (fun filep' h => ?_) fun h => ?_
  · split at h
    · cases h
    · rw [← Option.some.inj h]
      exact ⟨rfl, rfl⟩
  · split at h
    · exact hlast (by omega)
    · cases h

end Kept

theorem FsfdOk.kept (h : FsfdOk heap slave) (hkept : Kept closes heap heap')
    (hfd : slave'.fdTab = slave.fdTab) (hfsfd : slave'.fsfd = slave.fsfd) :
    FsfdOk heap' slave' := by
  intro i r filep' hi hr
  obtain ⟨filep, hr, he⟩ := hkept.files r filep' hr
  rw [hfsfd, he]
  exact h i r filep (hfd ▸ hi) hr

/-- A slot is given the file and the descriptor of another, or emptied. -/
theorem FsfdOk.setSlot (h : FsfdOk heap slave) (hkept : Kept closes heap heap')
    {o : Option OkfsFileRef} (hfd : slave'.fdTab = Function.update slave.fdTab j o)
    (hfsfd : o = none ∧ slave'.fsfd = slave.fsfd ∨
      ∃ i, o = slave.fdTab i ∧ slave'.fsfd = Function.update slave.fsfd j (slave.fsfd i)) :
    FsfdOk heap' slave' := by
  intro k r filep' hk hr
  obtain ⟨filep, hr, he⟩ := hkept.files r filep' hr
  rw [hfd] at hk
  rw [he]
  by_cases hkj : k = j
  · rw [hkj, Function.update_self] at hk
    rcases hfsfd with ⟨rfl, -⟩ | ⟨i, rfl, hfsfd⟩
    · cases hk
    · rw [hkj, hfsfd, Function.update_self]
      exact h i r filep hk hr
  · rw [Function.update_of_ne hkj] at hk
    rcases hfsfd with ⟨-, hfsfd⟩ | ⟨i, -, hfsfd⟩
    · rw [hfsfd]
      exact h k r filep hk hr
    · rw [hfsfd, Function.update_of_ne hkj]
      exact h k r filep hk hr

/-- No descriptor changes its owner. -/
theorem Held.put (h : Held closes s) (hkept : Kept closes s.heap heap')
    (hpending : slave'.pending closes = s.own closes (.task t)) (hfsfd : FsfdOk heap' slave')
    (hz : slave'.zombie = true → slave'.pending closes = none) :
    Held closes (s.put t heap' slave') := by
  have hown : (s.put t heap' slave').own closes = s.own closes := by
    funext u
    rw [State.own_put]
    cases u with
    | file r => exact hkept.owns r
    | task u =>
      by_cases hut : u = t
      · simp only [if_pos hut]
        rw [hpending, hut]
      · simp only [if_neg hut]
  refine ⟨?_, forall_put heap' (fun u tp hu => (h.fsfd u tp hu).kept hkept rfl rfl) hfsfd,
    forall_put heap' (fun u tp hu => h.ended u tp hu) hz, hkept.once.trans h.once⟩
  rw [hown, State.put_heap, show heap'.opens closes = s.heap.opens closes by
    funext o; rw [Heap.opens, Heap.opens, hkept.opened]]
  exact h.owned

theorem Held.own_task (_ : Held closes s) (ht : s.tasks t = some slave) :
    s.own closes (.task t) = slave.pending closes := by
  rw [State.own, ht, Option.bind_some]

/-- A new file takes over what the open has of the filesystem, if anything. -/
theorem Held.add (h : Held closes s) (hok : HeapOk s) (ht : s.tasks t = some slave)
    {fsp : Option FsRef} {fsfd : Int}
    (hfsp : (fsp.map (·, fsfd)).filter (fun o => closes o.1) = slave.pending closes)
    (hfd : slave'.fdTab = slave.fdTab) (hfsfd : slave'.fsfd = slave.fsfd)
    (hpending : slave'.pending closes = none) (hz : slave'.zombie = false) :
    Held closes (s.put t (addNewFd s.heap slave' fsp i fsfd).1
      (addNewFd s.heap slave' fsp i fsfd).2) := by
  have hfresh : s.heap.files s.heap.nextFile = none := hok.fresh _ (Nat.le_refl _)
  have hnone : s.own closes (.file s.heap.nextFile) = none := by
    rw [State.own, Heap.owns, hfresh]
    rfl
  have hfiles : ∀ q, q ≠ s.heap.nextFile →
      (addNewFd s.heap slave' fsp i fsfd).1.files q = s.heap.files q :=
    fun q hq => Function.update_of_ne hq ..
  have hself : (addNewFd s.heap slave' fsp i fsfd).1.files s.heap.nextFile =
    some ⟨fsp, 1, fsfd⟩ := Function.update_self ..
  have hlive : ∀ {q filep}, s.heap.files q = some filep → q ≠ s.heap.nextFile := by
    rintro q filep hq rfl
    rw [hfresh] at hq
    cases hq
  refine ⟨?_, fun u tp hu k r filep hk hr => ?_, forall_put s.heap h.ended fun hz' => ?_, h.once⟩
  · -- the open, if it has a descriptor, hands it over
    have hown : (s.put t (addNewFd s.heap slave' fsp i fsfd).1
        (addNewFd s.heap slave' fsp i fsfd).2).own closes =
        Function.update (Function.update (s.own closes) (.task t) none)
          (.file s.heap.nextFile) (slave.pending closes) := by
      funext u
      rw [State.own_put]
      cases u with
      | file q =>
        by_cases hq : q = s.heap.nextFile
        · rw [hq, Function.update_self]
          show (addNewFd s.heap slave' fsp i fsfd).1.owns closes s.heap.nextFile = _
          rw [Heap.owns, hself]
          exact hfsp
        · rw [Function.update_of_ne (by simpa using hq), Function.update_of_ne (by simp)]
          show (addNewFd s.heap slave' fsp i fsfd).1.owns closes q = s.heap.owns closes q
          rw [Heap.owns, Heap.owns, hfiles q hq]
      | task u =>
        rw [Function.update_of_ne (by simp)]
        by_cases hut : u = t
        · simp only [if_pos hut]
          rw [hut, Function.update_self]
          exact hpending
        · simp only [if_neg hut]
          rw [Function.update_of_ne (by simpa using hut)]
    rw [hown]
    cases hp : slave.pending closes with
    | none =>
      have hsame : Function.update (s.own closes) (.task t) none = s.own closes := by
        rw [← hp, ← h.own_task ht, Function.update_eq_self]
      rw [hsame, ← hnone, Function.update_eq_self]
      exact h.owned
    | some o => exact h.owned.handOver ((h.own_task ht).trans hp) hnone
  · by_cases hut : u = t
    · rw [hut, State.put_tasks_self, Option.some.injEq] at hu
      subst hu
      by_cases hki : k = i
      · have hnew : (addNewFd s.heap slave' fsp i fsfd).2.fdTab i = some s.heap.nextFile :=
          Function.update_self ..
        rw [hki, hnew] at hk
        rw [← Option.some.inj hk] at hr
        rw [← Option.some.inj (hself.symm.trans hr), hki]
        exact Function.update_self ..
      · have hk : slave.fdTab k = some r := by
          rw [← hfd]
          exact (Function.update_of_ne hki ..).symm.trans hk
        obtain ⟨filep', hr'⟩ := hok.live ht hk
        have hr : s.heap.files r = some filep := (hfiles r (hlive hr')).symm.trans hr
        rw [← h.fsfd t slave ht k r filep hk hr, ← hfsfd]
        exact Function.update_of_ne hki ..
    · rw [State.put_tasks_of_ne s hut] at hu
      obtain ⟨filep', hr'⟩ := hok.live hu hk
      exact h.fsfd u tp hu k r filep hk ((hfiles r (hlive hr')).symm.trans hr)
  · rw [show (addNewFd s.heap slave' fsp i fsfd).2.zombie = slave'.zombie from rfl, hz] at hz'
    cases hz'

/-! ## Opening and closing -/

theorem Heap.owns_eq_some {o : FsRef × Int} : heap.owns closes r = some o ↔
    ∃ filep, heap.files r = some filep ∧ filep.fsp = some o.1 ∧ filep.opened = o.2 ∧
      closes o.1 = true := by
  rw [Heap.owns, Option.filter_eq_some_iff, Option.bind_eq_some_iff]
  constructor
  · rintro ⟨⟨filep, hr, ho⟩, hc⟩
    obtain ⟨fsp, hfsp, rfl⟩ := Option.map_eq_some_iff.mp ho
    exact ⟨filep, hr, hfsp, rfl, hc⟩
  · rintro ⟨filep, hr, hfsp, hopened, hc⟩
    exact ⟨⟨filep, hr, by rw [hfsp, hopened]; rfl⟩, hc⟩

/-- The descriptor `o` of a filesystem is opened or closed. -/
theorem Heap.opens_update {o : FsRef × Int} (hc : closes o.1 = true) {b : Bool}
    (h : heap'.opened = Function.update heap.opened o b) :
    heap'.opens closes = Function.update (heap.opens closes) o b := by
  funext p
  rw [Heap.opens, h]
  by_cases hp : p = o
  · rw [hp, Function.update_self, Function.update_self, hc, Bool.true_and]
  · rw [Function.update_of_ne hp, Function.update_of_ne hp, Heap.opens]

theorem Heap.opens_update_of_not {o : FsRef × Int} (hc : closes o.1 = false) {b : Bool}
    (h : heap'.opened = Function.update heap.opened o b) : heap'.opens closes = heap.opens closes := by
  funext p
  rw [Heap.opens, Heap.opens, h]
  by_cases hp : p = o
  · rw [hp, hc, Bool.false_and, Bool.false_and]
  · rw [Function.update_of_ne hp]

/-- The filesystem opens a file for the task. -/
theorem Held.acquire (h : Held closes s) (ht : s.tasks t = some slave)
    (hnext : slave.nextCall = none) {fsp : FsRef}
    (hfree : closes fsp = true → s.heap.opened (fsp, ret) = false)
    (hopened : heap' = { s.heap with opened := Function.update s.heap.opened (fsp, ret) true })
    (hslave : slave'.nextCall = some .afterOkfsOpen ∧ slave'.arg1Fsp = some fsp ∧
      slave'.retvalSaved = ret ∧ slave'.zombie = false ∧ slave'.fdTab = slave.fdTab ∧
      slave'.fsfd = slave.fsfd) : Held closes (s.put t heap' slave') := by
  obtain ⟨hnext', harg, hret, hz, hfd, hfsfd⟩ := hslave
  have hnone : s.own closes (.task t) = none :=
    (h.own_task ht).trans (pending_eq_none (by rw [hnext]; simp))
  have hpending : slave'.pending closes = (some (fsp, ret)).filter fun o => closes o.1 := by
    rw [Task.pending, if_pos hnext', harg, hret]
    rfl
  have hown : (s.put t heap' slave').own closes =
      Function.update (s.own closes) (.task t) (slave'.pending closes) := by
    funext u
    rw [State.own_put]
    cases u with
    | file r =>
      rw [Function.update_of_ne (by simp), hopened]
      rfl
    | task u =>
      by_cases hut : u = t
      · simp only [if_pos hut]
        rw [hut, Function.update_self]
      · simp only [if_neg hut]
        rw [Function.update_of_ne (by simpa using hut)]
  refine ⟨?_, forall_put heap' (fun u tp hu => ?_) ?_, forall_put heap' h.ended fun hz' => ?_, ?_⟩
  · rw [hown, hpending, State.put_heap]
    cases hc : closes fsp with
    | true =>
      rw [Heap.opens_update (o := (fsp, ret)) hc (by rw [hopened]),
        show (some (fsp, ret)).filter (fun o => closes o.1) = some (fsp, ret) from
          Option.filter_some_pos hc]
      refine h.owned.acquire hnone ?_
      rw [Heap.opens, hfree hc, Bool.and_false]
    | false =>
      rw [Heap.opens_update_of_not (o := (fsp, ret)) hc (by rw [hopened]),
        show (some (fsp, ret)).filter (fun o => closes o.1) = none from
          Option.filter_some_neg (by simp [hc]), ← hnone, Function.update_eq_self]
      exact h.owned
  · rw [hopened]
    exact h.fsfd u tp hu
  · intro i r filep hi hr
    rw [hfsfd]
    rw [hopened] at hr
    exact h.fsfd t slave ht i r filep (hfd ▸ hi) hr
  · rw [hz] at hz'
    cases hz'
  · rw [State.put_heap, hopened]
    exact h.once

theorem FsfdOk.clear (h : FsfdOk heap slave) (i : Slot) : FsfdOk heap (slave.clear i) := by
  have hkept : Kept (fun _ => false) heap heap := .refl heap
  exact h.setSlot hkept rfl (.inl ⟨rfl, rfl⟩)

/-- `okfs_after_close` of a slot. -/
theorem Held.close (h : Held closes s) (ht : s.tasks t = some slave)
    (hz : slave.zombie = false) (hi : slave.fdTab i = some r)
    {filep : OkfsFile} (hr : s.heap.files r = some filep)
    (hun : (s.heap.closeLast closes filep (slave.fsfd i)).unshare r = some heap') :
    Held closes (s.put t heap' (slave.clear i)) := by
  have hpending : (slave.clear i).pending closes = s.own closes (.task t) := by
    rw [h.own_task ht]
    rfl
  have hz' : (slave.clear i).zombie = true → (slave.clear i).pending closes = none := fun hz' => by
    rw [show (slave.clear i).zombie = slave.zombie from rfl, hz] at hz'
    cases hz'
  have hfsfd := h.fsfd t slave ht
  cases hown : s.heap.owns closes r with
  | none =>
    have hsame : s.heap.closeLast closes filep (slave.fsfd i) = s.heap := by
      unfold Heap.closeLast
      split
      · rename_i fsp hfsp
        rw [if_neg]
        rintro ⟨hc, -⟩
        have := Heap.owns_eq_some (o := (fsp, filep.opened)).mpr ⟨filep, hr, hfsp, rfl, hc⟩
        rw [hown] at this
        cases this
      · rfl
    rw [hsame] at hun
    have hkept : Kept closes s.heap heap' := .unshare hr (fun _ => hown) hun
    exact h.put hkept hpending ((hfsfd.clear i).kept hkept rfl rfl) hz'
  | some o =>
    obtain ⟨filep', hr', hfsp, hopened, hc⟩ := Heap.owns_eq_some.mp hown
    obtain rfl : filep = filep' := Option.some.inj (hr.symm.trans hr')
    have hlast : s.heap.closeLast closes filep (slave.fsfd i) =
        if filep.nshared = 1 then s.heap.fsClose o else s.heap := by
      rw [Heap.closeLast, hfsp]
      simp only [hc, true_and]
      rw [hfsfd i r filep hi hr, hopened]
    rw [hlast] at hun
    by_cases hone : filep.nshared = 1
    · -- the last slot: the file goes, and its descriptor with it
      have hopen : s.heap.opened o = true := by
        have hopens := (h.owned.opened_iff o).mpr ⟨.file r, hown⟩
        rw [Heap.opens, hc, Bool.true_and] at hopens
        exact hopens
      rw [if_pos hone, Heap.fsClose, if_pos hopen] at hun
      have hr₁ : { s.heap with opened := Function.update s.heap.opened o false }.files r =
        some filep := hr
      rw [Heap.unshare_eq hr₁, if_pos (by omega), Option.some.injEq] at hun
      have hfiles : heap'.files = Function.update s.heap.files r none := by rw [← hun]; rfl
      have hown' : (s.put t heap' (slave.clear i)).own closes =
          Function.update (s.own closes) (.file r) none := by
        funext u
        rw [State.own_put]
        cases u with
        | file q =>
          show heap'.owns closes q = _
          rw [Heap.owns, hfiles]
          by_cases hq : q = r
          · rw [hq, Function.update_self, Function.update_self]
            rfl
          · rw [Function.update_of_ne hq, Function.update_of_ne (by simpa using hq)]
            rfl
        | task u =>
          rw [Function.update_of_ne (by simp)]
          by_cases hut : u = t
          · simp only [if_pos hut]
            rw [hpending, hut]
          · simp only [if_neg hut]
      have hfiles' : ∀ q filep', heap'.files q = some filep' → s.heap.files q = some filep' := by
        intro q filep' hq
        rw [hfiles] at hq
        by_cases hqr : q = r
        · rw [hqr, Function.update_self] at hq
          cases hq
        · rwa [Function.update_of_ne hqr] at hq
      refine ⟨?_, forall_put heap' (fun u tp hu k q filep' hk hq => ?_) fun k q filep' hk hq => ?_,
        forall_put heap' h.ended hz', ?_⟩
      · rw [hown', State.put_heap, Heap.opens_update hc (show heap'.opened =
          Function.update s.heap.opened o false by rw [← hun]; rfl)]
        exact h.owned.release hown
      · exact h.fsfd u tp hu k q filep' hk (hfiles' q filep' hq)
      · exact hfsfd.clear i k q filep' hk (hfiles' q filep' hq)
      · rw [State.put_heap, ← hun]
        exact h.once
    · rw [if_neg hone] at hun
      have hkept : Kept closes s.heap heap' := .unshare hr (fun he => absurd he hone) hun
      exact h.put hkept hpending ((hfsfd.clear i).kept hkept rfl rfl) hz'

/-! ## The condition -/

/-- Of a file that has a descriptor to close, not all slots are among those that go. -/
def LeavesSlot (closes : Closes) (s : State) (t : TaskRef) (gone : Slot → Prop) : Prop :=
  ∀ i r, gone i → s.rows t i = some r → s.heap.owns closes r ≠ none →
    ∃ u j, s.rows u j = some r ∧ ¬ (u = t ∧ gone j)

/-- No file goes but by `close`, and no open fails at its second half. -/
def ClosesLast (closes : Closes) (s : State) : Event → Prop
  | .leave t ret => ∀ slave, s.tasks t = some slave →
      (slave.pending closes ≠ none → 0 ≤ ret ∧ ret < OPEN_MAX) ∧
      match slave.call with
      | some (.dup2 _ newfd) => 0 ≤ ret → LeavesSlot closes s t fun i => (i.val : Int) = newfd
      | some .execve => 0 ≤ ret → LeavesSlot closes s t fun i => slave.closeOnExec i = true
      | _ => True
  | .die t => (∀ slave, s.tasks t = some slave → slave.pending closes = none) ∧
      LeavesSlot closes s t fun _ => True
  | _ => True

variable {gone : Slot → Prop} {which : Task → Slot → Bool}

theorem LeavesSlot.put (h : LeavesSlot closes s t gone) (ht : s.tasks t = some slave)
    (hkept : Kept closes s.heap heap') (hsub : ∀ i r, slave'.fdTab i = some r → slave.fdTab i = some r)
    (hrest : ∀ i, ¬ gone i → slave'.fdTab i = slave.fdTab i) :
    LeavesSlot closes (s.put t heap' slave') t gone := by
  intro i r hi hr howns
  rw [State.rows_put, Function.update_self] at hr
  rw [State.put_heap, hkept.owns] at howns
  obtain ⟨u, j, hj, hne⟩ := h i r hi (by rw [State.rows_eq ht]; exact hsub i r hr) howns
  refine ⟨u, j, ?_, hne⟩
  rw [State.rows_put]
  by_cases hut : u = t
  · rw [hut, Function.update_self, hrest j fun hg => hne ⟨hut, hg⟩]
    rwa [hut, State.rows_eq ht] at hj
  · rwa [Function.update_of_ne hut]

/-- What goes is not the last slot. -/
theorem LeavesSlot.not_last (h : LeavesSlot closes s t gone) (hok : HeapOk s)
    (ht : s.tasks t = some slave) (hg : gone i) (hi : slave.fdTab i = some r) {filep : OkfsFile}
    (hr : s.heap.files r = some filep) (hone : filep.nshared = 1) : s.heap.owns closes r = none := by
  by_contra howns
  have hrow : s.rows t i = some r := by rw [State.rows_eq ht]; exact hi
  obtain ⟨u, j, hj, hne⟩ := h i r hg hrow howns
  have hcount : s.heap.counts r = some filep.nshared := by rw [Heap.counts, hr, Option.map_some]
  have htwo := one_lt_total (hok.counted.lt hrow) (hok.counted.lt hj) hrow hj fun he => by
    obtain ⟨rfl, rfl⟩ := Prod.mk.inj he
    exact hne ⟨rfl, hg⟩
  rw [(hok.counted.counted r _ hcount).1] at hone
  omega

theorem closeSlots_kept (hok : HeapOk s) (ht : s.tasks t = some slave)
    (hwhich : ∀ tp (i j : Slot), j ≠ i → which (tp.clear i) j = which tp j)
    (hleaves : LeavesSlot closes s t fun i => which slave i = true) (hfsfd : FsfdOk s.heap slave)
    (hres : closeSlots which s.heap slave = some (heap', slave')) :
    Kept closes s.heap heap' ∧ FsfdOk heap' slave' := by
  have hspec := closeSlots_spec s.heap slave
    (P := fun heap tp => HeapOk (s.put t heap tp) ∧ Kept closes s.heap heap ∧ FsfdOk heap tp ∧
      (∀ i r, tp.fdTab i = some r → slave.fdTab i = some r) ∧
      (∀ i, ¬ which slave i = true → tp.fdTab i = slave.fdTab i) ∧
      ∀ i, which tp i = true → which slave i = true) hwhich ?_
    ⟨hok.put_same ht rfl rfl (Nat.le_refl _), Kept.refl s.heap, hfsfd, fun _ _ h => h,
      fun _ _ => rfl, fun _ h => h⟩
  · obtain ⟨heap₁, slave₁, heq, ⟨-, hkept, hf, -⟩, -⟩ := hspec
    obtain ⟨rfl, rfl⟩ := Prod.mk.inj (Option.some.inj (hres.symm.trans heq))
    exact ⟨hkept, hf⟩
  · rintro heap tp i r ⟨hok, hkept, hf, hsub, hrest, hgone⟩ hi hw
    obtain ⟨heap₁, hun, -, hok₁⟩ := hok.close s.put_tasks_self hi
    rw [State.put_put] at hok₁
    obtain ⟨filep, hr⟩ := hok.live s.put_tasks_self hi
    have hkept₁ : Kept closes heap heap₁ := .unshare hr ((hleaves.put ht hkept hsub hrest).not_last
      hok s.put_tasks_self (hgone i hw) hi hr) hun
    refine ⟨heap₁, hun, hok₁, hkept.trans hkept₁, (hf.clear i).kept hkept₁ rfl rfl,
      fun j q hj => ?_, fun j hj => ?_, fun j hj => ?_⟩
    · by_cases hji : j = i
      · rw [hji, (tp.clear_self i).1] at hj
        cases hj
      · exact hsub j q ((tp.clear_of_ne hji).1.symm.trans hj)
    · have hji : j ≠ i := fun he => hj (he ▸ hgone i hw)
      exact (tp.clear_of_ne hji).1.trans (hrest j hj)
    · by_cases hji : j = i
      · exact hji ▸ hgone i hw
      · exact hgone j (hwhich tp i j hji ▸ hj)

/-! ## The calls -/

/-- A call is left in which the task has no descriptor of a filesystem pending. -/
theorem Held.left (h : Held closes s) (ht : s.tasks t = some slave)
    (hpending : slave.pending closes = none) (hkept : Kept closes s.heap heap')
    (hnext : slave'.nextCall = none) (hfsfd : FsfdOk heap' slave') :
    Held closes (s.put t heap' slave') := by
  have hnone : slave'.pending closes = none := pending_eq_none (by rw [hnext]; simp)
  exact h.put hkept (hnone.trans ((h.own_task ht).trans hpending).symm) hfsfd fun _ => hnone

theorem Kept.skipFile (heap : Heap) :
    Kept closes heap { heap with nextFile := heap.nextFile + 1 } :=
  ⟨rfl, rfl, fun _ => rfl, fun _ filep h => ⟨filep, h, rfl⟩⟩

theorem Held.okfsOpen (h : Held closes s) (hok : HeapOk s) (ht : s.tasks t = some slave)
    (hz : slave.zombie = false) (hnext : slave.nextCall = some .afterOkfsOpen)
    (hlast : slave.pending closes ≠ none → 0 ≤ ret ∧ ret < OPEN_MAX) :
    Held closes (s.put t (okfsAfterOkfsOpen s.heap (slave.executed call ret) ret).1
      (okfsAfterOkfsOpen s.heap (slave.executed call ret) ret).2) := by
  have hpending : ¬ (0 ≤ ret ∧ ret < OPEN_MAX) → slave.pending closes = none :=
    fun hret => by_contra fun hp => hret (hlast hp)
  have hfsfd := h.fsfd t slave ht
  unfold okfsAfterOkfsOpen
  by_cases hmax : ret ≥ OPEN_MAX
  · rw [if_pos hmax]
    exact h.left ht (hpending (by omega)) (.refl _) rfl hfsfd
  · rw [if_neg hmax]
    by_cases hneg : ret < 0
    · have hslot : slotOf ret = none := by
        rw [slotOf, dif_neg fun h => absurd h.1 (by omega)]
      rw [hslot]
      exact h.left ht (hpending (by omega)) (.refl _) rfl hfsfd
    · obtain ⟨i, rfl⟩ := exists_slotOf (Int.not_lt.mp hneg) hmax
      rw [slotOf_natCast]
      refine h.add hok ht ?_ rfl rfl (pending_eq_none (by simp [Task.executed])) hz
      rw [Task.pending, if_pos hnext]
      rfl

theorem Held.linuxOpen (h : Held closes s) (hok : HeapOk s) (ht : s.tasks t = some slave)
    (hz : slave.zombie = false) (hpending : slave.pending closes = none) :
    Held closes (s.put t (okfsAfterLinuxOpen s.heap (slave.executed call ret) ret).1
      (okfsAfterLinuxOpen s.heap (slave.executed call ret) ret).2) := by
  have hfsfd := h.fsfd t slave ht
  unfold okfsAfterLinuxOpen
  by_cases hmax : ret ≥ OPEN_MAX
  · rw [if_pos hmax]
    exact h.left ht hpending (.skipFile _) rfl hfsfd
  · rw [if_neg hmax]
    cases hslot : slotOf ret with
    | none => exact h.left ht hpending (.refl _) rfl hfsfd
    | some i =>
      exact h.add hok ht hpending.symm rfl rfl (pending_eq_none (by simp [Task.executed])) hz

/-- `okfs_do_dup`, and what leads to it. -/
theorem Held.doDup (h : Held closes s) (ht : s.tasks t = some slave)
    (hpending : slave.pending closes = none) {newfd : Int}
    (hres : okfsDoDup s.heap (slave.executed call ret) fd newfd = some (heap', slave')) :
    Held closes (s.put t heap' slave') := by
  have hfsfd : FsfdOk s.heap (slave.executed call ret) := h.fsfd t slave ht
  rcases okfsDoDup_inv hres with ⟨-, rfl, rfl⟩ | ⟨i, j, r, -, -, -, hshare, rfl⟩
  · exact h.left ht hpending (.refl _) rfl hfsfd
  · have hkept : Kept closes s.heap heap' := .share hshare
    exact h.left ht hpending hkept rfl (hfsfd.setSlot hkept rfl (.inr ⟨i, rfl, rfl⟩))

theorem Held.dup2 (h : Held closes s) (hok : HeapOk s) (ht : s.tasks t = some slave)
    (hm : Mirrors slave) (hpending : slave.pending closes = none) {oldfd newfd : Int}
    (hans : KernelAnswers slave.kernel (.dup2 oldfd newfd) ret)
    (hlast : 0 ≤ ret → LeavesSlot closes s t fun i => (i.val : Int) = newfd)
    (hres : okfsDup2 s.heap (slave.executed (.dup2 oldfd newfd) ret) oldfd ret =
      some (heap', slave')) : Held closes (s.put t heap' slave') := by
  have hfsfd : FsfdOk s.heap (slave.executed (.dup2 oldfd newfd) ret) := h.fsfd t slave ht
  by_cases hneg : ret < 0
  · rw [okfsDup2, if_pos hneg, Option.some.injEq, Prod.mk.injEq] at hres
    rw [← hres.1, ← hres.2]
    exact h.left ht hpending (.refl _) rfl hfsfd
  obtain ⟨-, -, rfl⟩ := hans.resolve_left hneg
  by_cases hmax : ret ≥ OPEN_MAX
  · rw [okfsDup2, if_neg hneg, if_pos hmax, Option.some.injEq, Prod.mk.injEq] at hres
    rw [← hres.1, ← hres.2]
    exact h.left ht hpending (.refl _) rfl hfsfd
  · obtain ⟨j, rfl⟩ := exists_slotOf (Int.not_lt.mp hneg) hmax
    obtain ⟨heap₁, heap₂, slave₂, heq, -, hold, hnew, hslave₂⟩ :=
      (hok.executed ht (.dup2 oldfd j.val) j.val).dup2 s.put_tasks_self
        (show ∀ i, slave.fdTab i = none → slave.closeOnExec i = false from hm.empty) oldfd j
    rw [State.put_heap, hres, Option.some.injEq, Prod.mk.injEq] at heq
    obtain ⟨rfl, rfl⟩ := heq
    -- what was in the slot goes, and it has another
    have hkept₁ : Kept closes s.heap heap₁ := by
      rcases hold with ⟨-, rfl⟩ | ⟨r, hj, hun⟩
      · exact .refl _
      · obtain ⟨filep, hr⟩ := hok.live ht hj
        exact .unshare hr ((hlast (by omega)).not_last hok ht rfl hj hr) hun
    have hnext : slave'.nextCall = none := by
      rw [hslave₂]
      rfl
    have hfd : slave'.fdTab = Function.update slave.fdTab j
        ((slave.executed (.dup2 oldfd j.val) j.val).dup2File oldfd j) := by
      rw [hslave₂]
      rfl
    rcases hnew with ⟨hnone, rfl, hfsfd'⟩ | ⟨i, r, hnew, hi, hshare, hfsfd'⟩
    · exact h.left ht hpending hkept₁ hnext (hfsfd.setSlot hkept₁ hfd (.inl ⟨hnone, hfsfd'⟩))
    · have hkept : Kept closes s.heap heap' := hkept₁.trans (.share hshare)
      exact h.left ht hpending hkept hnext
        (hfsfd.setSlot hkept hfd (.inr ⟨i, hnew.trans hi.symm, hfsfd'⟩))

theorem Held.fcntl (h : Held closes s) (ht : s.tasks t = some slave)
    (hpending : slave.pending closes = none) {cmd arg : Nat}
    (hres : okfsAfterFcntl s.heap (slave.executed call ret) fd cmd arg ret = some (heap', slave')) :
    Held closes (s.put t heap' slave') := by
  have hfsfd : FsfdOk s.heap (slave.executed call ret) := h.fsfd t slave ht
  unfold okfsAfterFcntl at hres
  split_ifs at hres
  · rw [Option.some.injEq, Prod.mk.injEq] at hres
    rw [← hres.1, ← hres.2]
    exact h.left ht hpending (.refl _) rfl hfsfd
  · rw [Option.some.injEq, Prod.mk.injEq] at hres
    rw [← hres.1, ← hres.2]
    exact h.left ht hpending (.refl _) rfl hfsfd
  · exact h.doDup ht hpending hres
  · obtain ⟨i, -, hret⟩ := Option.bind_eq_some_iff.mp hres
    rw [Option.pure_def, Option.some.injEq, Prod.mk.injEq] at hret
    rw [← hret.1, ← hret.2]
    exact h.left ht hpending (.refl _) rfl hfsfd
  · rw [Option.some.injEq, Prod.mk.injEq] at hres
    rw [← hres.1, ← hres.2]
    exact h.left ht hpending (.refl _) rfl hfsfd

theorem Held.execve (h : Held closes s) (hok : HeapOk s) (ht : s.tasks t = some slave)
    (hpending : slave.pending closes = none)
    (hlast : LeavesSlot closes s t fun i => slave.closeOnExec i = true)
    (hres : closeSlots (fun tp i => tp.closeOnExec i) s.heap (slave.executed .execve ret) =
      some (heap', slave')) : Held closes (s.put t heap' slave') := by
  obtain ⟨heap₁, slave₁, heq, -, hclosed⟩ := (hok.executed ht .execve ret).closeSlots
    s.put_tasks_self (fun tp i => tp.closeOnExec i) clear_closeOnExec_of_ne
  rw [State.put_heap, hres, Option.some.injEq, Prod.mk.injEq] at heq
  obtain ⟨rfl, rfl⟩ := heq
  obtain ⟨hkept, hfsfd⟩ := closeSlots_kept (hok.executed ht .execve ret)
    s.put_tasks_self clear_closeOnExec_of_ne
    (hlast.put ht (.refl s.heap) (fun _ _ h => h) fun _ _ => rfl) (h.fsfd t slave ht) hres
  refine h.left ht hpending hkept ?_ hfsfd
  rw [hclosed.rest]
  rfl

theorem Held.callNext (h : Held closes s) (hok : Ok s) (ht : s.tasks t = some slave)
    (hz : slave.zombie = false) (hcall : slave.call = some call) (hnext : slave.nextCall = some next)
    (hans : KernelAnswers slave.kernel call ret) (hlast : ClosesLast closes s (.leave t ret))
    (hres : callNext closes s.heap (slave.executed call ret) ret next call = some (heap', slave')) :
    Held closes (s.put t heap' slave') := by
  obtain ⟨hlast, hlast'⟩ := hlast slave ht
  have hwaits := (hok.task t slave ht).waits
  have hpending : next ≠ .afterOkfsOpen → slave.pending closes = none := fun hne =>
    pending_eq_none (by rw [hnext]; simpa using hne)
  have hfsfd := h.fsfd t slave ht
  rw [hcall] at hlast'
  rw [hcall, hnext] at hwaits
  cases hwaits with
  | returnSaved =>
    obtain ⟨rfl, rfl⟩ := Prod.mk.inj (Option.some.inj hres)
    exact h.left ht (hpending (by simp)) (.refl _) rfl hfsfd
  | okfsOpen hexec =>
    obtain ⟨rfl, rfl⟩ := Prod.mk.inj (Option.some.inj hres)
    exact h.okfsOpen hok.heap ht hz hnext hlast
  | linuxOpen hexec =>
    obtain ⟨rfl, rfl⟩ := Prod.mk.inj (Option.some.inj hres)
    exact h.linuxOpen hok.heap ht hz (hpending (by simp))
  | @close i r hi =>
    obtain ⟨filep, heap₁, hr, hun, heq, -⟩ := (hok.heap.executed ht (.close i.val) ret).afterClose
      closes s.put_tasks_self (show (slave.executed (.close i.val) ret).fdTab i = some r from hi)
    obtain ⟨rfl, rfl⟩ := Prod.mk.inj (Option.some.inj (heq.symm.trans hres))
    have h₁ : Held closes (s.put t s.heap (slave.executed (.close i.val) ret)) :=
      h.left ht (hpending (by simp)) (.refl _) rfl hfsfd
    have h₂ := h₁.close s.put_tasks_self hz hi hr hun
    rwa [State.put_put] at h₂
  | dup hi =>
    have hres : okfsDup s.heap _ _ ret = _ := hres
    unfold okfsDup at hres
    split at hres
    · obtain ⟨rfl, rfl⟩ := Prod.mk.inj (Option.some.inj hres)
      exact h.left ht (hpending (by simp)) (.refl _) rfl hfsfd
    · exact h.doDup ht (hpending (by simp)) hres
  | dup2 => exact h.dup2 hok.heap ht (hok.task t slave ht).mirrors (hpending (by simp)) hans hlast' hres
  | fcntl hi => exact h.fcntl ht (hpending (by simp)) hres
  | fork => cases hres
  | execve =>
    by_cases hneg : ret < 0
    · rw [FdTab.callNext, if_pos hneg] at hres
      obtain ⟨rfl, rfl⟩ := Prod.mk.inj (Option.some.inj hres)
      exact h.left ht (hpending (by simp)) (.refl _) rfl hfsfd
    · rw [FdTab.callNext, if_neg hneg] at hres
      exact h.execve hok.heap ht (hpending (by simp)) (hlast' (Int.not_lt.mp hneg)) hres

/-- Only the counts change at a fork. -/
theorem Kept.counts {files' : OkfsFileRef → Option OkfsFile} {extra : OkfsFileRef → Int}
    (hfiles : ∀ r, files' r = (heap.files r).map fun filep =>
      { filep with nshared := filep.nshared + extra r }) :
    Kept closes heap { heap with files := files' } := by
  refine ⟨rfl, rfl, fun r => ?_, fun r filep' hr => ?_⟩
  · rw [Heap.owns, Heap.owns]
    show ((files' r).bind _).filter _ = _
    rw [hfiles]
    cases heap.files r <;> rfl
  · obtain ⟨filep, hold, rfl⟩ := Option.map_eq_some_iff.mp ((hfiles r).symm.trans hr)
    exact ⟨filep, hold, rfl⟩

theorem Held.leave (h : Held closes s) (hok : Ok s) (hadm : Admissible closes s (.leave t ret))
    (hlast : ClosesLast closes s (.leave t ret)) (hs' : leave closes s t ret = some s') :
    Held closes s' := by
  obtain ⟨slave, call, ht, hz, hcall, hans⟩ := hadm
  have hfsfd : FsfdOk s.heap (slave.executed call ret) := h.fsfd t slave ht
  cases hnext : slave.nextCall with
  | none =>
    unfold FdTab.leave at hs'
    rw [ht] at hs'
    simp only [Option.bind_eq_bind, Option.bind_some, hcall, hnext, Option.pure_def,
      Option.some.injEq] at hs'
    rw [← hs']
    exact h.left ht (pending_eq_none (by rw [hnext]; simp)) (.refl _) rfl hfsfd
  | some next =>
    by_cases hfork : next = .afterFork
    · subst hfork
      have hpending : slave.pending closes = none := pending_eq_none (by rw [hnext]; simp)
      by_cases hneg : ret < 0
      · unfold FdTab.leave at hs'
        rw [ht] at hs'
        simp only [Option.bind_eq_bind, Option.bind_some, hcall, hnext, if_pos hneg, Option.pure_def,
          Option.some.injEq] at hs'
        rw [← hs']
        exact h.left ht hpending (.refl _) rfl hfsfd
      · obtain ⟨files', heq, hfiles, -⟩ := leave_fork closes hok ht hcall hnext hz hneg
        obtain rfl := Option.some.inj (heq.symm.trans hs')
        have hkept : Kept closes s.heap { s.heap with files := files' } := .counts hfiles
        have hparent := h.left ht hpending hkept rfl (hfsfd.kept hkept rfl rfl)
        have hne : s.nextTask ≠ t := Nat.ne_of_gt (hok.heap.lt ht)
        have hchild : Task.pending closes (slave.executed call ret).child = none :=
          pending_eq_none (by simp [Task.child])
        have hforked : Held closes ((s.put t { s.heap with files := files' }
            (slave.executed call ret)).put s.nextTask { s.heap with files := files' }
              (slave.executed call ret).child) := by
          refine hparent.put (.refl _) ?_ (hfsfd.kept hkept rfl rfl) fun _ => hchild
          rw [hchild, State.own, State.put_tasks_of_ne s hne,
            hok.heap.bounded _ (Nat.le_refl _), Option.bind_none]
        exact ⟨hforked.owned, hforked.fsfd, hforked.ended, hforked.once⟩
    · obtain ⟨heap', slave', hres, -⟩ := callNext_left closes hok ht hcall hnext hfork hans
      obtain rfl := Option.some.inj ((leave_eq ht hcall hnext hfork hres).symm.trans hs')
      exact h.callNext hok ht hz hcall hnext hans hlast hres

/-! ## Runs -/

/-- A call is entered that opens nothing. -/
theorem Held.entered (h : Held closes s) (ht : s.tasks t = some slave) (hnext : slave.nextCall = none)
    (hheap : heap' = s.heap) (hnext' : slave'.nextCall ≠ some .afterOkfsOpen)
    (hfd : slave'.fdTab = slave.fdTab) (hfsfd : slave'.fsfd = slave.fsfd) :
    Held closes (s.put t heap' slave') := by
  subst hheap
  have hnone : slave'.pending closes = none := pending_eq_none hnext'
  have hkept : Kept closes s.heap s.heap := .refl _
  refine h.put hkept ?_ ((h.fsfd t slave ht).kept hkept hfd hfsfd) fun _ => hnone
  rw [hnone, h.own_task ht, pending_eq_none (by rw [hnext]; simp)]

theorem Held.beforeOpen (h : Held closes s) (ht : s.tasks t = some slave) (hz : slave.zombie = false)
    (hnext : slave.nextCall = none) {executed : Call} {resolved : Resolved}
    (hfree : match resolved with
      | .okfs fsp ret => closes fsp = true → 0 ≤ ret → s.heap.opened (fsp, ret) = false
      | _ => True)
    {entered : Task} (hentered : entered = { slave with call := entered.call, nextCall := none }) :
    Held closes (s.put t (okfsBeforeOpen executed s.heap entered resolved).1
      (okfsBeforeOpen executed s.heap entered resolved).2) := by
  have hfd : entered.fdTab = slave.fdTab := by rw [hentered]
  have hfsfd : entered.fsfd = slave.fsfd := by rw [hentered]
  cases resolved with
  | failed e => exact h.entered ht hnext rfl (by simp [okfsBeforeOpen, forceCallReturn]) hfd hfsfd
  | linux => exact h.entered ht hnext rfl (by simp [okfsBeforeOpen]) hfd hfsfd
  | okfs fsp ret =>
    rw [okfsBeforeOpen]
    by_cases hneg : ret < 0
    · rw [if_pos hneg]
      exact h.entered ht hnext rfl (by simp [forceCallReturn]) hfd hfsfd
    · rw [if_neg hneg]
      refine h.acquire ht hnext (fun hc => hfree hc (Int.not_lt.mp hneg)) rfl
        ⟨rfl, rfl, rfl, ?_, hfd, hfsfd⟩
      show entered.zombie = false
      rw [hentered]
      exact hz

theorem okfsBeforeFcntl_next {cmd : Nat} (hnext : slave.nextCall = none)
    (h : okfsBeforeFcntl heap slave fd cmd = some slave') :
    slave'.nextCall ≠ some .afterOkfsOpen ∧ slave'.fdTab = slave.fdTab ∧
      slave'.fsfd = slave.fsfd := by
  unfold okfsBeforeFcntl at h
  split at h
  · obtain rfl := Option.some.inj h
    exact ⟨by rw [hnext]; simp, rfl, rfl⟩
  · obtain ⟨filep, -, h⟩ := Option.bind_eq_some_iff.mp h
    split_ifs at h <;> obtain rfl := Option.some.inj h <;>
      exact ⟨by simp [forceCallReturn], rfl, rfl⟩

theorem Held.enter (h : Held closes s) (hok : Ok s) {resolved : Resolved}
    (hadm : Admissible closes s (.enter t call resolved))
    (hs' : enter s t call resolved = some s') : Held closes s' := by
  obtain ⟨slave, ht, hz, hcall, hfree⟩ := hadm
  have hwaits := (hok.task t slave ht).waits
  rw [hcall] at hwaits
  have hnext : slave.nextCall = none := by
    cases hn : slave.nextCall with
    | none => rfl
    | some next =>
      rw [hn] at hwaits
      cases hwaits
  unfold FdTab.enter at hs'
  rw [ht] at hs'
  simp only [Option.bind_eq_bind, Option.bind_some, Option.bind_eq_some_iff] at hs'
  obtain ⟨⟨heap', slave'⟩, hres, hput⟩ := hs'
  obtain rfl := Option.some.inj hput
  cases call with
  | «open» =>
    obtain ⟨rfl, rfl⟩ := Prod.mk.inj (Option.some.inj hres)
    exact h.beforeOpen ht hz hnext hfree rfl
  | creat =>
    obtain ⟨rfl, rfl⟩ := Prod.mk.inj (Option.some.inj hres)
    exact h.beforeOpen ht hz hnext hfree rfl
  | close fd | dup fd =>
    obtain ⟨rfl, rfl⟩ := Prod.mk.inj (Option.some.inj hres)
    unfold okfsOpOnFd
    split <;> exact h.entered ht hnext rfl (by simp [callAfter]) rfl rfl
  | fcntl fd cmd arg =>
    have hres : (okfsBeforeFcntl s.heap { slave with
        call := some (.fcntl fd cmd arg), nextCall := none } fd cmd).map (s.heap, ·) =
      some (heap', slave') := hres
    obtain ⟨slave₁, hfcntl, heq⟩ := Option.map_eq_some_iff.mp hres
    obtain ⟨rfl, rfl⟩ := Prod.mk.inj heq
    obtain ⟨hne, hfd, hfsfd⟩ := okfsBeforeFcntl_next rfl hfcntl
    exact h.entered ht hnext rfl hne hfd hfsfd
  | dup2 _ _ | fork | execve | exit | getpid | number _ =>
    obtain ⟨rfl, rfl⟩ := Prod.mk.inj (Option.some.inj hres)
    exact h.entered ht hnext rfl (by simp [callAfter, forceCallReturn]) rfl rfl

theorem Held.die (h : Held closes s) (hok : HeapOk s) (ht : s.tasks t = some slave)
    (hpending : slave.pending closes = none) (hlast : LeavesSlot closes s t fun _ => True)
    (hs' : die s t = some s') : Held closes s' := by
  obtain ⟨heap', slave', hres, heq, -, -, hclosed⟩ := die_spec hok ht
  obtain rfl := Option.some.inj (heq.symm.trans hs')
  have h₁ : HeapOk (s.put t s.heap slave.ended) := hok.put_same ht rfl rfl (Nat.le_refl _)
  have hleaves : LeavesSlot closes (s.put t s.heap slave.ended) t fun _ => True :=
    hlast.put ht (.refl s.heap) (fun _ _ h => h) fun _ _ => rfl
  obtain ⟨hkept, hfsfd⟩ := closeSlots_kept h₁ s.put_tasks_self (fun _ _ _ _ => rfl)
    (by simpa using hleaves) (h.fsfd t slave ht) hres
  refine h.left ht hpending hkept ?_ hfsfd
  rw [hclosed.rest]
  rfl

theorem Held.reap (h : Held closes s) (ht : s.tasks t = some slave) (hz : slave.zombie = true) :
    Held closes { s with tasks := Function.update s.tasks t none } := by
  have hown : State.own closes { s with tasks := Function.update s.tasks t none } = s.own closes := by
    funext u
    cases u with
    | file r => rfl
    | task u =>
      show ((Function.update s.tasks t none u).bind _ : Option (FsRef × Int)) = _
      by_cases hut : u = t
      · rw [hut, Function.update_self, h.own_task ht, h.ended t slave ht hz]
        rfl
      · rw [Function.update_of_ne hut, State.own]
  have hother : ∀ u tp, Function.update s.tasks t none u = some tp → s.tasks u = some tp := by
    intro u tp hu
    by_cases hut : u = t
    · rw [hut, Function.update_self] at hu
      cases hu
    · rwa [Function.update_of_ne hut] at hu
  exact ⟨hown ▸ h.owned, fun u tp hu => h.fsfd u tp (hother u tp hu),
    fun u tp hu => h.ended u tp (hother u tp hu), h.once⟩

theorem Held.step (h : Held closes s) (hok : Ok s) {e : Event} (hadm : Admissible closes s e)
    (hlast : ClosesLast closes s e) (hs' : step closes s e = some s') : Held closes s' := by
  cases e with
  | enter t call resolved => exact h.enter hok hadm hs'
  | leave t ret => exact h.leave hok hadm hlast hs'
  | die t =>
    obtain ⟨slave, ht, -⟩ := hadm
    exact h.die hok.heap ht (hlast.1 slave ht) hlast.2 hs'
  | reap t =>
    obtain ⟨slave, ht, hz⟩ := hadm
    obtain rfl := Option.some.inj hs'
    exact h.reap ht hz

theorem Held.start (inherited : Nat → Option Bool) : Held closes (start inherited) := by
  have htask : ∀ t slave, (FdTab.start inherited).tasks t = some slave →
      slave = firstSlave inherited := by
    intro t slave ht
    by_cases h0 : t = 0
    · rw [h0, start_tasks_zero] at ht
      exact (Option.some.inj ht).symm
    · rw [start_tasks_of_ne inherited h0] at ht
      cases ht
  have hown : ∀ u, (FdTab.start inherited).own closes u = none := by
    intro u
    cases u with
    | file r => rfl
    | task t =>
      rw [State.own, Option.bind_eq_none_iff]
      rintro slave ht
      rw [htask t slave ht]
      exact pending_eq_none (by simp [firstSlave])
  refine ⟨⟨fun o => ?_, fun u v o hu => ?_⟩, fun t slave ht i r filep hi => ?_, fun t slave ht hz => ?_,
    rfl⟩
  · simp only [hown]
    rw [Heap.opens, show (FdTab.start inherited).heap.opened o = false from rfl, Bool.and_false]
    simp
  · rw [hown] at hu
    cases hu
  · rw [htask t slave ht] at hi
    cases hi
  · rw [htask t slave ht]
    exact pending_eq_none (by simp [firstSlave])

/-- A slot, or an open that has not come to its end, refers to the descriptor. -/
def Referred (s : State) (o : FsRef × Int) : Prop :=
  (∃ t slave i r filep, s.tasks t = some slave ∧ slave.fdTab i = some r ∧
    s.heap.files r = some filep ∧ filep.fsp = some o.1 ∧ slave.fsfd i = o.2) ∨
  ∃ t slave, s.tasks t = some slave ∧ slave.nextCall = some .afterOkfsOpen ∧
    slave.arg1Fsp = some o.1 ∧ slave.retvalSaved = o.2

theorem pending_eq_some {o : FsRef × Int} : slave.pending closes = some o ↔
    slave.nextCall = some .afterOkfsOpen ∧ slave.arg1Fsp = some o.1 ∧ slave.retvalSaved = o.2 ∧
      closes o.1 = true := by
  rw [Task.pending, Option.filter_eq_some_iff]
  by_cases hnext : slave.nextCall = some .afterOkfsOpen
  · rw [if_pos hnext, Option.map_eq_some_iff]
    constructor
    · rintro ⟨⟨fsp, hfsp, rfl⟩, hc⟩
      exact ⟨hnext, hfsp, rfl, hc⟩
    · rintro ⟨-, harg, hret, hc⟩
      exact ⟨⟨o.1, harg, by rw [hret]⟩, hc⟩
  · rw [if_neg hnext]
    simp [hnext]

/-- What is owned is referred to: a file has a slot. -/
theorem Held.referred (h : Held closes s) (hok : HeapOk s) {o : FsRef × Int}
    (hc : closes o.1 = true) : s.heap.opened o = true ↔ Referred s o := by
  have hopens : s.heap.opened o = true ↔ s.heap.opens closes o = true := by
    rw [Heap.opens, hc, Bool.true_and]
  rw [hopens, h.owned.opened_iff]
  constructor
  · rintro ⟨u, hu⟩
    cases u with
    | file r =>
      obtain ⟨filep, hr, hfsp, hopened, -⟩ := Heap.owns_eq_some.mp hu
      have hcount : s.heap.counts r = some filep.nshared := by rw [Heap.counts, hr, Option.map_some]
      obtain ⟨heq, hpos⟩ := hok.counted.counted r _ hcount
      obtain ⟨⟨t, i⟩, hi⟩ : ∃ x : TaskRef × Slot, s.rows x.1 x.2 = some r := by
        rw [heq, total_eq_card, Int.natCast_pos, Finset.card_pos] at hpos
        obtain ⟨x, hx⟩ := hpos
        exact ⟨x, (Finset.mem_filter.mp hx).2⟩
      obtain ⟨slave, ht, hi⟩ := Option.bind_eq_some_iff.mp hi
      exact .inl ⟨t, slave, i, r, filep, ht, hi, hr, hfsp,
        (h.fsfd t slave ht i r filep hi hr).trans hopened⟩
    | task t =>
      obtain ⟨slave, ht, hp⟩ := Option.bind_eq_some_iff.mp hu
      obtain ⟨hnext, harg, hret, -⟩ := pending_eq_some.mp hp
      exact .inr ⟨t, slave, ht, hnext, harg, hret⟩
  · rintro (⟨t, slave, i, r, filep, ht, hi, hr, hfsp, hfsfd⟩ | ⟨t, slave, ht, hnext, harg, hret⟩)
    · exact ⟨.file r, Heap.owns_eq_some.mpr ⟨filep, hr, hfsp,
        (h.fsfd t slave ht i r filep hi hr).symm.trans hfsfd, hc⟩⟩
    · exact ⟨.task t, (h.own_task ht).trans (pending_eq_some.mpr ⟨hnext, harg, hret, hc⟩)⟩

/-- A file of a filesystem is opened as descriptor 3, and closed. -/
def openClose : List Event :=
  [.enter 0 .open (.okfs 0 7), .leave 0 3, .enter 0 (.close 3) .linux, .leave 0 0]

/-- A file of a filesystem is opened as descriptor 3, and the standard input duplicated there. -/
def dupOntoLast : List Event :=
  [.enter 0 .open (.okfs 0 7), .leave 0 3, .enter 0 (.dup2 0 3) .linux, .leave 0 3]

end FdTab

end Okfs
