import Okfs.Lib.RefTable
import Okfs.Lib.Runs
import Okfs.Task.FdTab

/-!
# OKFS — sharing of open files

`nshared` is kept by hand, in `add_new_fd`, `okfs_do_dup`, `okfs_close_fd` and
`add_slave`. In every reachable state it is the number of slots that hold the file; a
freed file is in no slot; and the slots of a task are descriptors of its kernel table,
with the same close-on-exec flags. The last part carries the first: a slot is taken
without looking whether it is empty, and it is, since the kernel hands out descriptors
that are not open.
-/

namespace Okfs

namespace FdTab

open RefTable

/-! ## Slots -/

def State.rows (s : State) (t : TaskRef) (i : Slot) : Option OkfsFileRef :=
  (s.tasks t).bind fun tp => tp.fdTab i

def Heap.counts (heap : Heap) (r : OkfsFileRef) : Option Int := (heap.files r).map OkfsFile.nshared

variable {s s' : State} {t : TaskRef} {heap heap' : Heap} {slave slave' : Task} {i j : Slot}
  {r : OkfsFileRef} {fd ret : Int} {closes : Closes}

theorem slotOf_natCast (i : Slot) : slotOf (i.val : Int) = some i := by
  have hlt := i.isLt
  rw [slotOf, dif_pos ⟨Int.natCast_nonneg _, by exact_mod_cast hlt⟩]
  simp

theorem slotOf_eq_some : slotOf fd = some i ↔ fd = (i.val : Int) := by
  constructor
  · intro h
    unfold slotOf at h
    split at h
    · rename_i hfd
      rw [← Option.some.inj h]
      exact (Int.toNat_of_nonneg hfd.1).symm
    · cases h
  · rintro rfl
    exact slotOf_natCast i

theorem exists_slotOf (h : 0 ≤ fd) (hlt : ¬ fd ≥ OPEN_MAX) : ∃ i : Slot, fd = (i.val : Int) := by
  refine ⟨⟨fd.toNat, by omega⟩, (Int.toNat_of_nonneg h).symm⟩

theorem Task.file_eq_some : slave.file fd = some r ↔ ∃ i : Slot, fd = (i.val : Int) ∧
    slave.fdTab i = some r := by
  rw [Task.file, Option.bind_eq_some_iff]
  simp only [slotOf_eq_some]

theorem Task.file_natCast (slave : Task) (i : Slot) : slave.file (i.val : Int) = slave.fdTab i := by
  rw [Task.file, slotOf_natCast, Option.bind_some]

@[simp] theorem State.put_heap (s : State) : (s.put t heap slave).heap = heap := rfl

@[simp] theorem State.put_nextTask (s : State) : (s.put t heap slave).nextTask = s.nextTask := rfl

@[simp] theorem State.put_tasks_self (s : State) : (s.put t heap slave).tasks t = some slave :=
  Function.update_self ..

@[simp] theorem State.put_tasks_of_ne (s : State) {u : TaskRef} (h : u ≠ t) :
    (s.put t heap slave).tasks u = s.tasks u :=
  Function.update_of_ne h ..

@[simp] theorem State.put_put (s : State) :
    (s.put t heap slave).put t heap' slave' = s.put t heap' slave' := by
  rw [State.put, State.put, State.put, Function.update_idem]

/-- One task is put, and the others have the property already. -/
theorem forall_put (heap : Heap) {Q : Task → Prop} (h : ∀ u tp, s.tasks u = some tp → Q tp) (hslave : Q slave) :
    ∀ u tp, (s.put t heap slave).tasks u = some tp → Q tp := by
  intro u tp hu
  by_cases hut : u = t
  · rw [hut, State.put_tasks_self, Option.some.injEq] at hu
    exact hu ▸ hslave
  · rw [State.put_tasks_of_ne s hut] at hu
    exact h u tp hu

theorem State.rows_eq (h : s.tasks t = some slave) : s.rows t = slave.fdTab := by
  funext i
  rw [State.rows, h, Option.bind_some]

theorem State.rows_put (s : State) :
    (s.put t heap slave).rows = Function.update s.rows t slave.fdTab := by
  funext u i
  by_cases hu : u = t
  · rw [hu, Function.update_self, State.rows, State.put_tasks_self, Option.bind_some]
  · rw [Function.update_of_ne hu, State.rows, State.put_tasks_of_ne s hu, State.rows]

/-! ## Counting -/

structure HeapOk (s : State) : Prop where
  counted : Counted s.nextTask s.rows s.heap.counts
  fresh : ∀ r, s.heap.nextFile ≤ r → s.heap.files r = none
  bounded : ∀ t, s.nextTask ≤ t → s.tasks t = none

theorem HeapOk.lt (h : HeapOk s) (ht : s.tasks t = some slave) : t < s.nextTask := by
  by_contra hle
  rw [h.bounded t (Nat.le_of_not_lt hle)] at ht
  cases ht

theorem HeapOk.live (h : HeapOk s) (ht : s.tasks t = some slave) (hi : slave.fdTab i = some r) :
    ∃ filep, s.heap.files r = some filep := by
  obtain ⟨c, hc⟩ := h.counted.live t i r (by rw [State.rows_eq ht]; exact hi)
  obtain ⟨filep, hfile, -⟩ := Option.map_eq_some_iff.mp hc
  exact ⟨filep, hfile⟩

theorem HeapOk.put_bounded (h : HeapOk s) (ht : s.tasks t = some slave) :
    ∀ u, s.nextTask ≤ u → (s.put t heap slave').tasks u = none := by
  intro u hu
  rw [State.put_tasks_of_ne s (Nat.ne_of_gt (Nat.lt_of_lt_of_le (h.lt ht) hu))]
  exact h.bounded u hu

theorem HeapOk.put_same (h : HeapOk s) (ht : s.tasks t = some slave)
    (hfd : slave'.fdTab = slave.fdTab) (hfiles : heap'.files = s.heap.files)
    (hnext : s.heap.nextFile ≤ heap'.nextFile) : HeapOk (s.put t heap' slave') := by
  refine ⟨?_, fun r hr => ?_, h.put_bounded ht⟩
  · rw [State.put_nextTask, State.rows_put, hfd, ← State.rows_eq ht, Function.update_eq_self,
      State.put_heap, show heap'.counts = s.heap.counts by funext r; rw [Heap.counts, hfiles]; rfl]
    exact h.counted
  · rw [State.put_heap, hfiles]
    exact h.fresh r (Nat.le_trans hnext hr)

theorem Heap.counts_setFile (heap : Heap) (r : OkfsFileRef) (filep : Option OkfsFile) :
    (heap.setFile r filep).counts = Function.update heap.counts r (filep.map OkfsFile.nshared) := by
  funext q
  show (Function.update heap.files r filep q).map OkfsFile.nshared = _
  by_cases hq : q = r
  · rw [hq, Function.update_self, Function.update_self]
  · rw [Function.update_of_ne hq, Function.update_of_ne hq, Heap.counts]

/-- The table has one slot changed, and the file of it. -/
theorem HeapOk.put_setFile (h : HeapOk s) (ht : s.tasks t = some slave) {filep : OkfsFile}
    (hr : s.heap.files r = some filep) {o : Option OkfsFile}
    (hcounted : Counted s.nextTask
      (Function.update s.rows t slave'.fdTab) (Function.update s.heap.counts r (o.map OkfsFile.nshared))) :
    HeapOk (s.put t (s.heap.setFile r o) slave') := by
  refine ⟨?_, fun q hq => ?_, h.put_bounded ht⟩
  · rw [State.put_nextTask, State.rows_put, State.put_heap, Heap.counts_setFile]
    exact hcounted
  · rw [State.put_heap, Heap.setFile]
    show Function.update s.heap.files r o q = none
    rw [Function.update_of_ne]
    · exact h.fresh q hq
    · rintro rfl
      rw [h.fresh q hq] at hr
      cases hr

theorem Heap.share_eq {filep : OkfsFile} (hr : heap.files r = some filep) :
    heap.share r = some (heap.setFile r (some { filep with nshared := filep.nshared + 1 })) := by
  rw [Heap.share, hr]
  rfl

theorem Heap.unshare_eq {filep : OkfsFile} (hr : heap.files r = some filep) :
    heap.unshare r = some (heap.setFile r (if filep.nshared - 1 = 0 then none
      else some { filep with nshared := filep.nshared - 1 })) := by
  rw [Heap.unshare, hr]
  rfl

/-- A slot is closed. -/
theorem HeapOk.close (h : HeapOk s) (ht : s.tasks t = some slave) (hi : slave.fdTab i = some r) :
    ∃ heap', s.heap.unshare r = some heap' ∧ okfsCloseFd s.heap slave i = some (heap', slave.clear i) ∧
      HeapOk (s.put t heap' (slave.clear i)) := by
  obtain ⟨filep, hr⟩ := h.live ht hi
  have hun := Heap.unshare_eq hr
  refine ⟨_, hun, by rw [okfsCloseFd, hi]; simp only [Option.bind_eq_bind, Option.bind_some, hun]; rfl,
    h.put_setFile ht hr ?_⟩
  have hcount : s.heap.counts r = some filep.nshared := by rw [Heap.counts, hr, Option.map_some]
  have hcounted := h.counted.unshare (t := t) (i := i) (by rw [State.rows_eq ht]; exact hi) hcount
  rw [State.rows_eq ht] at hcounted
  rw [show (if filep.nshared - 1 = 0 then none else some { filep with nshared := filep.nshared - 1 } :
    Option OkfsFile).map OkfsFile.nshared =
      if filep.nshared - 1 = 0 then none else some (filep.nshared - 1) by split <;> rfl]
  exact hcounted

/-- A slot is copied to an empty one. -/
theorem HeapOk.copy (h : HeapOk s) (ht : s.tasks t = some slave) (hi : slave.fdTab i = some r)
    (hj : slave.fdTab j = none) :
    ∃ heap', s.heap.share r = some heap' ∧
      okfsDoDup s.heap slave (i.val : Int) (j.val : Int) = some (heap', slave.copy i j) ∧
      HeapOk (s.put t heap' (slave.copy i j)) := by
  obtain ⟨filep, hr⟩ := h.live ht hi
  have hshare := Heap.share_eq hr
  refine ⟨_, hshare, ?_, h.put_setFile ht hr ?_⟩
  · rw [okfsDoDup, if_neg (by omega), slotOf_natCast, slotOf_natCast]
    simp only [Option.bind_eq_bind, Option.bind_some, hi, hshare]
    rfl
  · have hcount : s.heap.counts r = some filep.nshared := by rw [Heap.counts, hr, Option.map_some]
    have hcounted := h.counted.share (h.lt ht) (i := j) (by rw [State.rows_eq ht]; exact hj) hcount
    rw [State.rows_eq ht] at hcounted
    rw [Task.copy, hi]
    exact hcounted

theorem okfsDoDup_inv {oldfd newfd : Int}
    (h : okfsDoDup heap slave oldfd newfd = some (heap', slave')) :
    newfd < 0 ∧ heap' = heap ∧ slave' = slave ∨
      ∃ (i j : Slot) (r : OkfsFileRef), oldfd = (i.val : Int) ∧ newfd = (j.val : Int) ∧
        slave.fdTab i = some r ∧ heap.share r = some heap' ∧ slave' = slave.copy i j := by
  unfold okfsDoDup at h
  split at h
  · rename_i hneg
    rw [Option.some.injEq, Prod.mk.injEq] at h
    exact .inl ⟨hneg, h.1.symm, h.2.symm⟩
  · simp only [Option.bind_eq_bind, Option.bind_eq_some_iff] at h
    obtain ⟨i, hi, j, hj, r, hr, heap₁, hshare, hret⟩ := h
    rw [Option.pure_def, Option.some.injEq, Prod.mk.injEq] at hret
    exact .inr ⟨i, j, r, slotOf_eq_some.mp hi, slotOf_eq_some.mp hj, hr, hret.1 ▸ hshare, hret.2.symm⟩

/-- A new file is put in an empty slot. -/
theorem HeapOk.add (h : HeapOk s) (ht : s.tasks t = some slave) (hfd : slave'.fdTab = slave.fdTab)
    (hi : slave.fdTab i = none) (fsp : Option FsRef) (fsfd : Int) :
    HeapOk (s.put t (addNewFd s.heap slave' fsp i fsfd).1 (addNewFd s.heap slave' fsp i fsfd).2) := by
  have hnone : s.heap.counts s.heap.nextFile = none := by
    rw [Heap.counts, h.fresh _ (Nat.le_refl _), Option.map_none]
  have hcounted := h.counted.create (h.lt ht) (i := i) (by rw [State.rows_eq ht]; exact hi) hnone
  rw [State.rows_eq ht] at hcounted
  refine ⟨?_, fun r hr => ?_, h.put_bounded ht⟩
  · rw [State.put_nextTask, State.rows_put, State.put_heap]
    convert hcounted using 1
    · rw [addNewFd, hfd]
    · exact Heap.counts_setFile s.heap s.heap.nextFile (some ⟨fsp, 1, fsfd⟩)
  · have hr : s.heap.nextFile + 1 ≤ r := hr
    show Function.update s.heap.files s.heap.nextFile (some ⟨fsp, 1, fsfd⟩) r = none
    rw [Function.update_of_ne (Nat.ne_of_gt hr)]
    exact h.fresh r (Nat.le_of_succ_le hr)

/-! ## The loops -/

/-- The slots of `gone` are closed. -/
structure Closed (gone : Slot → Prop) (slave slave' : Task) : Prop where
  empty : ∀ i, gone i → slave'.fdTab i = none
  kept : ∀ i, ¬ gone i → slave'.fdTab i = slave.fdTab i ∧ slave'.closeOnExec i = slave.closeOnExec i
  cleared : ∀ i, slave'.fdTab i = slave.fdTab i ∧ slave'.closeOnExec i = slave.closeOnExec i ∨
    slave'.closeOnExec i = false
  rest : slave' = { slave with fdTab := slave'.fdTab, closeOnExec := slave'.closeOnExec }

theorem Task.clear_self (slave : Task) (i : Slot) :
    (slave.clear i).fdTab i = none ∧ (slave.clear i).closeOnExec i = false :=
  ⟨Function.update_self .., Function.update_self ..⟩

theorem Task.clear_of_ne (slave : Task) (h : j ≠ i) :
    (slave.clear i).fdTab j = slave.fdTab j ∧
      (slave.clear i).closeOnExec j = slave.closeOnExec j :=
  ⟨Function.update_of_ne h .., Function.update_of_ne h ..⟩

variable {which : Task → Slot → Bool} {P : Heap → Task → Prop}

/-- Closing keeps `P`, so the loop does, and it leaves none of its slots out. -/
theorem closeSlots_fold
    (hwhich : ∀ tp (i j : Slot), j ≠ i → which (tp.clear i) j = which tp j)
    (hclose : ∀ heap slave i r, P heap slave → slave.fdTab i = some r → which slave i = true →
      ∃ heap', heap.unshare r = some heap' ∧ P heap' (slave.clear i))
    (l : List Slot) (heap : Heap) (slave : Task) (h : P heap slave) :
    ∃ heap' slave', l.foldlM (fun (hs : Heap × Task) i =>
        if (hs.2.fdTab i).isSome && which hs.2 i then okfsCloseFd hs.1 hs.2 i else some hs)
        (heap, slave) = some (heap', slave') ∧
      P heap' slave' ∧ Closed (fun i => i ∈ l ∧ which slave i = true) slave slave' := by
  induction l generalizing heap slave with
  | nil =>
    exact ⟨heap, slave, rfl, h, fun _ hi => (List.not_mem_nil hi.1).elim, fun _ _ => ⟨rfl, rfl⟩,
      fun _ => .inl ⟨rfl, rfl⟩, rfl⟩
  | cons i l ih =>
    rw [List.foldlM_cons]
    by_cases hi : ((slave.fdTab i).isSome && which slave i) = true
    · obtain ⟨hsome, hw⟩ := Bool.and_eq_true_iff.mp hi
      obtain ⟨r, hr⟩ := Option.isSome_iff_exists.mp hsome
      obtain ⟨heap₁, hun, h₁⟩ := hclose heap slave i r h hr hw
      have hclosed : okfsCloseFd heap slave i = some (heap₁, slave.clear i) := by
        rw [okfsCloseFd, hr]
        simp only [Option.bind_eq_bind, Option.bind_some, hun]
        rfl
      obtain ⟨heap', slave', hfold, hP, hc⟩ := ih heap₁ (slave.clear i) h₁
      rw [if_pos hi, hclosed]
      refine ⟨heap', slave', hfold, hP, fun j hj => ?_, fun j hj => ?_, fun j => ?_, ?_⟩
      · by_cases hji : j = i
        · subst hji
          by_cases hl : j ∈ l ∧ which (slave.clear j) j = true
          · exact hc.empty j hl
          · exact (hc.kept j hl).1.trans (slave.clear_self j).1
        · exact hc.empty j ⟨(List.mem_cons.mp hj.1).resolve_left hji, by rw [hwhich _ _ _ hji]; exact hj.2⟩
      · have hji : j ≠ i := fun he => hj ⟨he ▸ List.mem_cons_self, he ▸ hw⟩
        have hold := hc.kept j fun hl => hj ⟨List.mem_cons_of_mem i hl.1, hwhich slave i j hji ▸ hl.2⟩
        exact ⟨hold.1.trans (slave.clear_of_ne hji).1, hold.2.trans (slave.clear_of_ne hji).2⟩
      · by_cases hji : j = i
        · subst hji
          rcases hc.cleared j with ⟨-, hj⟩ | hj
          · exact .inr (hj.trans (slave.clear_self j).2)
          · exact .inr hj
        · rcases hc.cleared j with ⟨hj, hj'⟩ | hj
          · exact .inl ⟨hj.trans (slave.clear_of_ne hji).1, hj'.trans (slave.clear_of_ne hji).2⟩
          · exact .inr hj
      · rw [hc.rest]
        rfl
    · obtain ⟨heap', slave', hfold, hP, hc⟩ := ih heap slave h
      rw [if_neg hi]
      refine ⟨heap', slave', hfold, hP, fun j hj => ?_, fun j hj => ?_, hc.cleared, hc.rest⟩
      · by_cases hl : j ∈ l
        · exact hc.empty j ⟨hl, hj.2⟩
        · -- the slot is skipped, as it was empty
          have hji : j = i := (List.mem_cons.mp hj.1).resolve_right hl
          have hnone : slave.fdTab j = none := by
            cases hj' : slave.fdTab j with
            | none => rfl
            | some r =>
              refine absurd ?_ hi
              rw [← hji, hj', hj.2]
              rfl
          exact (hc.kept j fun hl' => hl hl'.1).1.trans hnone
      · exact hc.kept j fun hl => hj ⟨List.mem_cons_of_mem i hl.1, hl.2⟩

theorem closeSlots_spec (heap : Heap) (slave : Task)
    (hwhich : ∀ tp (i j : Slot), j ≠ i → which (tp.clear i) j = which tp j)
    (hclose : ∀ heap slave i r, P heap slave → slave.fdTab i = some r → which slave i = true →
      ∃ heap', heap.unshare r = some heap' ∧ P heap' (slave.clear i)) (h : P heap slave) :
    ∃ heap' slave', closeSlots which heap slave = some (heap', slave') ∧ P heap' slave' ∧
      Closed (fun i => which slave i = true) slave slave' := by
  obtain ⟨heap', slave', hfold, hP, hc⟩ :=
    closeSlots_fold hwhich hclose (List.finRange OPEN_MAX) heap slave h
  exact ⟨heap', slave', hfold, hP, fun i hi => hc.empty i ⟨List.mem_finRange i, hi⟩,
    fun i hi => hc.kept i fun hl => hi hl.2, hc.cleared, hc.rest⟩

/-- Every file of the row is shared once more for each slot of it. -/
theorem share_fold (row : Slot → Option OkfsFileRef) (l : List Slot) (heap : Heap)
    (hlive : ∀ i r, row i = some r → ∃ filep, heap.files r = some filep) :
    ∃ files', l.foldlM (fun heap i => Heap.shareSlot heap (row i)) heap = some { heap with files := files' } ∧
      ∀ r, files' r = (heap.files r).map fun filep =>
        { filep with nshared := filep.nshared + (l.map fun i => if row i = some r then 1 else 0).sum } := by
  induction l generalizing heap with
  | nil => exact ⟨heap.files, rfl, fun r => by simp⟩
  | cons i l ih =>
    rw [List.foldlM_cons]
    cases hi : row i with
    | none =>
      obtain ⟨files', hfold, hfiles⟩ := ih heap hlive
      refine ⟨files', hfold, fun r => ?_⟩
      rw [hfiles, List.map_cons, hi, List.sum_cons, if_neg (by simp), Int.zero_add]
    | some q =>
      obtain ⟨filep, hq⟩ := hlive i q hi
      have hlive' : ∀ j r, row j = some r → ∃ filep', (heap.setFile q
          (some { filep with nshared := filep.nshared + 1 })).files r = some filep' := by
        intro j r hr
        by_cases hrq : r = q
        · exact ⟨_, by rw [hrq]; exact Function.update_self ..⟩
        · obtain ⟨filep', hr'⟩ := hlive j r hr
          exact ⟨filep', (Function.update_of_ne hrq ..).trans hr'⟩
      obtain ⟨files', hfold, hfiles⟩ := ih _ hlive'
      refine ⟨files', ?_, fun r => ?_⟩
      · show (heap.share q).bind _ = _
        rw [Heap.share_eq hq, Option.bind_some, hfold]
        rfl
      · rw [hfiles, List.map_cons, hi, List.sum_cons]
        show (Function.update heap.files q _ r).map _ = _
        by_cases hrq : r = q
        · rw [hrq, Function.update_self, hq, Option.map_some, Option.map_some, if_pos rfl]
          simp only [Option.some.injEq, OkfsFile.mk.injEq, true_and, and_true]
          omega
        · rw [Function.update_of_ne hrq, if_neg fun h => hrq (Option.some.inj h).symm, Int.zero_add]

theorem HeapOk.fork (h : HeapOk s) (ht : s.tasks t = some slave) :
    ∃ files', addSlave s.heap slave = some ({ s.heap with files := files' }, slave.child) ∧
      (∀ r, files' r = (s.heap.files r).map fun filep =>
        { filep with nshared := filep.nshared + (held slave.fdTab r : Int) }) ∧
      HeapOk { s.put s.nextTask { s.heap with files := files' } slave.child with
        nextTask := s.nextTask + 1 } := by
  obtain ⟨files', hfold, hfiles⟩ := share_fold slave.fdTab (List.finRange OPEN_MAX) s.heap
    fun i r hi => h.live ht hi
  have hheld : ∀ r, ((List.finRange OPEN_MAX).map fun i =>
      if slave.fdTab i = some r then (1 : Int) else 0).sum = (held slave.fdTab r : Int) := by
    intro r
    rw [← Fin.sum_univ_def, held, Nat.cast_sum]
    exact Finset.sum_congr rfl fun i _ => by split <;> rfl
  have hfiles' : ∀ r, files' r = (s.heap.files r).map fun filep =>
      { filep with nshared := filep.nshared + (held slave.fdTab r : Int) } := fun r => by
    rw [hfiles, hheld]
  refine ⟨files', ?_, hfiles', ?_⟩
  · rw [addSlave, show slave.child.fdTab = slave.fdTab from rfl, hfold]
    rfl
  · refine ⟨?_, fun r hr => ?_, fun u hu => ?_⟩
    · have hcount : ∀ r, { s.heap with files := files' }.counts r =
          (s.heap.counts r).map fun c => c + (held (s.rows t) r : Int) := fun r => by
        show (files' r).map OkfsFile.nshared = _
        rw [hfiles', Option.map_map, State.rows_eq ht, Heap.counts, Option.map_map]
        rfl
      have hcounted := h.counted.copyRow t hcount
      rw [State.rows_eq ht] at hcounted
      have hrows : (s.put s.nextTask { s.heap with files := files' } slave.child).rows =
        Function.update s.rows s.nextTask slave.fdTab := State.rows_put s
      rw [← hrows] at hcounted
      exact hcounted
    · show files' r = none
      rw [hfiles', h.fresh r hr, Option.map_none]
    · have hu : s.nextTask + 1 ≤ u := hu
      show (s.put s.nextTask { s.heap with files := files' } slave.child).tasks u = none
      rw [State.put_tasks_of_ne s (Nat.ne_of_gt hu)]
      exact h.bounded u (Nat.le_of_succ_le hu)

/-! ## The kernel's table -/

/-- The slots are descriptors of the kernel, with its close-on-exec flags. -/
structure Mirrors (slave : Task) : Prop where
  kernel : ∀ i r, slave.fdTab i = some r →
    ∃ k, slave.kernel i.val = some k ∧ k.closeOnExec = slave.closeOnExec i
  empty : ∀ i, slave.fdTab i = none → slave.closeOnExec i = false

namespace Mirrors

theorem congr (h : Mirrors slave) (hfd : slave'.fdTab = slave.fdTab)
    (hclose : slave'.closeOnExec = slave.closeOnExec) (hkernel : slave'.kernel = slave.kernel) :
    Mirrors slave' := by
  refine ⟨fun i r hi => ?_, fun i hi => ?_⟩
  · rw [hkernel, hclose]
    exact h.kernel i r (hfd ▸ hi)
  · rw [hclose]
    exact h.empty i (hfd ▸ hi)

/-- What is not open has no slot. -/
theorem fdTab_eq_none (h : Mirrors slave) {n : Nat} (hn : slave.kernel n = none) (hi : i.val = n) :
    slave.fdTab i = none := by
  cases hr : slave.fdTab i with
  | none => rfl
  | some r =>
    obtain ⟨k, hk, -⟩ := h.kernel i r hr
    rw [hi, hn] at hk
    cases hk

/-- The kernel changes a descriptor without a slot. -/
theorem setKernel (h : Mirrors slave) (n : Nat) (v : Option KFd)
    (hn : ∀ i : Slot, i.val = n → slave.fdTab i = none) (hfd : slave'.fdTab = slave.fdTab)
    (hclose : slave'.closeOnExec = slave.closeOnExec)
    (hkernel : slave'.kernel = Function.update slave.kernel n v) : Mirrors slave' := by
  refine ⟨fun i r hi => ?_, fun i hi => ?_⟩
  · rw [hfd] at hi
    have hne : i.val ≠ n := fun he => by rw [hn i he] at hi; cases hi
    rw [hkernel, hclose, Function.update_of_ne hne]
    exact h.kernel i r hi
  · rw [hclose]
    exact h.empty i (hfd ▸ hi)

/-- A slot and its descriptor change together. -/
theorem setSlot (h : Mirrors slave) (i : Slot) {o : Option OkfsFileRef} {b : Bool} {v : Option KFd}
    (hfd : slave'.fdTab = Function.update slave.fdTab i o)
    (hclose : slave'.closeOnExec = Function.update slave.closeOnExec i b)
    (hkernel : slave'.kernel = Function.update slave.kernel i.val v)
    (hopen : ∀ r, o = some r → ∃ k, v = some k ∧ k.closeOnExec = b)
    (hempty : o = none → b = false) : Mirrors slave' := by
  refine ⟨fun j r hj => ?_, fun j hj => ?_⟩
  · rw [hfd] at hj
    rw [hkernel, hclose]
    by_cases hji : j = i
    · rw [hji, Function.update_self] at hj
      rw [hji, Function.update_self, Function.update_self]
      exact hopen r hj
    · rw [Function.update_of_ne hji] at hj
      rw [Function.update_of_ne fun he => hji (Fin.ext he), Function.update_of_ne hji]
      exact h.kernel j r hj
  · rw [hfd] at hj
    rw [hclose]
    by_cases hji : j = i
    · rw [hji, Function.update_self] at hj
      rw [hji, Function.update_self]
      exact hempty hj
    · rw [Function.update_of_ne hji] at hj
      rw [Function.update_of_ne hji]
      exact h.empty j hj

end Mirrors

/-- Between the halves of a call, its handler has the slots that it will use. -/
inductive Waits (slave : Task) : Option Handler → Option Call → Prop
  | out : Waits slave none none
  | untracked {fd : Int} {call : Call} (file : slave.file fd = none)
      (on : call = .close fd ∨ call = .dup fd ∨ ∃ cmd arg, call = .fcntl fd cmd arg) :
      Waits slave none (some call)
  | idle {call : Call} (idle : call = .exit ∨ call = .getpid) : Waits slave none (some call)
  | returnSaved : Waits slave (some .returnSaved) (some .getpid)
  | okfsOpen {call : Call} (executed : call = .open ∨ ∃ nr, call = .number nr) :
      Waits slave (some .afterOkfsOpen) (some call)
  | linuxOpen {call : Call} (executed : call = .open ∨ call = .creat) :
      Waits slave (some .afterLinuxOpen) (some call)
  | close {i : Slot} {r : OkfsFileRef} (file : slave.fdTab i = some r) :
      Waits slave (some .afterClose) (some (.close i.val))
  | dup {i : Slot} {r : OkfsFileRef} (file : slave.fdTab i = some r) :
      Waits slave (some .dup) (some (.dup i.val))
  | dup2 {oldfd newfd : Int} : Waits slave (some .dup2) (some (.dup2 oldfd newfd))
  | fcntl {i : Slot} {cmd arg : Nat} {r : OkfsFileRef} (file : slave.fdTab i = some r) :
      Waits slave (some .afterFcntl) (some (.fcntl i.val cmd arg))
  | fork : Waits slave (some .afterFork) (some .fork)
  | execve : Waits slave (some .afterExecve) (some .execve)

theorem Waits.congr {h : Option Handler} {c : Option Call} (hwaits : Waits slave h c)
    (hfd : slave'.fdTab = slave.fdTab) : Waits slave' h c := by
  have hfile : ∀ fd, slave'.file fd = slave.file fd := fun fd => by rw [Task.file, hfd, Task.file]
  cases hwaits with
  | out => exact .out
  | untracked hnone hon => exact .untracked ((hfile _).trans hnone) hon
  | idle hidle => exact .idle hidle
  | returnSaved => exact .returnSaved
  | okfsOpen hexec => exact .okfsOpen hexec
  | linuxOpen hexec => exact .linuxOpen hexec
  | close hi => exact .close (hfd ▸ hi)
  | dup hi => exact .dup (hfd ▸ hi)
  | dup2 => exact .dup2
  | fcntl hi => exact .fcntl (hfd ▸ hi)
  | fork => exact .fork
  | execve => exact .execve

structure TaskOk (slave : Task) : Prop where
  mirrors : Mirrors slave
  waits : Waits slave slave.nextCall slave.call
  zombie : slave.zombie = true → ∀ i, slave.fdTab i = none

structure Ok (s : State) : Prop where
  heap : HeapOk s
  task : ∀ t slave, s.tasks t = some slave → TaskOk slave

theorem Ok.put (h : Ok s) (hheap : HeapOk (s.put t heap slave)) (htask : TaskOk slave) :
    Ok (s.put t heap slave) := by
  exact ⟨hheap, forall_put heap h.task htask⟩

/-! ## Entering a call -/

/-- `call_before` leaves the slots, and the files, as they are. -/
structure Entered (heap : Heap) (slave : Task) (heap' : Heap) (slave' : Task) : Prop where
  files : heap'.files = heap.files
  nextFile : heap'.nextFile = heap.nextFile
  rest : slave' = { slave with
    arg1Fsp := slave'.arg1Fsp, retvalSaved := slave'.retvalSaved, call := slave'.call,
    nextCall := slave'.nextCall }
  waits : Waits slave slave'.nextCall slave'.call

theorem okfsBeforeOpen_entered {call executed : Call} (hcall : call = .open ∨ call = .creat)
    (hexec : executed = .open ∨ ∃ nr, executed = .number nr) (resolved : Resolved) :
    Entered heap slave
      (okfsBeforeOpen executed heap { slave with call := some call, nextCall := callAfter call }
        resolved).1
      (okfsBeforeOpen executed heap { slave with call := some call, nextCall := callAfter call }
        resolved).2 := by
  cases resolved with
  | failed e => exact ⟨rfl, rfl, rfl, .returnSaved⟩
  | linux => exact ⟨rfl, rfl, rfl, .linuxOpen hcall⟩
  | okfs fsp ret =>
    rw [okfsBeforeOpen]
    split
    · exact ⟨rfl, rfl, rfl, .returnSaved⟩
    · exact ⟨rfl, rfl, rfl, .okfsOpen hexec⟩

theorem okfsOpOnFd_entered {call : Call} (hcall : call = .close fd ∨ call = .dup fd) :
    Entered heap slave heap
      (okfsOpOnFd { slave with call := some call, nextCall := callAfter call } fd) := by
  rw [okfsOpOnFd, show Task.file { slave with call := some call, nextCall := callAfter call } fd =
    slave.file fd from rfl]
  cases hfile : slave.file fd with
  | none => exact ⟨rfl, rfl, rfl, .untracked hfile (by tauto)⟩
  | some r =>
    obtain ⟨i, rfl, hr⟩ := Task.file_eq_some.mp hfile
    rcases hcall with rfl | rfl
    · exact ⟨rfl, rfl, rfl, .close hr⟩
    · exact ⟨rfl, rfl, rfl, .dup hr⟩

theorem okfsBeforeFcntl_entered (h : HeapOk s) (ht : s.tasks t = some slave) (fd : Int) (cmd arg : Nat) :
    ∃ slave', okfsBeforeFcntl s.heap
        { slave with call := some (.fcntl fd cmd arg), nextCall := none } fd cmd = some slave' ∧
      Entered s.heap slave s.heap slave' := by
  rw [okfsBeforeFcntl, show Task.file { slave with
    call := some (.fcntl fd cmd arg), nextCall := none } fd = slave.file fd from rfl]
  cases hfile : slave.file fd with
  | none => exact ⟨_, rfl, rfl, rfl, rfl, .untracked hfile (.inr (.inr ⟨cmd, arg, rfl⟩))⟩
  | some r =>
    obtain ⟨i, rfl, hr⟩ := Task.file_eq_some.mp hfile
    obtain ⟨filep, hfilep⟩ := h.live ht hr
    simp only [Option.bind_eq_bind, hfilep, Option.bind_some]
    split_ifs
    · exact ⟨_, rfl, rfl, rfl, rfl, .returnSaved⟩
    · exact ⟨_, rfl, rfl, rfl, rfl, .returnSaved⟩
    · exact ⟨_, rfl, rfl, rfl, rfl, .fcntl hr⟩
    · exact ⟨_, rfl, rfl, rfl, rfl, .fcntl hr⟩

theorem callBefore_spec (h : HeapOk s) (ht : s.tasks t = some slave) (call : Call)
    (resolved : Resolved) :
    ∃ heap' slave', callBefore s.heap { slave with call := some call, nextCall := callAfter call }
        resolved call = some (heap', slave') ∧ Entered s.heap slave heap' slave' := by
  cases call with
  | «open» => exact ⟨_, _, rfl, okfsBeforeOpen_entered (.inl rfl) (.inl rfl) resolved⟩
  | creat => exact ⟨_, _, rfl, okfsBeforeOpen_entered (.inr rfl) (.inr ⟨_, rfl⟩) resolved⟩
  | close fd => exact ⟨_, _, rfl, okfsOpOnFd_entered (.inl rfl)⟩
  | dup fd => exact ⟨_, _, rfl, okfsOpOnFd_entered (.inr rfl)⟩
  | dup2 oldfd newfd => exact ⟨_, _, rfl, rfl, rfl, rfl, .dup2⟩
  | fcntl fd cmd arg =>
    obtain ⟨slave', heq, hentered⟩ := okfsBeforeFcntl_entered h ht fd cmd arg
    refine ⟨s.heap, slave', ?_, hentered⟩
    show (okfsBeforeFcntl s.heap _ fd cmd).map (s.heap, ·) = _
    rw [show callAfter (.fcntl fd cmd arg) = none from rfl, heq, Option.map_some]
  | fork => exact ⟨_, _, rfl, rfl, rfl, rfl, .fork⟩
  | execve => exact ⟨_, _, rfl, rfl, rfl, rfl, .execve⟩
  | exit => exact ⟨_, _, rfl, rfl, rfl, rfl, .idle (.inl rfl)⟩
  | getpid => exact ⟨_, _, rfl, rfl, rfl, rfl, .idle (.inr rfl)⟩
  | number nr => exact ⟨_, _, rfl, rfl, rfl, rfl, .returnSaved⟩

/-! ## Leaving a call -/

theorem Heap.closeLast_files (heap : Heap) (closes : Closes) (filep : OkfsFile) (fsfd : Int) :
    (heap.closeLast closes filep fsfd).files = heap.files ∧
      (heap.closeLast closes filep fsfd).nextFile = heap.nextFile := by
  unfold Heap.closeLast
  split
  · split
    · unfold Heap.fsClose
      split <;> exact ⟨rfl, rfl⟩
    · exact ⟨rfl, rfl⟩
  · exact ⟨rfl, rfl⟩

theorem HeapOk.afterClose (h : HeapOk s) (closes : Closes) (ht : s.tasks t = some slave)
    (hi : slave.fdTab i = some r) :
    ∃ filep heap', s.heap.files r = some filep ∧
      (s.heap.closeLast closes filep (slave.fsfd i)).unshare r = some heap' ∧
      okfsAfterClose closes s.heap slave i.val = some (heap', slave.clear i) ∧
      HeapOk (s.put t heap' (slave.clear i)) := by
  obtain ⟨filep, hr⟩ := h.live ht hi
  obtain ⟨hfiles, hnext⟩ := s.heap.closeLast_files closes filep (slave.fsfd i)
  have h₁ : HeapOk (s.put t (s.heap.closeLast closes filep (slave.fsfd i)) slave) :=
    h.put_same ht rfl hfiles (Nat.le_of_eq hnext.symm)
  obtain ⟨heap', hun, hclose, hok⟩ := h₁.close s.put_tasks_self hi
  rw [State.put_put] at hok
  refine ⟨filep, heap', hr, hun, ?_, hok⟩
  rw [okfsAfterClose, slotOf_natCast]
  simp only [Option.bind_eq_bind, Option.bind_some, hi, hr]
  exact hclose

/-- What `dup2` onto `j` leaves there. -/
def Task.dup2File (slave : Task) (oldfd : Int) (j : Slot) : Option OkfsFileRef :=
  if oldfd = (j.val : Int) then none else slave.file oldfd

theorem HeapOk.dup2 (h : HeapOk s) (ht : s.tasks t = some slave) (hm : ∀ i, slave.fdTab i = none →
    slave.closeOnExec i = false) (oldfd : Int) (j : Slot) :
    ∃ heap₁ heap' slave', okfsDup2 s.heap slave oldfd j.val = some (heap', slave') ∧
      HeapOk (s.put t heap' slave') ∧
      (slave.fdTab j = none ∧ heap₁ = s.heap ∨
        ∃ r, slave.fdTab j = some r ∧ s.heap.unshare r = some heap₁) ∧
      (slave.dup2File oldfd j = none ∧ heap' = heap₁ ∧ slave'.fsfd = slave.fsfd ∨
        ∃ i r, slave.dup2File oldfd j = some r ∧ slave.fdTab i = some r ∧
          heap₁.share r = some heap' ∧ slave'.fsfd = Function.update slave.fsfd j (slave.fsfd i)) ∧
      slave' = { slave with
        fdTab := Function.update slave.fdTab j (slave.dup2File oldfd j)
        closeOnExec := Function.update slave.closeOnExec j false
        fsfd := slave'.fsfd } := by
  have hlt := j.isLt
  have hdup2 : okfsDup2 s.heap slave oldfd j.val = (if (slave.fdTab j).isSome then
      okfsCloseFd s.heap slave j else some (s.heap, slave)).bind fun hs =>
        if (hs.2.file oldfd).isSome then okfsDoDup hs.1 hs.2 oldfd j.val else some hs := by
    rw [okfsDup2, if_neg (by omega), if_neg (by omega), slotOf_natCast]
    rfl
  -- the slot is emptied first
  obtain ⟨heap₁, slave₁, hfirst, hok₁, hold, hslave₁⟩ : ∃ heap₁ slave₁,
      (if (slave.fdTab j).isSome then okfsCloseFd s.heap slave j else some (s.heap, slave)) =
        some (heap₁, slave₁) ∧ HeapOk (s.put t heap₁ slave₁) ∧
      (slave.fdTab j = none ∧ heap₁ = s.heap ∨
        ∃ r, slave.fdTab j = some r ∧ s.heap.unshare r = some heap₁) ∧
      slave₁ = slave.clear j := by
    cases hj : slave.fdTab j with
    | none =>
      have hclear : slave = slave.clear j := by
        rw [Task.clear, ← hj, Function.update_eq_self, ← hm j hj, Function.update_eq_self]
      exact ⟨s.heap, slave, rfl, h.put_same ht rfl rfl (Nat.le_refl _), .inl ⟨rfl, rfl⟩, hclear⟩
    | some r =>
      obtain ⟨heap₁, hun, hclose, hok₁⟩ := h.close ht hj
      exact ⟨heap₁, _, hclose, hok₁, .inr ⟨r, rfl, hun⟩, rfl⟩
  subst hslave₁
  have hfile : (slave.clear j).file oldfd = slave.dup2File oldfd j := by
    unfold Task.dup2File
    split
    · rename_i he
      rw [he, Task.file_natCast]
      exact (slave.clear_self j).1
    · rename_i hne
      cases hold : slotOf oldfd with
      | none => rw [Task.file, Task.file, hold]; rfl
      | some i =>
        rw [slotOf_eq_some.mp hold, Task.file_natCast, Task.file_natCast]
        exact (slave.clear_of_ne fun he => hne (by rw [slotOf_eq_some.mp hold, he])).1
  rw [hdup2, hfirst, Option.bind_some]
  cases hnew : slave.dup2File oldfd j with
  | none =>
    rw [hfile, hnew]
    exact ⟨heap₁, heap₁, _, rfl, hok₁, hold, .inl ⟨rfl, rfl, rfl⟩, rfl⟩
  | some r =>
    rw [hfile, hnew]
    obtain ⟨i, rfl, hi⟩ := Task.file_eq_some.mp (hfile.trans hnew)
    have hij : i ≠ j := by
      rintro rfl
      rw [(slave.clear_self i).1] at hi
      cases hi
    obtain ⟨heap', hshare, hdup, hok'⟩ := hok₁.copy s.put_tasks_self hi (slave.clear_self j).1
    rw [State.put_put] at hok'
    refine ⟨heap₁, heap', _, hdup, hok', hold, .inr ⟨i, r, rfl, ?_, hshare, rfl⟩, ?_⟩
    · exact (slave.clear_of_ne hij).1 ▸ hi
    · rw [Task.copy, hi, Task.clear, Function.update_idem, Function.update_idem]

/-- After the second half. -/
structure Left (s : State) (t : TaskRef) (slave : Task) (heap' : Heap) (slave' : Task) : Prop where
  heap : HeapOk (s.put t heap' slave')
  mirrors : Mirrors slave'
  rest : slave'.call = none ∧ slave'.nextCall = none ∧ slave'.zombie = slave.zombie

variable {call : Call} {next : Handler}

theorem Left.same (h : HeapOk s) (ht : s.tasks t = some slave) (hm : Mirrors slave')
    (hfd : slave'.fdTab = slave.fdTab) (hfiles : heap'.files = s.heap.files)
    (hnext : s.heap.nextFile ≤ heap'.nextFile)
    (hrest : slave'.call = none ∧ slave'.nextCall = none ∧ slave'.zombie = slave.zombie) :
    Left s t slave heap' slave' :=
  ⟨h.put_same ht hfd hfiles hnext, hm, hrest⟩

theorem HeapOk.executed (h : HeapOk s) (ht : s.tasks t = some slave) (call : Call) (ret : Int) :
    HeapOk (s.put t s.heap (slave.executed call ret)) :=
  h.put_same ht rfl rfl (Nat.le_refl _)

theorem kernelAfter_open (hcall : call = .open ∨ call = .creat) (k : KTable) (hret : ¬ ret < 0) :
    kernelAfter k call ret = Function.update k ret.toNat (some ⟨false, none⟩) := by
  rcases hcall with rfl | rfl <;> rw [kernelAfter, if_neg hret]

theorem kernelAfter_open_failed (hcall : call = .open ∨ call = .creat ∨ ∃ nr, call = .number nr)
    (k : KTable) (hret : ret < 0) : kernelAfter k call ret = k := by
  rcases hcall with rfl | rfl | ⟨nr, rfl⟩
  · rw [kernelAfter, if_pos hret]
  · rw [kernelAfter, if_pos hret]
  · rfl

theorem mark_update (k : KTable) (r : OkfsFileRef) :
    KTable.mark (Function.update k ret.toNat (some ⟨false, none⟩)) ret r =
      Function.update k ret.toNat (some ⟨false, some r⟩) := by
  rw [KTable.mark, Function.update_self, Function.update_idem]
  rfl

/-- The kernel has opened a descriptor below `OPEN_MAX`, and it is added. -/
theorem Left.add (h : HeapOk s) (ht : s.tasks t = some slave) (hm : Mirrors slave)
    (hcall : call = .open ∨ call = .creat) (i : Slot) (hnew : slave.kernel i.val = none)
    (fsp : Option FsRef) (fsfd : Int) :
    Left s t slave
      (addNewFd s.heap { slave.executed call i.val with
        kernel := (slave.executed call i.val).kernel.mark i.val s.heap.nextFile } fsp i fsfd).1
      (addNewFd s.heap { slave.executed call i.val with
        kernel := (slave.executed call i.val).kernel.mark i.val s.heap.nextFile } fsp i fsfd).2 := by
  have hi : slave.fdTab i = none := hm.fdTab_eq_none hnew rfl
  refine ⟨h.add ht (by rfl) hi fsp fsfd, ?_, rfl, rfl, rfl⟩
  refine hm.setSlot i (o := some s.heap.nextFile) (b := false)
    (v := some ⟨false, some s.heap.nextFile⟩) rfl ?_ ?_ (fun r _ => ⟨_, rfl, rfl⟩) fun h => by cases h
  · rw [← hm.empty i hi, Function.update_eq_self]
    rfl
  · show KTable.mark (kernelAfter slave.kernel call i.val) i.val _ = _
    rw [kernelAfter_open hcall slave.kernel (by omega), mark_update, Int.toNat_natCast]

theorem callNext_okfsOpen (h : HeapOk s) (ht : s.tasks t = some slave) (hm : Mirrors slave)
    (hcall : call = .open ∨ ∃ nr, call = .number nr) (hans : KernelAnswers slave.kernel call ret) :
    Left s t slave (okfsAfterOkfsOpen s.heap (slave.executed call ret) ret).1
      (okfsAfterOkfsOpen s.heap (slave.executed call ret) ret).2 := by
  rw [okfsAfterOkfsOpen]
  by_cases hneg : ret < 0
  · have hslot : slotOf ret = none := by
      rw [slotOf, dif_neg fun h => absurd h.1 (by omega)]
    rw [if_neg (by have : OPEN_MAX = 256 := rfl; omega), hslot]
    refine .same h ht (hm.congr rfl rfl ?_) rfl rfl (Nat.le_refl _) ⟨rfl, rfl, rfl⟩
    exact kernelAfter_open_failed (by tauto) slave.kernel hneg
  · obtain rfl : call = .open := by
      rcases hcall with hcall | ⟨nr, rfl⟩
      · exact hcall
      · exact absurd hans hneg
    have hnone : slave.kernel ret.toNat = none := hans.resolve_left hneg
    by_cases hmax : ret ≥ OPEN_MAX
    · rw [if_pos hmax]
      refine .same h ht (hm.setKernel ret.toNat (some ⟨false, none⟩) (fun i hi => ?_) rfl rfl ?_)
        rfl rfl (Nat.le_refl _) ⟨rfl, rfl, rfl⟩
      · exact hm.fdTab_eq_none hnone hi
      · exact kernelAfter_open (.inl rfl) slave.kernel hneg
    · obtain ⟨i, rfl⟩ := exists_slotOf (Int.not_lt.mp hneg) hmax
      rw [if_neg hmax, slotOf_natCast]
      exact .add h ht hm (.inl rfl) i (by rwa [Int.toNat_natCast] at hnone) _ _

theorem callNext_linuxOpen (h : HeapOk s) (ht : s.tasks t = some slave) (hm : Mirrors slave)
    (hcall : call = .open ∨ call = .creat) (hans : KernelAnswers slave.kernel call ret) :
    Left s t slave (okfsAfterLinuxOpen s.heap (slave.executed call ret) ret).1
      (okfsAfterLinuxOpen s.heap (slave.executed call ret) ret).2 := by
  rw [okfsAfterLinuxOpen]
  by_cases hneg : ret < 0
  · have hslot : slotOf ret = none := by
      rw [slotOf, dif_neg fun h => absurd h.1 (by omega)]
    rw [if_neg (by have : OPEN_MAX = 256 := rfl; omega), hslot]
    refine .same h ht (hm.congr rfl rfl ?_) rfl rfl (Nat.le_refl _) ⟨rfl, rfl, rfl⟩
    exact kernelAfter_open_failed (by tauto) slave.kernel hneg
  · have hnone : slave.kernel ret.toNat = none := by
      rcases hcall with rfl | rfl <;> exact hans.resolve_left hneg
    by_cases hmax : ret ≥ OPEN_MAX
    · rw [if_pos hmax]
      refine .same h ht (hm.setKernel ret.toNat (some ⟨false, some s.heap.nextFile⟩)
        (fun i hi => ?_) rfl rfl ?_) rfl rfl (Nat.le_succ _) ⟨rfl, rfl, rfl⟩
      · exact hm.fdTab_eq_none hnone hi
      · show KTable.mark (kernelAfter slave.kernel call ret) ret _ = _
        rw [kernelAfter_open hcall slave.kernel hneg, mark_update]
    · obtain ⟨i, rfl⟩ := exists_slotOf (Int.not_lt.mp hneg) hmax
      rw [if_neg hmax, slotOf_natCast]
      exact .add h ht hm hcall i (by rwa [Int.toNat_natCast] at hnone) _ _

theorem callNext_close (closes : Closes) (ret : Int) (h : HeapOk s) (ht : s.tasks t = some slave) (hm : Mirrors slave)
    (hi : slave.fdTab i = some r) :
    ∃ heap', okfsAfterClose closes s.heap (slave.executed (.close i.val) ret) i.val =
        some (heap', (slave.executed (.close i.val) ret).clear i) ∧
      Left s t slave heap' ((slave.executed (.close i.val) ret).clear i) := by
  obtain ⟨filep, heap', -, -, heq, hok⟩ := (h.executed ht (.close i.val) ret).afterClose closes
    s.put_tasks_self (show (slave.executed (.close i.val) ret).fdTab i = some r from hi)
  rw [State.put_put] at hok
  refine ⟨heap', heq, hok, hm.setSlot i (o := none) (b := false) (v := none) rfl rfl ?_
    (fun r hr => by cases hr) fun _ => rfl, rfl, rfl, rfl⟩
  show kernelAfter slave.kernel (.close i.val) ret = _
  rw [kernelAfter, if_neg (by omega), Int.toNat_natCast]

/-- A descriptor with a slot is duplicated to `j`. -/
theorem Left.copy (h : HeapOk s) (ht : s.tasks t = some slave) (hm : Mirrors slave)
    (hi : slave.fdTab i = some r) (hnew : slave.kernel j.val = none)
    (hkernel : kernelAfter slave.kernel call j.val = slave.kernel.copy i.val j.val) :
    ∃ heap', okfsDoDup s.heap (slave.executed call j.val) i.val j.val =
        some (heap', (slave.executed call j.val).copy i j) ∧
      Left s t slave heap' ((slave.executed call j.val).copy i j) := by
  obtain ⟨heap', -, heq, hok⟩ := (h.executed ht call j.val).copy s.put_tasks_self
    (show (slave.executed call j.val).fdTab i = some r from hi) (hm.fdTab_eq_none hnew rfl)
  rw [State.put_put] at hok
  obtain ⟨k, hk, -⟩ := hm.kernel i r hi
  refine ⟨heap', heq, hok, hm.setSlot j (o := some r) (b := false)
    (v := some { k with closeOnExec := false }) ?_ rfl ?_ (fun r _ => ⟨_, rfl, rfl⟩)
    fun h => (by cases h), rfl, rfl, rfl⟩
  · show Function.update slave.fdTab j (slave.fdTab i) = _
    rw [hi]
  · show kernelAfter slave.kernel call j.val = _
    rw [hkernel, KTable.copy, Int.toNat_natCast, Int.toNat_natCast, hk, Option.map_some]

/-- Past the slots, or failed. -/
theorem Left.unslotted (h : HeapOk s) (ht : s.tasks t = some slave) (hm : Mirrors slave)
    {v : Int} (hkernel : kernelAfter slave.kernel call ret = slave.kernel ∨
      ∃ n o, (∀ i : Slot, i.val = n → slave.fdTab i = none) ∧
        kernelAfter slave.kernel call ret = Function.update slave.kernel n o) :
    Left s t slave s.heap { slave.executed call ret with returnValue := v } := by
  refine .same h ht ?_ rfl rfl (Nat.le_refl _) ⟨rfl, rfl, rfl⟩
  rcases hkernel with hkernel | ⟨n, o, hnone, hkernel⟩
  · exact hm.congr rfl rfl hkernel
  · exact hm.setKernel n o hnone rfl rfl hkernel

theorem callNext_dup (h : HeapOk s) (ht : s.tasks t = some slave) (hm : Mirrors slave)
    (hi : slave.fdTab i = some r) (hans : KernelAnswers slave.kernel (.dup i.val) ret) :
    ∃ heap' slave', okfsDup s.heap (slave.executed (.dup i.val) ret) i.val ret =
      some (heap', slave') ∧ Left s t slave heap' slave' := by
  rw [okfsDup]
  by_cases hneg : ret < 0
  · rw [if_neg (by have : OPEN_MAX = 256 := rfl; omega), okfsDoDup, if_pos hneg]
    exact ⟨_, _, rfl, .unslotted h ht hm (.inl
      (show kernelAfter slave.kernel (.dup i.val) ret = _ by rw [kernelAfter, if_pos hneg]))⟩
  · obtain ⟨-, -, hnone⟩ := hans.resolve_left hneg
    by_cases hmax : ret ≥ OPEN_MAX
    · rw [if_pos hmax]
      have hkernel : kernelAfter slave.kernel (.dup i.val) ret = slave.kernel.copy i.val ret := by
        rw [kernelAfter, if_neg hneg]
      exact ⟨_, _, rfl, .unslotted h ht hm
        (.inr ⟨_, _, fun j hj => hm.fdTab_eq_none hnone hj, hkernel⟩)⟩
    · obtain ⟨j, rfl⟩ := exists_slotOf (Int.not_lt.mp hneg) hmax
      rw [if_neg hmax]
      obtain ⟨heap', heq, hleft⟩ := Left.copy h ht hm hi
        (by rwa [Int.toNat_natCast] at hnone) (show kernelAfter slave.kernel (.dup i.val) j.val = _ by rw [kernelAfter, if_neg hneg])
      exact ⟨heap', _, heq, hleft⟩

/-- A call on a descriptor that has no slot. -/
theorem callNext_untracked (h : HeapOk s) (ht : s.tasks t = some slave) (hm : Mirrors slave)
    (hfile : slave.file fd = none)
    (hon : call = .close fd ∨ call = .dup fd ∨ ∃ cmd arg, call = .fcntl fd cmd arg)
    (hans : KernelAnswers slave.kernel call ret) :
    Left s t slave s.heap (slave.executed call ret) := by
  refine Left.unslotted h ht hm ?_
  have hempty : 0 ≤ fd → ∀ i : Slot, i.val = fd.toNat → slave.fdTab i = none := by
    intro hpos i hi
    rw [← Task.file_natCast, hi, Int.toNat_of_nonneg hpos]
    exact hfile
  have hdup : ret < 0 ∨ slave.kernel ret.toNat = none →
      (if ret < 0 then slave.kernel else slave.kernel.copy fd ret) = slave.kernel ∨
      ∃ n o, (∀ i : Slot, i.val = n → slave.fdTab i = none) ∧
        (if ret < 0 then slave.kernel else slave.kernel.copy fd ret) =
          Function.update slave.kernel n o := by
    intro hnone
    by_cases hneg : ret < 0
    · exact .inl (if_pos hneg)
    · exact .inr ⟨_, _, fun i hi => hm.fdTab_eq_none (hnone.resolve_left hneg) hi, if_neg hneg⟩
  rcases hon with rfl | rfl | ⟨cmd, arg, rfl⟩
  · by_cases hneg : fd < 0
    · exact .inl (if_pos hneg)
    · exact .inr ⟨_, _, hempty (Int.not_lt.mp hneg), if_neg hneg⟩
  · exact hdup (hans.imp_right fun h => h.2.2)
  · by_cases hcmd : cmd = F_DUPFD
    · have hkernel : kernelAfter slave.kernel (.fcntl fd cmd arg) ret =
          if ret < 0 then slave.kernel else slave.kernel.copy fd ret := by
        rw [kernelAfter, if_pos hcmd]
      rw [hkernel]
      exact hdup (hans.imp_right fun h => h.2.2 hcmd)
    · by_cases hneg : ret < 0
      · exact .inl (if_pos hneg)
      · have hpos : 0 ≤ fd := (hans.resolve_left hneg).1
        rw [kernelAfter, if_neg hneg, if_neg hcmd]
        split
        · exact .inr ⟨_, _, hempty hpos, rfl⟩
        · exact .inl rfl

theorem callNext_dup2 (h : HeapOk s) (ht : s.tasks t = some slave) (hm : Mirrors slave)
    {oldfd newfd : Int} (hans : KernelAnswers slave.kernel (.dup2 oldfd newfd) ret) :
    ∃ heap' slave', okfsDup2 s.heap (slave.executed (.dup2 oldfd newfd) ret) oldfd ret =
      some (heap', slave') ∧ Left s t slave heap' slave' := by
  have hkernel : kernelAfter slave.kernel (.dup2 oldfd newfd) ret =
    if ret < 0 ∨ oldfd = newfd then slave.kernel else slave.kernel.copy oldfd newfd := rfl
  by_cases hneg : ret < 0
  · rw [okfsDup2, if_pos hneg]
    exact ⟨_, _, rfl, .unslotted h ht hm (.inl (hkernel.trans (if_pos (.inl hneg))))⟩
  · obtain ⟨hold, hsome, rfl⟩ := hans.resolve_left hneg
    by_cases hmax : ret ≥ OPEN_MAX
    · rw [okfsDup2, if_neg hneg, if_pos hmax]
      refine ⟨_, _, rfl, .unslotted h ht hm ?_⟩
      by_cases hsame : oldfd = ret
      · exact .inl (hkernel.trans (if_pos (.inr hsame)))
      · refine .inr ⟨_, _, fun i hi => ?_, hkernel.trans (if_neg (by tauto))⟩
        have hlt := i.isLt
        omega
    · obtain ⟨j, rfl⟩ := exists_slotOf (Int.not_lt.mp hneg) hmax
      obtain ⟨heap₁, heap', slave', heq, hok, -, -, hslave'⟩ :=
        (h.executed ht (.dup2 oldfd j.val) j.val).dup2 s.put_tasks_self
          (show ∀ i, slave.fdTab i = none → slave.closeOnExec i = false from hm.empty) oldfd j
      rw [State.put_put] at hok
      refine ⟨heap', slave', heq, hok, ?_, by rw [hslave']; exact ⟨rfl, rfl, rfl⟩⟩
      by_cases hsame : oldfd = (j.val : Int)
      · -- the kernel leaves its table alone, and the slot is gone
        refine hm.setSlot j (o := none) (b := false) (v := slave.kernel j.val) ?_ ?_ ?_
          (fun r hr => by cases hr) fun _ => rfl
        · rw [hslave', Task.dup2File, if_pos hsame]
          rfl
        · rw [hslave']
          rfl
        · rw [hslave', Function.update_eq_self]
          exact hkernel.trans (if_pos (.inr hsame))
      · refine hm.setSlot j (o := slave.file oldfd) (b := false)
          (v := (slave.kernel oldfd.toNat).map fun d => { d with closeOnExec := false }) ?_ ?_ ?_
          (fun r _ => ?_) fun _ => rfl
        · rw [hslave', Task.dup2File, if_neg hsame]
          rfl
        · rw [hslave']
          rfl
        · rw [hslave']
          refine (hkernel.trans (if_neg (by omega))).trans ?_
          rw [KTable.copy, Int.toNat_natCast]
        · obtain ⟨k, hk⟩ := Option.isSome_iff_exists.mp hsome
          exact ⟨_, by rw [hk, Option.map_some], rfl⟩

theorem callNext_fcntl (h : HeapOk s) (ht : s.tasks t = some slave) (hm : Mirrors slave)
    (hi : slave.fdTab i = some r) {cmd arg : Nat}
    (hans : KernelAnswers slave.kernel (.fcntl i.val cmd arg) ret) :
    ∃ heap' slave', okfsAfterFcntl s.heap (slave.executed (.fcntl i.val cmd arg) ret) i.val cmd arg
        ret = some (heap', slave') ∧ Left s t slave heap' slave' := by
  rw [okfsAfterFcntl]
  by_cases hneg : ret < 0
  · rw [if_pos hneg]
    exact ⟨_, _, rfl, .unslotted h ht hm (.inl
      (show kernelAfter slave.kernel (.fcntl i.val cmd arg) ret = _ by rw [kernelAfter, if_pos hneg]))⟩
  rw [if_neg hneg]
  obtain ⟨-, hsome, hnone⟩ := hans.resolve_left hneg
  by_cases hcmd : cmd = F_DUPFD
  · rw [if_pos hcmd]
    have hkernel : ∀ ret, ¬ ret < 0 →
        kernelAfter slave.kernel (.fcntl i.val cmd arg) ret = slave.kernel.copy i.val ret :=
      fun ret hneg => by rw [kernelAfter, if_neg hneg, if_pos hcmd]
    by_cases hmax : ret ≥ OPEN_MAX
    · rw [if_pos hmax]
      exact ⟨_, _, rfl, .unslotted h ht hm
        (.inr ⟨_, _, fun j hj => hm.fdTab_eq_none (hnone hcmd) hj, hkernel ret hneg⟩)⟩
    · obtain ⟨j, rfl⟩ := exists_slotOf (Int.not_lt.mp hneg) hmax
      rw [if_neg hmax]
      have hnone := hnone hcmd
      rw [Int.toNat_natCast] at hnone
      obtain ⟨heap', heq, hleft⟩ := Left.copy h ht hm hi hnone (hkernel _ hneg)
      exact ⟨heap', _, heq, hleft⟩
  rw [if_neg hcmd]
  by_cases hset : cmd = F_SETFD
  · rw [if_pos hset, slotOf_natCast]
    refine ⟨_, _, rfl, h.put_same ht rfl rfl (Nat.le_refl _), ?_, rfl, rfl, rfl⟩
    obtain ⟨k, hk, -⟩ := hm.kernel i r hi
    refine hm.setSlot i (o := some r) (b := decide (arg &&& FD_CLOEXEC > 0))
      (v := some { k with closeOnExec := decide (arg &&& FD_CLOEXEC > 0) }) ?_ rfl ?_
      (fun r _ => ⟨_, rfl, rfl⟩) fun h => by cases h
    · rw [← hi, Function.update_eq_self]
      rfl
    · show kernelAfter slave.kernel (.fcntl i.val cmd arg) ret = _
      rw [kernelAfter, if_neg hneg, if_neg hcmd, if_pos hset, Int.toNat_natCast, hk, Option.map_some]
  · rw [if_neg hset]
    exact ⟨_, _, rfl, .unslotted h ht hm (.inl
      (show kernelAfter slave.kernel (.fcntl i.val cmd arg) ret = _ by
        rw [kernelAfter, if_neg hneg, if_neg hcmd, if_neg hset]))⟩

theorem clear_closeOnExec_of_ne (tp : Task) (i j : Slot) (h : j ≠ i) :
    (tp.clear i).closeOnExec j = tp.closeOnExec j :=
  (tp.clear_of_ne h).2

/-- The loops keep `HeapOk`. -/
theorem HeapOk.closeSlots (h : HeapOk s) (ht : s.tasks t = some slave) (which : Task → Slot → Bool)
    (hwhich : ∀ tp (i j : Slot), j ≠ i → which (tp.clear i) j = which tp j) :
    ∃ heap' slave', closeSlots which s.heap slave = some (heap', slave') ∧
      HeapOk (s.put t heap' slave') ∧ Closed (fun i => which slave i = true) slave slave' := by
  refine closeSlots_spec s.heap slave (P := fun heap tp => HeapOk (s.put t heap tp)) hwhich
    (fun heap tp i r hok hi _ => ?_) (h.put_same ht rfl rfl (Nat.le_refl _))
  obtain ⟨heap', hun, -, hok'⟩ := hok.close s.put_tasks_self hi
  rw [State.put_put] at hok'
  exact ⟨heap', hun, hok'⟩

theorem callNext_execve (h : HeapOk s) (ht : s.tasks t = some slave) (hm : Mirrors slave)
    (hret : ¬ ret < 0) :
    ∃ heap' slave', closeSlots (fun tp i => tp.closeOnExec i) s.heap (slave.executed .execve ret) =
      some (heap', slave') ∧ Left s t slave heap' slave' := by
  obtain ⟨heap', slave', heq, hok, hclosed⟩ := (h.executed ht .execve ret).closeSlots
    s.put_tasks_self (fun tp i => tp.closeOnExec i) clear_closeOnExec_of_ne
  rw [State.put_put] at hok
  refine ⟨heap', slave', heq, hok, ⟨fun i r hi => ?_, fun i hi => ?_⟩,
    by rw [hclosed.rest]; exact ⟨rfl, rfl, rfl⟩⟩
  · -- what is left was not close-on-exec, and stays in the kernel's table
    have hopen : ¬ slave.closeOnExec i = true := fun hc => by
      rw [hclosed.empty i hc] at hi
      cases hi
    obtain ⟨hkept, hflag⟩ := hclosed.kept i hopen
    obtain ⟨k, hk, hkc⟩ := hm.kernel i r (hkept ▸ hi)
    refine ⟨k, ?_, hkc.trans hflag.symm⟩
    rw [hclosed.rest]
    show kernelAfter slave.kernel .execve ret i.val = some k
    rw [kernelAfter, if_neg hret, hk]
    have hkf : k.closeOnExec = false := by rw [hkc]; exact Bool.not_eq_true _ ▸ hopen
    simp [Option.filter, hkf]
  · rcases hclosed.cleared i with ⟨hkept, hflag⟩ | hflag
    · rw [hflag]
      exact hm.empty i (hkept ▸ hi)
    · exact hflag

/-! ## Steps and runs -/

theorem Left.ok (h : Left s t slave heap' slave') (hok : Ok s) (hz : slave.zombie = false) :
    Ok (s.put t heap' slave') := by
  refine hok.put h.heap ⟨h.mirrors, ?_, fun hz' => ?_⟩
  · rw [h.rest.1, h.rest.2.1]
    exact .out
  · rw [h.rest.2.2, hz] at hz'
    cases hz'

theorem leave_eq (ht : s.tasks t = some slave) (hcall : slave.call = some call)
    (hnext : slave.nextCall = some next) (hfork : next ≠ .afterFork)
    (hres : callNext closes s.heap (slave.executed call ret) ret next call = some (heap', slave')) :
    leave closes s t ret = some (s.put t heap' slave') := by
  unfold leave
  rw [ht]
  simp only [Option.bind_eq_bind, Option.bind_some, hcall, hnext]
  cases next <;> first | exact absurd rfl hfork | (simp only [hres, Option.bind_some]; rfl)

/-- The second half of every call but a fork. -/
theorem callNext_left (closes : Closes) (hok : Ok s) (ht : s.tasks t = some slave) (hcall : slave.call = some call)
    (hnext : slave.nextCall = some next) (hfork : next ≠ .afterFork)
    (hans : KernelAnswers slave.kernel call ret) :
    ∃ heap' slave', callNext closes s.heap (slave.executed call ret) ret next call =
      some (heap', slave') ∧ Left s t slave heap' slave' := by
  have h := hok.heap
  have hm := (hok.task t slave ht).mirrors
  have hwaits := (hok.task t slave ht).waits
  rw [hcall, hnext] at hwaits
  cases hwaits with
  | returnSaved => exact ⟨_, _, rfl, .unslotted h ht hm (.inl rfl)⟩
  | okfsOpen hexec => exact ⟨_, _, rfl, callNext_okfsOpen h ht hm hexec hans⟩
  | linuxOpen hexec => exact ⟨_, _, rfl, callNext_linuxOpen h ht hm hexec hans⟩
  | close hi =>
    obtain ⟨heap', heq, hleft⟩ := callNext_close closes ret h ht hm hi
    exact ⟨_, _, heq, hleft⟩
  | dup hi => exact callNext_dup h ht hm hi hans
  | dup2 => exact callNext_dup2 h ht hm hans
  | fcntl hi => exact callNext_fcntl h ht hm hi hans
  | fork => exact absurd rfl hfork
  | execve =>
    by_cases hneg : ret < 0
    · rw [callNext, if_pos hneg]
      exact ⟨_, _, rfl, .unslotted h ht hm (.inl
        (show kernelAfter slave.kernel .execve ret = _ by rw [kernelAfter, if_pos hneg]))⟩
    · rw [callNext, if_neg hneg]
      exact callNext_execve h ht hm hneg

/-- The parent and the child of a fork. -/
theorem leave_fork (closes : Closes) (hok : Ok s) (ht : s.tasks t = some slave) (hcall : slave.call = some call)
    (hnext : slave.nextCall = some .afterFork) (hz : slave.zombie = false) (hret : ¬ ret < 0) :
    ∃ files', leave closes s t ret = some { (s.put t { s.heap with files := files' }
        (slave.executed call ret)).put s.nextTask { s.heap with files := files' }
          (slave.executed call ret).child with nextTask := s.nextTask + 1 } ∧
      (∀ r, files' r = (s.heap.files r).map fun filep =>
        { filep with nshared := filep.nshared + (held slave.fdTab r : Int) }) ∧
      Ok { (s.put t { s.heap with files := files' } (slave.executed call ret)).put s.nextTask
        { s.heap with files := files' } (slave.executed call ret).child with
          nextTask := s.nextTask + 1 } := by
  have htask := hok.task t slave ht
  have hwaits := htask.waits
  rw [hcall, hnext] at hwaits
  obtain rfl : call = .fork := by cases hwaits; rfl
  have hm : Mirrors (slave.executed .fork ret) := htask.mirrors.congr rfl rfl rfl
  have hparent : TaskOk (slave.executed .fork ret) :=
    ⟨hm, .out, fun hz' => by rw [show (slave.executed .fork ret).zombie = slave.zombie from rfl, hz] at hz'; cases hz'⟩
  have hchild : TaskOk (slave.executed .fork ret).child :=
    ⟨hm.congr rfl rfl rfl, .out, fun hz' => by cases hz'⟩
  have hok₁ := hok.heap.executed ht .fork ret
  obtain ⟨files', hadd, hfiles, hheap⟩ := hok₁.fork s.put_tasks_self
  refine ⟨files', ?_, hfiles, hheap, forall_put s.heap (forall_put s.heap hok.task hparent) hchild⟩
  rw [State.put_heap] at hadd
  unfold leave
  rw [ht]
  simp only [Option.bind_eq_bind, Option.bind_some, hcall, hnext, if_neg hret, hadd]
  rfl

theorem Ok.leave (hok : Ok s) (hadm : Admissible closes s (.leave t ret)) :
    ∃ s', leave closes s t ret = some s' ∧ Ok s' := by
  obtain ⟨slave, call, ht, hz, hcall, hans⟩ := hadm
  have htask := hok.task t slave ht
  cases hnext : slave.nextCall with
  | none =>
    refine ⟨s.put t s.heap (slave.executed call ret), ?_, ?_⟩
    · unfold FdTab.leave
      rw [ht]
      simp only [Option.bind_eq_bind, Option.bind_some, hcall, hnext]
      rfl
    · have hwaits := htask.waits
      rw [hcall, hnext] at hwaits
      cases hwaits with
      | untracked hfile hon =>
        exact (callNext_untracked hok.heap ht htask.mirrors hfile hon hans).ok hok hz
      | idle hidle =>
        refine (Left.unslotted hok.heap ht htask.mirrors (.inl ?_)).ok hok hz
        rcases hidle with rfl | rfl <;> rfl
  | some next =>
    by_cases hfork : next = .afterFork
    · subst hfork
      by_cases hneg : ret < 0
      · refine ⟨s.put t s.heap (slave.executed call ret), ?_, ?_⟩
        · unfold FdTab.leave
          rw [ht]
          simp only [Option.bind_eq_bind, Option.bind_some, hcall, hnext, if_pos hneg]
          rfl
        · have hwaits := htask.waits
          rw [hcall, hnext] at hwaits
          cases hwaits
          exact (Left.unslotted hok.heap ht htask.mirrors (.inl
            (show kernelAfter slave.kernel .fork ret = slave.kernel from rfl))).ok hok hz
      · obtain ⟨files', heq, -, hok'⟩ := leave_fork closes hok ht hcall hnext hz hneg
        exact ⟨_, heq, hok'⟩
    · obtain ⟨heap', slave', hres, hleft⟩ := callNext_left closes hok ht hcall hnext hfork hans
      exact ⟨_, leave_eq ht hcall hnext hfork hres, hleft.ok hok hz⟩

theorem Ok.enter (hok : Ok s) (ht : s.tasks t = some slave) (hz : slave.zombie = false)
    (resolved : Resolved) : ∃ s', enter s t call resolved = some s' ∧ Ok s' := by
  have htask := hok.task t slave ht
  obtain ⟨heap', slave', heq, hentered⟩ := callBefore_spec hok.heap ht call resolved
  refine ⟨s.put t heap' slave', ?_, hok.put ?_ ⟨?_, ?_, fun hz' => ?_⟩⟩
  · unfold FdTab.enter
    rw [ht]
    simp only [Option.bind_eq_bind, Option.bind_some, heq]
    rfl
  · refine hok.heap.put_same ht ?_ hentered.files (Nat.le_of_eq hentered.nextFile.symm)
    rw [hentered.rest]
  · refine htask.mirrors.congr ?_ ?_ ?_ <;> rw [hentered.rest]
  · have hwaits := hentered.waits
    rw [hentered.rest]
    exact hwaits.congr rfl
  · rw [hentered.rest] at hz'
    rw [show slave.zombie = true from hz'] at hz
    cases hz

/-- The task at its end, with its slots still there. -/
def Task.ended (slave : Task) : Task :=
  { slave with zombie := true, call := none, nextCall := none, kernel := fun _ => none }

theorem die_spec (h : HeapOk s) (ht : s.tasks t = some slave) :
    ∃ heap' slave', closeSlots (fun _ _ => true) s.heap slave.ended = some (heap', slave') ∧
      die s t = some (s.put t heap' slave') ∧ HeapOk (s.put t heap' slave') ∧
      (∀ i, slave'.fdTab i = none) ∧ Closed (fun _ => true = true) slave.ended slave' := by
  have h₁ : HeapOk (s.put t s.heap slave.ended) := h.put_same ht rfl rfl (Nat.le_refl _)
  obtain ⟨heap', slave', heq, hheap, hclosed⟩ := h₁.closeSlots s.put_tasks_self (fun _ _ => true)
    fun _ _ _ _ => rfl
  rw [State.put_put] at hheap
  rw [State.put_heap] at heq
  refine ⟨heap', slave', heq, ?_, hheap, fun i => hclosed.empty i rfl, hclosed⟩
  unfold die
  rw [ht]
  simp only [Option.bind_eq_bind, Option.bind_some]
  rw [show closeSlots (fun _ _ => true) s.heap { slave with
    zombie := true, call := none, nextCall := none, kernel := fun _ => none } = _ from heq]
  rfl

theorem Ok.die (hok : Ok s) (ht : s.tasks t = some slave) : ∃ s', die s t = some s' ∧ Ok s' := by
  obtain ⟨heap', slave', -, heq, hheap, hempty, hclosed⟩ := die_spec hok.heap ht
  refine ⟨_, heq, hok.put hheap ⟨⟨fun i r hi => ?_, fun i _ => ?_⟩, ?_, fun _ => hempty⟩⟩
  · rw [hempty i] at hi
    cases hi
  · rcases hclosed.cleared i with ⟨hfd, hflag⟩ | hflag
    · rw [hflag]
      exact (hok.task t slave ht).mirrors.empty i (hfd.symm.trans (hempty i))
    · exact hflag
  · rw [hclosed.rest]
    exact .out

theorem Ok.reap (hok : Ok s) (ht : s.tasks t = some slave) (hz : slave.zombie = true) :
    Ok { s with tasks := Function.update s.tasks t none } := by
  have hempty := (hok.task t slave ht).zombie hz
  have hrows : State.rows { s with tasks := Function.update s.tasks t none } = s.rows := by
    funext u i
    show ((Function.update s.tasks t none u).bind fun slave => slave.fdTab i) = s.rows u i
    by_cases hu : u = t
    · rw [hu, State.rows_eq ht, hempty i, Function.update_self, Option.bind_none]
    · rw [Function.update_of_ne hu, State.rows]
  refine ⟨⟨hrows ▸ hok.heap.counted, hok.heap.fresh, fun u hu => ?_⟩, fun u tp hu => ?_⟩
  · by_cases hut : u = t
    · rw [hut]
      exact Function.update_self ..
    · exact (Function.update_of_ne hut ..).trans (hok.heap.bounded u hu)
  · by_cases hut : u = t
    · rw [hut] at hu
      cases (Function.update_self ..).symm.trans hu
    · exact hok.task u tp ((Function.update_of_ne hut ..).symm.trans hu)

/-- One step. -/
theorem Ok.step (hok : Ok s) {e : Event} (hadm : Admissible closes s e) :
    ∃ s', step closes s e = some s' ∧ Ok s' := by
  cases e with
  | enter t call resolved =>
    obtain ⟨slave, ht, hz, -⟩ := hadm
    exact hok.enter ht hz resolved
  | leave t ret => exact hok.leave hadm
  | die t =>
    obtain ⟨slave, ht, -⟩ := hadm
    exact hok.die ht
  | reap t =>
    obtain ⟨slave, ht, hz⟩ := hadm
    exact ⟨_, rfl, hok.reap ht hz⟩

theorem Ok.start (inherited : Nat → Option Bool) : Ok (start inherited) := by
  have hrows : (FdTab.start inherited).rows = fun _ _ => none := by
    funext u i
    by_cases hu : u = 0
    · rw [hu, State.rows, start_tasks_zero, Option.bind_some, firstSlave]
    · rw [State.rows, start_tasks_of_ne inherited hu, Option.bind_none]
  refine ⟨⟨⟨fun u _ i => by rw [hrows], fun r c hc => (by cases hc), fun u i r hr => ?_⟩,
    fun r _ => rfl, fun u hu => ?_⟩, fun u tp hu => ?_⟩
  · rw [hrows] at hr
    cases hr
  · exact start_tasks_of_ne inherited (Nat.ne_of_gt (show 0 < u from hu))
  · by_cases hu0 : u = 0
    · rw [hu0, start_tasks_zero] at hu
      obtain rfl := Option.some.inj hu
      exact ⟨⟨fun i r hi => (by cases hi), fun i _ => rfl⟩, .out, fun hz => by cases hz⟩
    · rw [start_tasks_of_ne inherited hu0] at hu
      cases hu

/-- A file of Linux is opened as descriptor 3, and duplicated. -/
def dupRun : List Event :=
  [.enter 0 .open .linux, .leave 0 3, .enter 0 (.dup 3) .linux, .leave 0 4]

theorem dupRun_admissible (closes : Closes) :
    Runs.Along (step closes) (Admissible closes) (start fun _ => none) dupRun := by
  refine ⟨⟨_, rfl, rfl, rfl, trivial⟩, ?_⟩
  rintro _ ⟨⟩
  refine ⟨⟨_, _, rfl, rfl, rfl, .inr rfl⟩, ?_⟩
  rintro _ ⟨⟩
  refine ⟨⟨_, rfl, rfl, rfl, trivial⟩, ?_⟩
  rintro _ ⟨⟩
  exact ⟨⟨_, _, rfl, rfl, rfl, .inr ⟨by decide, rfl, rfl⟩⟩, fun _ _ => trivial⟩

end FdTab

end Okfs
