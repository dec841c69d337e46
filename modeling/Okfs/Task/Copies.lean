import Okfs.Task.Shares

/-!
# OKFS — descriptors and their slots

A descriptor that descends from an open should have a slot with the file of that open:
where it has none, the kernel serves it from the temporary file. Two of the calls lose
slots. `dup2` of a descriptor onto itself frees the slot, and the kernel leaves the
descriptor as it is; and a descriptor from `OPEN_MAX` on has no slot, so what is
duplicated from it to below `OPEN_MAX` gets none. `KeepsSlots` leaves these out.
-/

namespace Okfs

namespace FdTab

variable {s s' : State} {t : TaskRef} {heap heap' : Heap} {slave slave' : Task} {i j : Slot}
  {r : OkfsFileRef} {fd ret : Int} {closes : Closes} {call : Call} {next : Handler} {k : KTable}

/-! ## Where the descriptors come from -/

def KTable.origins (k : KTable) (n : Nat) : Option OkfsFileRef := (k n).bind KFd.origin

theorem KTable.origins_update (k : KTable) (n : Nat) (v : Option KFd) :
    KTable.origins (Function.update k n v) =
      Function.update k.origins n (v.bind KFd.origin) := by
  funext m
  rw [KTable.origins]
  by_cases hm : m = n
  · rw [hm, Function.update_self, Function.update_self]
  · rw [Function.update_of_ne hm, Function.update_of_ne hm, KTable.origins]

theorem KTable.origins_copy (k : KTable) (old new : Int) :
    (k.copy old new).origins = Function.update k.origins new.toNat (k.origins old.toNat) := by
  rw [KTable.copy, KTable.origins_update, KTable.origins]
  cases k old.toNat <;> rfl

theorem KTable.origins_setFlag (k : KTable) (n : Nat) (b : Bool) :
    KTable.origins (Function.update k n ((k n).map fun d => { d with closeOnExec := b })) =
      k.origins := by
  rw [KTable.origins_update, show ((k n).map fun d => { d with closeOnExec := b }).bind
    KFd.origin = k.origins n by rw [KTable.origins]; cases k n <;> rfl, Function.update_eq_self]

/-- The descriptors that descend from an open have its file in their slot. -/
def Tracks (slave : Task) : Prop :=
  ∀ (i : Slot) r, slave.kernel.origins i.val = some r → slave.fdTab i = some r

namespace Tracks

theorem congr (h : Tracks slave) (hfd : slave'.fdTab = slave.fdTab)
    (hkernel : slave'.kernel.origins = slave.kernel.origins) : Tracks slave' := by
  intro i r hi
  rw [hfd]
  exact h i r (hkernel ▸ hi)

theorem setOrigin (h : Tracks slave) {n : Nat} {o : Option OkfsFileRef}
    (hn : ∀ i : Slot, i.val = n → ∀ r, o = some r → slave.fdTab i = some r)
    (hfd : slave'.fdTab = slave.fdTab)
    (hkernel : slave'.kernel.origins = Function.update slave.kernel.origins n o) :
    Tracks slave' := by
  intro i r hi
  rw [hkernel] at hi
  rw [hfd]
  by_cases hin : i.val = n
  · rw [hin, Function.update_self] at hi
    exact hn i hin r hi
  · rw [Function.update_of_ne hin] at hi
    exact h i r hi

theorem setSlot (h : Tracks slave) {i : Slot} {o p : Option OkfsFileRef}
    (ho : ∀ r, p = some r → o = some r)
    (hfd : slave'.fdTab = Function.update slave.fdTab i o)
    (hkernel : slave'.kernel.origins = Function.update slave.kernel.origins i.val p) :
    Tracks slave' := by
  intro j r hj
  rw [hkernel] at hj
  rw [hfd]
  by_cases hji : j = i
  · rw [hji, Function.update_self] at hj
    rw [hji, Function.update_self]
    exact ho r hj
  · rw [Function.update_of_ne fun he => hji (Fin.ext he)] at hj
    rw [Function.update_of_ne hji]
    exact h j r hj

end Tracks

/-! ## The condition -/

/-- What is copied below `OPEN_MAX` is below it, or comes from no open. -/
def CopiesSlot (slave : Task) (fd ret : Int) : Prop :=
  0 ≤ ret → ret < OPEN_MAX → OPEN_MAX ≤ fd → slave.kernel.origins fd.toNat = none

/-- No call that loses a slot. -/
def KeepsSlots (s : State) : Event → Prop
  | .leave t ret => ∀ slave, s.tasks t = some slave → match slave.call with
      | some (.dup fd) => CopiesSlot slave fd ret
      | some (.dup2 oldfd newfd) =>
        if oldfd = newfd then 0 ≤ ret → slave.file newfd = none else CopiesSlot slave oldfd ret
      | some (.fcntl fd cmd _) => cmd = F_DUPFD → CopiesSlot slave fd ret
      | _ => True
  | _ => True

/-! ## The calls -/

namespace Tracks

theorem file (h : Tracks slave) (hpos : 0 ≤ fd)
    (hmax : OPEN_MAX ≤ fd → slave.kernel.origins fd.toNat = none)
    (ho : slave.kernel.origins fd.toNat = some r) : slave.file fd = some r := by
  by_cases hle : (OPEN_MAX : Int) ≤ fd
  · rw [hmax hle] at ho
    cases ho
  · obtain ⟨i, rfl⟩ := exists_slotOf hpos hle
    rw [Int.toNat_natCast] at ho
    rw [Task.file_natCast]
    exact h i r ho

/-- A descriptor and its slot are copied. -/
theorem copied (h : Tracks slave) (fd : Int) (hpos : 0 ≤ fd)
    (hmax : OPEN_MAX ≤ fd → slave.kernel.origins fd.toNat = none)
    (hfd : slave'.fdTab = Function.update slave.fdTab j (slave.file fd))
    (hkernel : slave'.kernel = slave.kernel.copy fd j.val) : Tracks slave' := by
  refine h.setSlot (fun r => h.file hpos hmax) hfd ?_
  rw [hkernel, KTable.origins_copy, Int.toNat_natCast]

/-- A descriptor is copied to where there is no slot. -/
theorem copiedPast (h : Tracks slave) (hmax : ret ≥ OPEN_MAX) (hfd : slave'.fdTab = slave.fdTab)
    (hkernel : slave'.kernel = slave.kernel.copy fd ret) : Tracks slave' := by
  refine h.setOrigin (fun i hi => ?_) hfd (hkernel ▸ KTable.origins_copy ..)
  have hlt := i.isLt
  omega

/-- A descriptor that has no slot is copied. -/
theorem copiedBare (h : Tracks slave) (hpos : 0 ≤ fd) (hfile : slave.file fd = none)
    (hret : 0 ≤ ret) (hc : CopiesSlot slave fd ret) (hfd : slave'.fdTab = slave.fdTab)
    (hkernel : slave'.kernel = slave.kernel.copy fd ret) : Tracks slave' := by
  refine h.setOrigin (fun i hi r hr => ?_) hfd (hkernel ▸ KTable.origins_copy ..)
  have hlt := i.isLt
  rw [h.file hpos (hc hret (by omega)) hr] at hfile
  cases hfile

/-- A descriptor that comes from no open is changed. -/
theorem opened (h : Tracks slave) {n : Nat} {v : Option KFd} (hv : v.bind KFd.origin = none)
    (hfd : slave'.fdTab = slave.fdTab) (hkernel : slave'.kernel = Function.update slave.kernel n v) :
    Tracks slave' := by
  refine h.setOrigin (n := n) (o := none) (fun i _ r hr => by cases hr) hfd ?_
  rw [hkernel, KTable.origins_update, hv]

theorem add (h : Tracks slave) {c : Bool} (hfd : slave'.fdTab = Function.update slave.fdTab i (some r))
    (hkernel : slave'.kernel = Function.update slave.kernel i.val (some ⟨c, some r⟩)) :
    Tracks slave' := by
  refine h.setSlot (o := some r) (p := some r) (fun _ hr => hr) hfd ?_
  rw [hkernel, KTable.origins_update]
  rfl

end Tracks

theorem Tracks.okfsOpen (h : Tracks slave) (hcall : call = .open ∨ ∃ nr, call = .number nr)
    (hans : KernelAnswers slave.kernel call ret) :
    Tracks (okfsAfterOkfsOpen heap (slave.executed call ret) ret).2 := by
  rw [okfsAfterOkfsOpen]
  by_cases hneg : ret < 0
  · have hslot : slotOf ret = none := by
      rw [slotOf, dif_neg fun h => absurd h.1 (by omega)]
    rw [if_neg (by have : OPEN_MAX = 256 := rfl; omega), hslot]
    refine h.congr rfl (congrArg KTable.origins ?_)
    exact kernelAfter_open_failed (by tauto) slave.kernel hneg
  · obtain rfl : call = .open := by
      rcases hcall with hcall | ⟨nr, rfl⟩
      · exact hcall
      · exact absurd hans hneg
    have hkernel := kernelAfter_open (.inl rfl) slave.kernel hneg
    by_cases hmax : ret ≥ OPEN_MAX
    · rw [if_pos hmax]
      exact h.opened rfl rfl hkernel
    · obtain ⟨i, rfl⟩ := exists_slotOf (Int.not_lt.mp hneg) hmax
      rw [if_neg hmax, slotOf_natCast]
      refine h.add (c := false) rfl ?_
      show KTable.mark (kernelAfter slave.kernel .open i.val) i.val _ = _
      rw [hkernel, mark_update, Int.toNat_natCast]

theorem Tracks.linuxOpen (h : Tracks slave) (hcall : call = .open ∨ call = .creat) :
    Tracks (okfsAfterLinuxOpen heap (slave.executed call ret) ret).2 := by
  rw [okfsAfterLinuxOpen]
  by_cases hneg : ret < 0
  · have hslot : slotOf ret = none := by
      rw [slotOf, dif_neg fun h => absurd h.1 (by omega)]
    rw [if_neg (by have : OPEN_MAX = 256 := rfl; omega), hslot]
    refine h.congr rfl (congrArg KTable.origins ?_)
    exact kernelAfter_open_failed (by tauto) slave.kernel hneg
  · have hkernel : ∀ r, KTable.mark (kernelAfter slave.kernel call ret) ret r =
        Function.update slave.kernel ret.toNat (some ⟨false, some r⟩) := fun r => by
      rw [kernelAfter_open hcall slave.kernel hneg, mark_update]
    by_cases hmax : ret ≥ OPEN_MAX
    · rw [if_pos hmax]
      refine h.setOrigin (fun i hi => ?_) rfl ((congrArg KTable.origins (hkernel _)).trans
        (KTable.origins_update ..))
      have hlt := i.isLt
      omega
    · obtain ⟨i, rfl⟩ := exists_slotOf (Int.not_lt.mp hneg) hmax
      rw [if_neg hmax, slotOf_natCast]
      exact h.add rfl ((hkernel _).trans (by rw [Int.toNat_natCast]))

theorem Tracks.dup (h : Tracks slave) (hres : okfsDup heap (slave.executed (.dup i.val) ret) i.val ret =
      some (heap', slave')) : Tracks slave' := by
  have hkernel : ¬ ret < 0 →
      kernelAfter slave.kernel (.dup i.val) ret = slave.kernel.copy i.val ret := fun hneg => if_neg hneg
  unfold okfsDup at hres
  split at hres
  · rename_i hmax
    obtain rfl : _ = slave' := congrArg Prod.snd (Option.some.inj hres)
    exact h.copiedPast hmax rfl (hkernel (by have : OPEN_MAX = 256 := rfl; omega))
  · rcases okfsDoDup_inv hres with ⟨hneg, -, rfl⟩ | ⟨i', j, r, hi, rfl, -, -, rfl⟩
    · exact h.congr rfl (congrArg KTable.origins (show kernelAfter slave.kernel (.dup i.val) ret = _
        from if_pos hneg))
    · obtain rfl : i = i' := Fin.ext (by exact_mod_cast hi)
      have hlt := i.isLt
      refine h.copied i.val (by omega) (fun hle => by omega) ?_ (hkernel (by omega))
      rw [Task.file_natCast]
      rfl

theorem Tracks.dup2 (h : Tracks slave) (hok : HeapOk s) (ht : s.tasks t = some slave)
    (hm : Mirrors slave) {oldfd newfd : Int}
    (hans : KernelAnswers slave.kernel (.dup2 oldfd newfd) ret)
    (hkeeps : if oldfd = newfd then 0 ≤ ret → slave.file newfd = none
      else CopiesSlot slave oldfd ret)
    (hres : okfsDup2 s.heap (slave.executed (.dup2 oldfd newfd) ret) oldfd ret =
      some (heap', slave')) : Tracks slave' := by
  have hkernel : kernelAfter slave.kernel (.dup2 oldfd newfd) ret =
    if ret < 0 ∨ oldfd = newfd then slave.kernel else slave.kernel.copy oldfd newfd := rfl
  by_cases hneg : ret < 0
  · rw [okfsDup2, if_pos hneg, Option.some.injEq] at hres
    obtain rfl : _ = slave' := congrArg Prod.snd hres
    exact h.congr rfl (congrArg KTable.origins (hkernel.trans (if_pos (.inl hneg))))
  obtain ⟨hold, -, rfl⟩ := hans.resolve_left hneg
  by_cases hmax : ret ≥ OPEN_MAX
  · rw [okfsDup2, if_neg hneg, if_pos hmax, Option.some.injEq] at hres
    obtain rfl : _ = slave' := congrArg Prod.snd hres
    by_cases hsame : oldfd = ret
    · exact h.congr rfl (congrArg KTable.origins (hkernel.trans (if_pos (.inr hsame))))
    · exact h.copiedPast hmax rfl (hkernel.trans (if_neg (by tauto)))
  · obtain ⟨j, rfl⟩ := exists_slotOf (Int.not_lt.mp hneg) hmax
    obtain ⟨heap₁, heap₂, slave₂, heq, -, -, -, hslave₂⟩ :=
      (hok.executed ht (.dup2 oldfd j.val) j.val).dup2 s.put_tasks_self
        (show ∀ i, slave.fdTab i = none → slave.closeOnExec i = false from hm.empty) oldfd j
    rw [State.put_heap, hres, Option.some.injEq, Prod.mk.injEq] at heq
    rw [← heq.2] at hslave₂
    by_cases hsame : oldfd = (j.val : Int)
    · -- the slot was empty, and is left so
      rw [if_pos hsame] at hkeeps
      have hj : slave.fdTab j = none := by
        rw [← Task.file_natCast]
        exact hkeeps (by omega)
      refine h.congr ?_ ?_
      · rw [hslave₂, Task.dup2File, if_pos hsame, ← hj]
        exact Function.update_eq_self j slave.fdTab
      · rw [hslave₂]
        exact congrArg KTable.origins (hkernel.trans (if_pos (.inr hsame)))
    · rw [if_neg hsame] at hkeeps
      refine h.copied oldfd hold (hkeeps (by omega) (Int.not_le.mp hmax)) (j := j) ?_ ?_
      · rw [hslave₂, Task.dup2File, if_neg hsame]
        rfl
      · rw [hslave₂]
        exact hkernel.trans (if_neg (by omega))

theorem Tracks.fcntl (h : Tracks slave) {cmd arg : Nat}
    (hres : okfsAfterFcntl heap (slave.executed (.fcntl i.val cmd arg) ret) i.val cmd arg ret =
      some (heap', slave')) : Tracks slave' := by
  have hkernel : kernelAfter slave.kernel (.fcntl i.val cmd arg) ret =
    if ret < 0 then slave.kernel
    else if cmd = F_DUPFD then slave.kernel.copy i.val ret
    else if cmd = F_SETFD then
      Function.update slave.kernel (i.val : Int).toNat ((slave.kernel (i.val : Int).toNat).map
        fun d => { d with closeOnExec := decide (arg &&& FD_CLOEXEC > 0) })
    else slave.kernel := rfl
  unfold okfsAfterFcntl at hres
  by_cases hneg : ret < 0
  · rw [if_pos hneg, Option.some.injEq] at hres
    obtain rfl : _ = slave' := congrArg Prod.snd hres
    exact h.congr rfl (congrArg KTable.origins (hkernel.trans (if_pos hneg)))
  rw [if_neg hneg] at hres hkernel
  by_cases hcmd : cmd = F_DUPFD
  · rw [if_pos hcmd] at hres hkernel
    by_cases hmax : ret ≥ OPEN_MAX
    · rw [if_pos hmax, Option.some.injEq] at hres
      obtain rfl : _ = slave' := congrArg Prod.snd hres
      exact h.copiedPast hmax rfl hkernel
    · rw [if_neg hmax] at hres
      rcases okfsDoDup_inv hres with ⟨hneg', -⟩ | ⟨i', j, r, hi, rfl, -, -, rfl⟩
      · exact absurd hneg' hneg
      · obtain rfl : i = i' := Fin.ext (by exact_mod_cast hi)
        have hlt := i.isLt
        refine h.copied i.val (by omega) (fun hle => by omega) ?_ hkernel
        rw [Task.file_natCast]
        rfl
  rw [if_neg hcmd] at hres hkernel
  by_cases hset : cmd = F_SETFD
  · rw [if_pos hset, slotOf_natCast, Option.bind_eq_bind, Option.bind_some, Option.pure_def,
      Option.some.injEq] at hres
    obtain rfl : _ = slave' := congrArg Prod.snd hres
    rw [if_pos hset] at hkernel
    exact h.congr rfl ((congrArg KTable.origins hkernel).trans (KTable.origins_setFlag ..))
  · rw [if_neg hset, Option.some.injEq] at hres
    obtain rfl : _ = slave' := congrArg Prod.snd hres
    exact h.congr rfl (congrArg KTable.origins (hkernel.trans (if_neg hset)))

theorem Tracks.execve (h : Tracks slave) (hok : HeapOk s) (ht : s.tasks t = some slave)
    (hm : Mirrors slave) (hret : ¬ ret < 0)
    (hres : closeSlots (fun tp i => tp.closeOnExec i) s.heap (slave.executed .execve ret) =
      some (heap', slave')) : Tracks slave' := by
  obtain ⟨heap₁, slave₁, heq, -, hclosed⟩ := (hok.executed ht .execve ret).closeSlots
    s.put_tasks_self (fun tp i => tp.closeOnExec i) clear_closeOnExec_of_ne
  rw [State.put_heap, hres, Option.some.injEq, Prod.mk.injEq] at heq
  rw [← heq.2] at hclosed
  intro i r hi
  have hkernel : slave'.kernel i.val = (slave.kernel i.val).filter fun d => !d.closeOnExec := by
    rw [hclosed.rest]
    show kernelAfter slave.kernel .execve ret i.val = _
    rw [kernelAfter, if_neg hret]
  rw [KTable.origins, hkernel, Option.bind_eq_some_iff] at hi
  obtain ⟨k, hk, hr⟩ := hi
  obtain ⟨hk, hflag⟩ := Option.filter_eq_some_iff.mp hk
  have hi : slave.fdTab i = some r := h i r (by rw [KTable.origins, hk, Option.bind_some, hr])
  obtain ⟨k', hk', hk'c⟩ := hm.kernel i r hi
  obtain rfl : k = k' := Option.some.inj (hk.symm.trans hk')
  refine (hclosed.kept i fun hc => ?_).1.trans hi
  rw [show (slave.executed .execve ret).closeOnExec i = slave.closeOnExec i from rfl, ← hk'c] at hc
  rw [hc] at hflag
  cases hflag

/-- A call that has no second half. -/
theorem Tracks.untracked (h : Tracks slave) (hfile : slave.file fd = none)
    (hon : call = .close fd ∨ call = .dup fd ∨ ∃ cmd arg, call = .fcntl fd cmd arg)
    (hans : KernelAnswers slave.kernel call ret)
    (hkeeps : match call with
      | .dup fd => CopiesSlot slave fd ret
      | .fcntl fd cmd _ => cmd = F_DUPFD → CopiesSlot slave fd ret
      | _ => True) : Tracks (slave.executed call ret) := by
  rcases hon with rfl | rfl | ⟨cmd, arg, rfl⟩
  · by_cases hneg : fd < 0
    · exact h.congr rfl (congrArg KTable.origins (if_pos hneg))
    · exact h.opened rfl rfl (if_neg hneg)
  · by_cases hneg : ret < 0
    · exact h.congr rfl (congrArg KTable.origins (if_pos hneg))
    · exact h.copiedBare (hans.resolve_left hneg).1 hfile (Int.not_lt.mp hneg) hkeeps rfl
        (if_neg hneg)
  · by_cases hneg : ret < 0
    · exact h.congr rfl (congrArg KTable.origins (if_pos hneg))
    · by_cases hcmd : cmd = F_DUPFD
      · exact h.copiedBare (hans.resolve_left hneg).1 hfile (Int.not_lt.mp hneg) (hkeeps hcmd) rfl
          ((if_neg hneg).trans (if_pos hcmd))
      · refine h.congr rfl ?_
        show (kernelAfter slave.kernel (.fcntl fd cmd arg) ret).origins = _
        rw [kernelAfter, if_neg hneg, if_neg hcmd]
        split
        · exact KTable.origins_setFlag ..
        · rfl

/-! ## Runs -/

structure Tracked (s : State) : Prop where
  ok : Ok s
  task : ∀ t slave, s.tasks t = some slave → Tracks slave

theorem Tracked.put (h : Tracked s) (hok : Ok (s.put t heap slave)) (htask : Tracks slave) :
    Tracked (s.put t heap slave) := by
  exact ⟨hok, forall_put heap h.task htask⟩

theorem Tracked.callNext (h : Tracked s) (ht : s.tasks t = some slave) (hcall : slave.call = some call)
    (hnext : slave.nextCall = some next) (hans : KernelAnswers slave.kernel call ret)
    (hkeeps : KeepsSlots s (.leave t ret))
    (hres : callNext closes s.heap (slave.executed call ret) ret next call = some (heap', slave')) :
    Tracks slave' := by
  have htracks := h.task t slave ht
  have hok := h.ok.heap
  have hm := (h.ok.task t slave ht).mirrors
  have hwaits := (h.ok.task t slave ht).waits
  have hkeeps := hkeeps slave ht
  rw [hcall] at hkeeps
  rw [hcall, hnext] at hwaits
  cases hwaits with
  | returnSaved =>
    obtain rfl : _ = slave' := congrArg Prod.snd (Option.some.inj hres)
    exact htracks.congr rfl rfl
  | okfsOpen hexec =>
    obtain rfl : _ = slave' := congrArg Prod.snd (Option.some.inj hres)
    exact htracks.okfsOpen hexec hans
  | linuxOpen hexec =>
    obtain rfl : _ = slave' := congrArg Prod.snd (Option.some.inj hres)
    exact htracks.linuxOpen hexec
  | @close i r hi =>
    obtain ⟨heap₁, heq, -⟩ := callNext_close closes ret hok ht hm hi
    obtain rfl : _ = slave' := congrArg Prod.snd (Option.some.inj (heq.symm.trans hres))
    refine htracks.setSlot (o := none) (p := none) (fun _ hr => hr) rfl ?_
    show (kernelAfter slave.kernel (.close i.val) ret).origins = _
    rw [kernelAfter, if_neg (by omega), KTable.origins_update, Int.toNat_natCast, Option.bind_none]
  | dup hi => exact htracks.dup hres
  | dup2 => exact htracks.dup2 hok ht hm hans hkeeps hres
  | fcntl hi => exact htracks.fcntl hres
  | fork => cases hres
  | execve =>
    by_cases hneg : ret < 0
    · rw [FdTab.callNext, if_pos hneg, Option.some.injEq] at hres
      obtain rfl : _ = slave' := congrArg Prod.snd hres
      exact htracks.congr rfl (congrArg KTable.origins (if_pos hneg))
    · rw [FdTab.callNext, if_neg hneg] at hres
      exact htracks.execve hok ht hm hneg hres

theorem Tracked.leave (h : Tracked s) (hadm : Admissible closes s (.leave t ret))
    (hkeeps : KeepsSlots s (.leave t ret)) :
    ∃ s', leave closes s t ret = some s' ∧ Tracked s' := by
  obtain ⟨s', hs', hok'⟩ := h.ok.leave hadm
  refine ⟨s', hs', hok', ?_⟩
  obtain ⟨slave, call, ht, hz, hcall, hans⟩ := hadm
  have htracks := h.task t slave ht
  have hwaits := (h.ok.task t slave ht).waits
  have hput : ∀ heap' slave', Tracks slave' → s' = s.put t heap' slave' →
      ∀ u tp, s'.tasks u = some tp → Tracks tp := by
    rintro heap' slave' hslave' rfl
    exact (h.put hok' hslave').task
  cases hnext : slave.nextCall with
  | none =>
    unfold FdTab.leave at hs'
    rw [ht] at hs'
    simp only [Option.bind_eq_bind, Option.bind_some, hcall, hnext, Option.pure_def,
      Option.some.injEq] at hs'
    refine hput _ _ ?_ hs'.symm
    have hkeeps := hkeeps slave ht
    rw [hcall] at hkeeps
    rw [hcall, hnext] at hwaits
    cases hwaits with
    | untracked hfile hon =>
      refine htracks.untracked hfile hon hans ?_
      rcases hon with rfl | rfl | ⟨cmd, arg, rfl⟩
      · trivial
      · exact hkeeps
      · exact hkeeps
    | idle hidle =>
      refine htracks.congr rfl ?_
      rcases hidle with rfl | rfl <;> rfl
  | some next =>
    by_cases hfork : next = .afterFork
    · subst hfork
      rw [hcall, hnext] at hwaits
      cases hwaits
      have hslave : Tracks (slave.executed .fork ret) := htracks.congr rfl rfl
      by_cases hneg : ret < 0
      · unfold FdTab.leave at hs'
        rw [ht] at hs'
        simp only [Option.bind_eq_bind, Option.bind_some, hcall, hnext, if_pos hneg, Option.pure_def,
          Option.some.injEq] at hs'
        exact hput _ _ hslave hs'.symm
      · obtain ⟨files', heq, -, -⟩ := leave_fork closes h.ok ht hcall hnext hz hneg
        obtain rfl := Option.some.inj (heq.symm.trans hs')
        exact forall_put s.heap (forall_put s.heap h.task hslave) (hslave.congr rfl rfl)
    · obtain ⟨heap', slave', hres, -⟩ := callNext_left closes h.ok ht hcall hnext hfork hans
      exact hput heap' slave' (h.callNext ht hcall hnext hans hkeeps hres)
        (Option.some.inj (hs'.symm.trans (leave_eq ht hcall hnext hfork hres)))

theorem Tracked.step (h : Tracked s) {e : Event} (hadm : Admissible closes s e)
    (hkeeps : KeepsSlots s e) : ∃ s', step closes s e = some s' ∧ Tracked s' := by
  obtain ⟨s', hs', hok'⟩ := h.ok.step hadm
  refine ⟨s', hs', ?_⟩
  cases e with
  | enter t call resolved =>
    obtain ⟨slave, ht, hz, -⟩ := hadm
    obtain ⟨heap', slave', heq, hentered⟩ := callBefore_spec h.ok.heap ht call resolved
    obtain rfl : s.put t heap' slave' = s' := by
      refine Option.some.inj (Eq.trans ?_ hs')
      show _ = FdTab.enter s t call resolved
      unfold FdTab.enter
      rw [ht]
      simp only [Option.bind_eq_bind, Option.bind_some, heq]
      rfl
    refine h.put hok' ((h.task t slave ht).congr ?_ ?_) <;> rw [hentered.rest]
  | leave t ret =>
    obtain ⟨s₁, hs₁, h₁⟩ := h.leave hadm hkeeps
    obtain rfl := Option.some.inj (hs₁.symm.trans hs')
    exact h₁
  | die t =>
    obtain ⟨slave, ht, -⟩ := hadm
    obtain ⟨heap', slave', -, hs₁, -, -, hclosed⟩ := die_spec h.ok.heap ht
    obtain rfl := Option.some.inj (hs₁.symm.trans hs')
    refine h.put hok' fun i r hi => ?_
    rw [hclosed.rest] at hi
    cases hi
  | reap t =>
    obtain rfl := Option.some.inj hs'
    refine ⟨hok', fun u tp hu => ?_⟩
    by_cases hut : u = t
    · rw [hut] at hu
      cases (Function.update_self ..).symm.trans hu
    · exact h.task u tp ((Function.update_of_ne hut ..).symm.trans hu)

/-- **Descriptors keep their slots.** In a run that does not duplicate a descriptor onto
itself, or one from `OPEN_MAX` on to below it, every descriptor below `OPEN_MAX` that
descends from an open has the file of that open in its slot. -/
theorem slots_kept (inherited : Nat → Option Bool) {es : List Event}
    (hal : Runs.Along (step closes) (Admissible closes) (start inherited) es)
    (hkeeps : Runs.Along (step closes) KeepsSlots (start inherited) es) :
    ∃ s, Runs.exec (step closes) (start inherited) es = some s ∧
      ∀ t slave (i : Slot) k r, s.tasks t = some slave → slave.kernel i.val = some k →
        k.origin = some r → slave.fdTab i = some r := by
  have hstart : Tracked (start inherited) := by
    refine ⟨Ok.start inherited, fun t slave ht i r hi => ?_⟩
    by_cases h0 : t = 0
    · rw [h0, start_tasks_zero] at ht
      obtain rfl := Option.some.inj ht
      rw [firstSlave, KTable.origins, Option.bind_map] at hi
      cases hinh : inherited i.val <;> rw [hinh] at hi <;> cases hi
    · rw [start_tasks_of_ne inherited h0] at ht
      cases ht
  obtain ⟨s, hrun, h⟩ := Runs.exec_inv (fun s e htracked hC => Tracked.step htracked hC.1 hC.2) es
    (start inherited) hstart (hal.and hkeeps)
  refine ⟨s, hrun, fun t slave i k r ht hk hr => h.task t slave ht i r ?_⟩
  rw [KTable.origins, hk, Option.bind_some, hr]

/-- A file of Linux is opened as descriptor 3, and descriptor 3 duplicated onto itself. -/
def dupOntoSelf : List Event :=
  [.enter 0 .open .linux, .leave 0 3, .enter 0 (.dup2 3 3) .linux, .leave 0 3]

/-- The slot is gone, and the descriptor is not. -/
theorem slot_lost_by_dup2 :
    Runs.Along (step fun _ => true) (Admissible fun _ => true) (start fun _ => none) dupOntoSelf ∧
      ∃ s slave k, Runs.exec (step fun _ => true) (start fun _ => none) dupOntoSelf = some s ∧
        s.tasks 0 = some slave ∧ slave.kernel 3 = some k ∧ k.origin = some 0 ∧
        slave.fdTab ⟨3, by decide⟩ = none := by
  refine ⟨?_, _, _, _, rfl, rfl, rfl, rfl, rfl⟩
  refine ⟨⟨_, rfl, rfl, rfl, trivial⟩, ?_⟩
  rintro _ ⟨⟩
  refine ⟨⟨_, _, rfl, rfl, rfl, .inr rfl⟩, ?_⟩
  rintro _ ⟨⟩
  refine ⟨⟨_, rfl, rfl, rfl, trivial⟩, ?_⟩
  rintro _ ⟨⟩
  exact ⟨⟨_, _, rfl, rfl, rfl, .inr ⟨by decide, rfl, rfl⟩⟩, fun _ _ => trivial⟩

/-- Descriptor 3 duplicated to 4. -/
theorem slots_kept_dup :
    ∃ s slave k, Runs.exec (step fun _ => true) (start fun _ => none) dupRun = some s ∧
      s.tasks 0 = some slave ∧ slave.kernel 4 = some k ∧ k.origin = some 0 ∧
      slave.fdTab ⟨4, by decide⟩ = some 0 := by
  have hkeeps : Runs.Along (step fun _ => true) KeepsSlots (start fun _ => none) dupRun := by
    refine ⟨trivial, ?_⟩
    rintro _ ⟨⟩
    refine ⟨fun slave hslave => ?_, ?_⟩
    · obtain rfl := Option.some.inj hslave
      trivial
    rintro _ ⟨⟩
    refine ⟨trivial, ?_⟩
    rintro _ ⟨⟩
    refine ⟨fun slave hslave => ?_, fun _ _ => trivial⟩
    obtain rfl := Option.some.inj hslave
    exact fun _ _ hle => absurd hle (by decide)
  obtain ⟨s, hrun, hslots⟩ := slots_kept (fun _ => none) (dupRun_admissible fun _ => true) hkeeps
  obtain rfl := Option.some.inj hrun
  exact ⟨_, _, _, rfl, rfl, rfl, rfl, hslots 0 _ ⟨4, by decide⟩ _ 0 rfl rfl rfl⟩

end FdTab

end Okfs
