import Mathlib.Algebra.BigOperators.Fin
import Mathlib.Algebra.Order.BigOperators.Group.Finset

/-!
# Tables of references with counts

Rows of `n` slots hold references to objects, and each object has a count. `Counted`
says that the counts are those of the slots, that an object without slots is gone, and
that no slot holds an object that is gone.

* `Counted.create`  — an empty slot takes a new object.
* `Counted.share`   — an empty slot takes an object that is there.
* `Counted.unshare` — a slot is emptied; an object whose count comes to 0 goes.
* `Counted.copyRow` — a row is copied to a new one.
-/

namespace RefTable

open Finset

variable {n m : Nat} {ρ : Type*} [DecidableEq ρ]

/-- The slots of a row that hold `r`. -/
def held (row : Fin n → Option ρ) (r : ρ) : Nat := ∑ i, if row i = some r then 1 else 0

/-- The slots of the first `m` rows that hold `r`. -/
def total (m : Nat) (rows : Nat → Fin n → Option ρ) (r : ρ) : Nat := ∑ t ∈ range m, held (rows t) r

variable {row : Fin n → Option ρ} {rows : Nat → Fin n → Option ρ} {i : Fin n} {t : Nat} {r : ρ}

theorem held_pos (h : row i = some r) : 0 < held row r := by
  refine sum_pos' (fun _ _ => Nat.zero_le _) ⟨i, mem_univ i, ?_⟩
  rw [if_pos h]
  exact Nat.one_pos

/-- One summand changes. -/
theorem sum_change {α : Type*} [DecidableEq α] {S : Finset α} {f g : α → Nat} {a : α} (ha : a ∈ S)
    (hne : ∀ b, b ≠ a → g b = f b) : ∑ b ∈ S, g b + f a = ∑ b ∈ S, f b + g a := by
  have hrest : ∑ b ∈ S.erase a, g b = ∑ b ∈ S.erase a, f b :=
    sum_congr rfl fun b hb => hne b (ne_of_mem_erase hb)
  have hg := add_sum_erase S g ha
  have hf := add_sum_erase S f ha
  omega

theorem held_update (o : Option ρ) :
    held (Function.update row i o) r + (if row i = some r then 1 else 0) =
      held row r + if o = some r then 1 else 0 := by
  have h := sum_change (f := fun j => if row j = some r then 1 else 0)
    (g := fun j => if Function.update row i o j = some r then 1 else 0) (mem_univ i)
    fun j hj => by rw [Function.update_of_ne hj]
  rwa [Function.update_self] at h

theorem total_update (ht : t < m) (row : Fin n → Option ρ) :
    total m (Function.update rows t row) r + held (rows t) r = total m rows r + held row r := by
  have h := sum_change (f := fun u => held (rows u) r)
    (g := fun u => held (Function.update rows t row u) r) (mem_range.mpr ht)
    fun u hu => by rw [Function.update_of_ne hu]
  rwa [Function.update_self] at h

theorem total_congr {rows' : Nat → Fin n → Option ρ} (h : ∀ t < m, rows t = rows' t) :
    total m rows r = total m rows' r :=
  sum_congr rfl fun t ht => by rw [h t (mem_range.mp ht)]

theorem le_total (ht : t < m) : held (rows t) r ≤ total m rows r :=
  single_le_sum (f := fun u => held (rows u) r) (fun _ _ => Nat.zero_le _) (mem_range.mpr ht)

/-- The slots, as a set. -/
theorem total_eq_card :
    total m rows r = ((range m ×ˢ univ).filter fun x : Nat × Fin n => rows x.1 x.2 = some r).card := by
  rw [card_filter, sum_product]
  rfl

theorem one_lt_total {u : Nat} {j : Fin n} (ht : t < m) (hu : u < m) (hi : rows t i = some r)
    (hj : rows u j = some r) (hne : (t, i) ≠ (u, j)) : 1 < total m rows r := by
  rw [total_eq_card, one_lt_card]
  refine ⟨(t, i), ?_, (u, j), ?_, hne⟩
  · exact mem_filter.mpr ⟨mem_product.mpr ⟨mem_range.mpr ht, mem_univ i⟩, hi⟩
  · exact mem_filter.mpr ⟨mem_product.mpr ⟨mem_range.mpr hu, mem_univ j⟩, hj⟩

/-- The counts are those of the slots. -/
structure Counted (m : Nat) (rows : Nat → Fin n → Option ρ) (count : ρ → Option Int) : Prop where
  bounded : ∀ t, m ≤ t → ∀ i, rows t i = none
  counted : ∀ r c, count r = some c → c = total m rows r ∧ 0 < c
  live : ∀ t i r, rows t i = some r → ∃ c, count r = some c

namespace Counted

variable {count : ρ → Option Int} {c : Int}

theorem lt (h : Counted m rows count) (hr : rows t i = some r) : t < m := by
  by_contra hle
  rw [h.bounded t (Nat.le_of_not_lt hle) i] at hr
  cases hr

theorem total_eq_zero (h : Counted m rows count) (hr : count r = none) : total m rows r = 0 := by
  refine sum_eq_zero fun t _ => sum_eq_zero fun i _ => if_neg fun hi => ?_
  obtain ⟨c, hc⟩ := h.live t i r hi
  rw [hr] at hc
  cases hc

/-- What one slot holds changes, and the counts with it. -/
theorem set (h : Counted m rows count) (ht : t < m) (o : Option ρ) {count' : ρ → Option Int}
    (hcounted : ∀ r c, count' r = some c → 0 < c ∧
      c + (if rows t i = some r then 1 else 0) = total m rows r + (if o = some r then 1 else 0))
    (hlive : ∀ r, o = some r → ∃ c, count' r = some c)
    (hkeep : ∀ r c, count r = some c → (∃ c, count' r = some c) ∨
      (rows t i = some r ∧ c = 1 ∧ o ≠ some r)) :
    Counted m (Function.update rows t (Function.update (rows t) i o)) count' := by
  have htotal : ∀ r, total m (Function.update rows t (Function.update (rows t) i o)) r +
      (if rows t i = some r then 1 else 0) = total m rows r + if o = some r then 1 else 0 := by
    intro r
    have hrow : held (Function.update (rows t) i o) r + _ = held (rows t) r + _ := held_update o
    have hall : total m (Function.update rows t (Function.update (rows t) i o)) r + _ =
      total m rows r + _ := total_update ht _
    omega
  refine ⟨fun u hu j => ?_, fun r c hc => ?_, fun u j r hr => ?_⟩
  · rw [Function.update_of_ne (by omega)]
    exact h.bounded u hu j
  · obtain ⟨hpos, heq⟩ := hcounted r c hc
    have htotal := htotal r
    refine ⟨?_, hpos⟩
    split_ifs at heq htotal <;> omega
  · by_cases hnew : u = t ∧ j = i
    · obtain ⟨rfl, rfl⟩ := hnew
      rw [Function.update_self, Function.update_self] at hr
      exact hlive r hr
    · have hold : rows u j = some r := by
        by_cases hu : u = t
        · rw [hu, Function.update_self, Function.update_of_ne fun hj => hnew ⟨hu, hj⟩] at hr
          rw [hu]
          exact hr
        · rwa [Function.update_of_ne hu] at hr
      obtain ⟨c, hc⟩ := h.live u j r hold
      rcases hkeep r c hc with hkept | ⟨hti, hone, hno⟩
      · exact hkept
      · -- the only slot of `r` was another one
        exfalso
        have htotal := htotal r
        rw [if_pos hti, if_neg hno, ← Int.natCast_inj, Nat.cast_add, Nat.cast_add,
          ← (h.counted r c hc).1, hone] at htotal
        have hpos : 0 < held (Function.update rows t (Function.update (rows t) i o) u) r :=
          held_pos hr
        have hle : _ ≤ total m (Function.update rows t (Function.update (rows t) i o)) r :=
          le_total (h.lt hold)
        push_cast at htotal
        omega

theorem create (h : Counted m rows count) (ht : t < m) (hempty : rows t i = none)
    (hr : count r = none) :
    Counted m (Function.update rows t (Function.update (rows t) i (some r)))
      (Function.update count r (some 1)) := by
  refine h.set ht (some r) (fun q c hc => ?_) (fun q hq => ?_) fun q c hc => ?_
  · rw [hempty, if_neg (by simp)]
    by_cases hq : q = r
    · rw [hq, Function.update_self, Option.some.injEq] at hc
      rw [hq, if_pos rfl, h.total_eq_zero hr, ← hc]
      exact ⟨by omega, rfl⟩
    · rw [Function.update_of_ne hq] at hc
      rw [if_neg fun hrq => hq (Option.some.inj hrq).symm]
      exact ⟨(h.counted q c hc).2, by simpa using (h.counted q c hc).1⟩
  · rw [← Option.some.inj hq, Function.update_self]
    exact ⟨1, rfl⟩
  · refine .inl ⟨c, ?_⟩
    rwa [Function.update_of_ne]
    rintro rfl
    rw [hr] at hc
    cases hc

theorem share (h : Counted m rows count) (ht : t < m) (hempty : rows t i = none)
    (hr : count r = some c) :
    Counted m (Function.update rows t (Function.update (rows t) i (some r)))
      (Function.update count r (some (c + 1))) := by
  refine h.set ht (some r) (fun q d hd => ?_) (fun q hq => ?_) fun q d hd => ?_
  · rw [hempty, if_neg (by simp)]
    by_cases hq : q = r
    · rw [hq, Function.update_self, Option.some.injEq] at hd
      obtain ⟨heq, hpos⟩ := h.counted r c hr
      rw [hq, if_pos rfl, ← hd, ← heq]
      exact ⟨by omega, by simp⟩
    · rw [Function.update_of_ne hq] at hd
      rw [if_neg fun hrq => hq (Option.some.inj hrq).symm]
      exact ⟨(h.counted q d hd).2, by simpa using (h.counted q d hd).1⟩
  · rw [← Option.some.inj hq, Function.update_self]
    exact ⟨_, rfl⟩
  · by_cases hq : q = r
    · exact .inl ⟨c + 1, by rw [hq, Function.update_self]⟩
    · exact .inl ⟨d, by rwa [Function.update_of_ne hq]⟩

theorem unshare (h : Counted m rows count) (hslot : rows t i = some r) (hr : count r = some c) :
    Counted m (Function.update rows t (Function.update (rows t) i none))
      (Function.update count r (if c - 1 = 0 then none else some (c - 1))) := by
  obtain ⟨heq, hpos⟩ := h.counted r c hr
  refine h.set (h.lt hslot) none (fun q d hd => ?_) (fun q hq => by cases hq) fun q d hd => ?_
  · rw [hslot, if_neg (by simp : ¬ (none : Option ρ) = some q)]
    by_cases hq : q = r
    · rw [hq, Function.update_self] at hd
      split at hd
      · cases hd
      · rw [Option.some.injEq] at hd
        rw [hq, if_pos rfl, ← hd, ← heq]
        exact ⟨by omega, by simp⟩
    · rw [Function.update_of_ne hq] at hd
      rw [if_neg fun hrq => hq (Option.some.inj hrq).symm]
      exact ⟨(h.counted q d hd).2, by simpa using (h.counted q d hd).1⟩
  · by_cases hq : q = r
    · rw [hq, hr, Option.some.injEq] at hd
      by_cases hone : c - 1 = 0
      · exact .inr ⟨hq ▸ hslot, by omega, by simp⟩
      · exact .inl ⟨c - 1, by rw [hq, Function.update_self, if_neg hone]⟩
    · exact .inl ⟨d, by rwa [Function.update_of_ne hq]⟩

theorem copyRow (h : Counted m rows count) (t : Nat) {count' : ρ → Option Int}
    (hcount : ∀ r, count' r = (count r).map fun c => c + (held (rows t) r : Int)) :
    Counted (m + 1) (Function.update rows m (rows t)) count' := by
  have hlive : ∀ r, (∃ c, count r = some c) → ∃ c, count' r = some c := by
    rintro r ⟨c, hc⟩
    exact ⟨_, by rw [hcount, hc, Option.map_some]⟩
  refine ⟨fun u hu i => ?_, fun r c hc => ?_, fun u i r hr => hlive r ?_⟩
  · rw [Function.update_of_ne (by omega)]
    exact h.bounded u (by omega) i
  · rw [hcount, Option.map_eq_some_iff] at hc
    obtain ⟨d, hd, rfl⟩ := hc
    obtain ⟨heq, hpos⟩ := h.counted r d hd
    rw [total, sum_range_succ, Function.update_self, Nat.cast_add]
    refine ⟨?_, by omega⟩
    rw [heq, ← total, total_congr fun u hu => ?_]
    exact (Function.update_of_ne (Nat.ne_of_lt hu) (rows t) rows).symm
  · by_cases hu : u = m
    · rw [hu, Function.update_self] at hr
      exact h.live t i r hr
    · rw [Function.update_of_ne hu] at hr
      exact h.live u i r hr

end Counted

end RefTable
