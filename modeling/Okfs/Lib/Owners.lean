import Mathlib.Logic.Function.Basic

/-!
# Resources and their owners

Resources are acquired and released, and each open one has one owner. An owner has one
resource at most, and may hand it over to an owner that has none.
-/

namespace Owners

variable {υ ω : Type*}

/-- What is open is owned, by one owner, and what is owned is open. -/
structure Owned (own : υ → Option ω) (opened : ω → Bool) : Prop where
  opened_iff : ∀ o, opened o = true ↔ ∃ u, own u = some o
  unique : ∀ u v o, own u = some o → own v = some o → u = v

namespace Owned

variable {own : υ → Option ω} {opened : ω → Bool} {u v : υ} {o : ω}

theorem opened_of_own (h : Owned own opened) (hu : own u = some o) : opened o = true :=
  (h.opened_iff o).mpr ⟨u, hu⟩

variable [DecidableEq υ] [DecidableEq ω]

theorem acquire (h : Owned own opened) (hu : own u = none) (ho : opened o = false) :
    Owned (Function.update own u (some o)) (Function.update opened o true) := by
  have hfree : ∀ v, own v ≠ some o := fun v hv => by
    rw [h.opened_of_own hv] at ho
    cases ho
  refine ⟨fun p => ?_, fun v w p hv hw => ?_⟩
  · by_cases hp : p = o
    · rw [hp, Function.update_self]
      exact ⟨fun _ => ⟨u, Function.update_self ..⟩, fun _ => rfl⟩
    · rw [Function.update_of_ne hp, h.opened_iff]
      constructor
      · rintro ⟨v, hv⟩
        refine ⟨v, (Function.update_of_ne ?_ ..).trans hv⟩
        rintro rfl
        rw [hu] at hv
        cases hv
      · rintro ⟨v, hv⟩
        by_cases hvu : v = u
        · rw [hvu, Function.update_self] at hv
          exact absurd (Option.some.inj hv).symm hp
        · rw [Function.update_of_ne hvu] at hv
          exact ⟨v, hv⟩
  · by_cases hvu : v = u <;> by_cases hwu : w = u
    · rw [hvu, hwu]
    · rw [hvu, Function.update_self] at hv
      rw [Function.update_of_ne hwu, ← hv] at hw
      exact absurd hw (hfree w)
    · rw [hwu, Function.update_self] at hw
      rw [Function.update_of_ne hvu, ← hw] at hv
      exact absurd hv (hfree v)
    · rw [Function.update_of_ne hvu] at hv
      rw [Function.update_of_ne hwu] at hw
      exact h.unique v w p hv hw

theorem release (h : Owned own opened) (hu : own u = some o) :
    Owned (Function.update own u none) (Function.update opened o false) := by
  have hown : ∀ v p, Function.update own u none v = some p ↔ v ≠ u ∧ own v = some p := by
    intro v p
    by_cases hvu : v = u
    · rw [hvu, Function.update_self]
      simp
    · rw [Function.update_of_ne hvu]
      exact (and_iff_right hvu).symm
  refine ⟨fun p => ?_, fun v w p hv hw =>
    h.unique v w p ((hown v p).mp hv).2 ((hown w p).mp hw).2⟩
  simp only [hown]
  by_cases hp : p = o
  · rw [hp, Function.update_self]
    constructor
    · exact fun hfalse => by cases hfalse
    · rintro ⟨v, hvu, hv⟩
      exact absurd (h.unique v u o hv hu) hvu
  · rw [Function.update_of_ne hp, h.opened_iff]
    constructor
    · rintro ⟨v, hv⟩
      refine ⟨v, ?_, hv⟩
      rintro rfl
      exact hp (Option.some.inj (hv.symm.trans hu))
    · rintro ⟨v, -, hv⟩
      exact ⟨v, hv⟩

/-- The resource gets another owner. -/
theorem handOver (h : Owned own opened) (hu : own u = some o) (hv : own v = none) :
    Owned (Function.update (Function.update own u none) v (some o)) opened := by
  have hclosed := h.release hu
  have hnone : Function.update own u none v = none := by
    by_cases hvu : v = u
    · rw [hvu, Function.update_self]
    · rw [Function.update_of_ne hvu, hv]
  have hmoved := hclosed.acquire hnone (Function.update_self ..)
  rwa [Function.update_idem, ← h.opened_of_own hu, Function.update_eq_self] at hmoved

end Owned

end Owners
