import Mathlib.Data.List.Basic
import Mathlib.Order.Monotone.Basic
import Mathlib.Tactic.IntervalCases

/-!
# The Gregorian calendar

Days are counted from the first of January of the year 0, and seconds from the start of 1970. Months
are counted from 0, days of a month from 1.

* `yearStart_eq` — the days before a year, without a recursion.
* `seconds_inj`  — a second has one date.
* `exists_date`  — and it has one.
-/

namespace Calendar

-- ---------------------------------------------------------------------------
-- Years and months
-- ---------------------------------------------------------------------------

def IsLeap (y : Nat) : Prop := y % 4 = 0 ∧ (y % 100 ≠ 0 ∨ y % 400 = 0)

instance (y : Nat) : Decidable (IsLeap y) := inferInstanceAs (Decidable (_ ∧ _))

def yearLength (y : Nat) : Nat := if IsLeap y then 366 else 365

/-- The days before the year. -/
def yearStart : Nat → Nat
  | 0 => 0
  | y + 1 => yearStart y + yearLength y

def monthLength (y : Nat) : Nat → Nat
  | 0 => 31
  | 1 => if IsLeap y then 29 else 28
  | 2 => 31
  | 3 => 30
  | 4 => 31
  | 5 => 30
  | 6 => 31
  | 7 => 31
  | 8 => 30
  | 9 => 31
  | 10 => 30
  | 11 => 31
  | _ => 0

/-- The days of the year before the month. -/
def monthStart (y : Nat) : Nat → Nat
  | 0 => 0
  | m + 1 => monthStart y m + monthLength y m

theorem monthLength_ge {m : Nat} (y : Nat) (hm : m < 12) : 28 ≤ monthLength y m := by
  have hfebruary : 28 ≤ monthLength y 1 := by
    rw [monthLength]
    split <;> omega
  interval_cases m <;> first | exact hfebruary | simp only [monthLength]; omega

theorem monthLength_le (y m : Nat) : monthLength y m ≤ 31 := by
  unfold monthLength
  split <;> first | omega | split <;> omega

theorem yearLength_cases (y : Nat) :
    (IsLeap y ∧ yearLength y = 366) ∨ (¬ IsLeap y ∧ yearLength y = 365) := by
  by_cases h : IsLeap y
  · exact .inl ⟨h, if_pos h⟩
  · exact .inr ⟨h, if_neg h⟩

/-- One day in four years, but for three in four hundred. -/
theorem yearStart_eq (y : Nat) :
    yearStart y + (y + 99) / 100 = 365 * y + (y + 3) / 4 + (y + 399) / 400 := by
  induction y with
  | zero => rfl
  | succ y ih =>
    have h4 : (y + 1 + 3) / 4 = (y + 3) / 4 + if y % 4 = 0 then 1 else 0 := by
      split <;> omega
    have h100 : (y + 1 + 99) / 100 = (y + 99) / 100 + if y % 100 = 0 then 1 else 0 := by
      split <;> omega
    have h400 : (y + 1 + 399) / 400 = (y + 399) / 400 + if y % 400 = 0 then 1 else 0 := by
      split <;> omega
    rw [yearStart, h4, h100, h400]
    rcases yearLength_cases y with ⟨⟨hfour, hcentury | hcentury⟩, hlength⟩ | ⟨hleap, hlength⟩
    · rw [hlength, if_pos hfour, if_neg hcentury, if_neg (by omega)]
      omega
    · rw [hlength, if_pos hfour, if_pos hcentury, if_pos (by omega)]
      omega
    · rw [hlength]
      by_cases hfour : y % 4 = 0
      · have hcentury : y % 100 = 0 ∧ y % 400 ≠ 0 := by
          simp only [IsLeap, hfour, true_and, not_or, ne_eq, not_not] at hleap
          exact hleap
        rw [if_pos hfour, if_pos hcentury.1, if_neg hcentury.2]
        omega
      · rw [if_neg hfour, if_neg (by omega), if_neg (by omega)]
        omega

theorem yearStart_monotone : Monotone yearStart :=
  monotone_nat_of_le_succ fun y => Nat.le_add_right (yearStart y) (yearLength y)

theorem monthStart_monotone (y : Nat) : Monotone (monthStart y) :=
  monotone_nat_of_le_succ fun m => Nat.le_add_right (monthStart y m) (monthLength y m)

theorem monthStart_bounds {m : Nat} (y : Nat) (hm : m ≤ 12) :
    28 * m ≤ monthStart y m ∧ monthStart y m ≤ 31 * m := by
  induction m with
  | zero => exact ⟨Nat.le_refl 0, Nat.le_refl 0⟩
  | succ m ih =>
    have ih := ih (by omega)
    have hge := monthLength_ge y (show m < 12 by omega)
    have hle := monthLength_le y m
    rw [monthStart]
    omega

/-- The months fill the year. -/
theorem monthStart_twelve (y : Nat) : monthStart y 12 = yearLength y := by
  rcases yearLength_cases y with ⟨hleap, hlength⟩ | ⟨hleap, hlength⟩
  · rw [hlength]
    simp only [monthStart, monthLength, if_pos hleap]
  · rw [hlength]
    simp only [monthStart, monthLength, if_neg hleap]

-- ---------------------------------------------------------------------------
-- Steps of a sequence
-- ---------------------------------------------------------------------------

variable {f : Nat → Nat} {n k m m' : Nat}

/-- Below the `k`-th value there is a step that the number is on. -/
theorem exists_step (hzero : f 0 ≤ n) (hk : n < f k) : ∃ m < k, f m ≤ n ∧ n < f (m + 1) := by
  induction k with
  | zero => omega
  | succ k ih =>
    by_cases hlast : n < f k
    · obtain ⟨m, hm, hstep⟩ := ih hlast
      exact ⟨m, by omega, hstep⟩
    · exact ⟨k, Nat.lt_succ_self k, by omega, hk⟩

theorem step_unique (hf : Monotone f) (hm : f m ≤ n ∧ n < f (m + 1))
    (hm' : f m' ≤ n ∧ n < f (m' + 1)) : m = m' := by
  rcases Nat.lt_trichotomy m m' with hlt | heq | hgt
  · have hle := hf (show m + 1 ≤ m' from hlt)
    omega
  · exact heq
  · have hle := hf (show m' + 1 ≤ m from hgt)
    omega

-- ---------------------------------------------------------------------------
-- Dates
-- ---------------------------------------------------------------------------

structure Date where
  year : Nat
  month : Nat
  day : Nat
  hour : Nat
  minute : Nat
  second : Nat
  deriving DecidableEq, Repr

structure Date.Valid (d : Date) : Prop where
  month : d.month < 12
  day_pos : 1 ≤ d.day
  day_le : d.day ≤ monthLength d.year d.month
  hour : d.hour < 24
  minute : d.minute < 60
  second : d.second < 60

/-- The days of the year before the date. -/
def Date.dayOfYear (d : Date) : Nat := monthStart d.year d.month + (d.day - 1)

def Date.dayNumber (d : Date) : Nat := yearStart d.year + d.dayOfYear

def Date.secondOfDay (d : Date) : Nat := d.hour * 3600 + d.minute * 60 + d.second

/-- The first of January 1970. -/
def epoch : Nat := yearStart 1970

def Date.seconds (d : Date) : Int := ((d.dayNumber : Int) - epoch) * 86400 + d.secondOfDay

theorem epoch_eq : epoch = 719528 := by
  have h := yearStart_eq 1970
  unfold epoch
  omega

variable {d d' : Date}

theorem Date.Valid.dayOfYear_step (h : d.Valid) :
    monthStart d.year d.month ≤ d.dayOfYear ∧
      d.dayOfYear < monthStart d.year (d.month + 1) := by
  have hpos := h.day_pos
  have hle := h.day_le
  unfold Date.dayOfYear
  rw [monthStart]
  omega

theorem Date.Valid.dayOfYear_lt (h : d.Valid) : d.dayOfYear < yearLength d.year := by
  have hstep := h.dayOfYear_step.2
  have hle := monthStart_monotone d.year (show d.month + 1 ≤ 12 from h.month)
  rw [monthStart_twelve] at hle
  omega

theorem Date.Valid.dayNumber_step (h : d.Valid) :
    yearStart d.year ≤ d.dayNumber ∧ d.dayNumber < yearStart (d.year + 1) := by
  have hlt := h.dayOfYear_lt
  unfold Date.dayNumber
  rw [yearStart]
  omega

theorem Date.Valid.secondOfDay_lt (h : d.Valid) : d.secondOfDay < 86400 := by
  have hhour := h.hour
  have hminute := h.minute
  have hsecond := h.second
  unfold Date.secondOfDay
  omega

/-- A date before the end of a year is in it or in one before. -/
theorem Date.Valid.year_le {y : Nat} (h : d.Valid)
    (hlt : d.seconds < ((yearStart (y + 1) : Int) - epoch) * 86400) : d.year ≤ y := by
  by_contra hyear
  have hle := yearStart_monotone (show y + 1 ≤ d.year by omega)
  have hstep := h.dayNumber_step.1
  unfold Date.seconds at hlt
  omega

theorem dayNumber_inj (h : d.Valid) (h' : d'.Valid) (heq : d.dayNumber = d'.dayNumber) :
    d.year = d'.year ∧ d.month = d'.month ∧ d.day = d'.day := by
  have hyear : d.year = d'.year :=
    step_unique yearStart_monotone h.dayNumber_step (heq ▸ h'.dayNumber_step)
  have hday : d.dayOfYear = d'.dayOfYear := by
    unfold Date.dayNumber at heq
    rw [hyear] at heq
    omega
  have hmonth : d.month = d'.month := by
    have hstep := h.dayOfYear_step
    rw [hyear, hday] at hstep
    exact step_unique (monthStart_monotone d'.year) hstep h'.dayOfYear_step
  refine ⟨hyear, hmonth, ?_⟩
  have hpos := h.day_pos
  have hpos' := h'.day_pos
  unfold Date.dayOfYear at hday
  rw [hyear, hmonth] at hday
  omega

/-- A second has one date. -/
theorem seconds_inj (h : d.Valid) (h' : d'.Valid) (heq : d.seconds = d'.seconds) : d = d' := by
  have hday := h.secondOfDay_lt
  have hday' := h'.secondOfDay_lt
  have hnumber : d.dayNumber = d'.dayNumber ∧ d.secondOfDay = d'.secondOfDay := by
    unfold Date.seconds at heq
    omega
  obtain ⟨hyear, hmonth, hdate⟩ := dayNumber_inj h h' hnumber.1
  have hminute := h.minute
  have hsecond := h.second
  have hminute' := h'.minute
  have hsecond' := h'.second
  have htime : d.hour = d'.hour ∧ d.minute = d'.minute ∧ d.second = d'.second := by
    have := hnumber.2
    unfold Date.secondOfDay at this
    omega
  cases d
  cases d'
  simp only [Date.mk.injEq]
  exact ⟨hyear, hmonth, hdate, htime⟩

/-- Every second from the year 0 on has a date. -/
theorem exists_date {t : Int} (ht : -(epoch : Int) * 86400 ≤ t) :
    ∃ d : Date, d.Valid ∧ d.seconds = t := by
  obtain ⟨n, s, hs, hn⟩ : ∃ n s : Nat, s < 86400 ∧ t = ((n : Int) - epoch) * 86400 + s :=
    ⟨(t / 86400 + epoch).toNat, (t % 86400).toNat, by omega, by omega⟩
  obtain ⟨y, -, hyear⟩ := exists_step (f := yearStart) (n := n) (k := n + 1) (Nat.zero_le n) (by
    have h := yearStart_eq (n + 1)
    omega)
  rw [yearStart] at hyear
  obtain ⟨m, hm, hmonth⟩ := exists_step (f := monthStart y) (n := n - yearStart y) (k := 12)
    (Nat.zero_le _) (by rw [monthStart_twelve]; omega)
  rw [monthStart] at hmonth
  refine ⟨⟨y, m, n - yearStart y - monthStart y m + 1, s / 3600, s / 60 % 60, s % 60⟩, ?_, ?_⟩
  · refine ⟨hm, ?_, ?_, ?_, ?_, ?_⟩ <;> simp only <;> omega
  · simp only [Date.seconds, Date.dayNumber, Date.dayOfYear, Date.secondOfDay]
    omega

end Calendar
