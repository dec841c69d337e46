import Okfs.Shfs.Quoting
import Okfs.Lib.Calendar
import Okfs.Lib.Decimals

/-!
# OKFS — times in commands of shfs

`strctime` prints a time for `touch -t`, and the perl server slices it up again. The year is found
by taking years off the days since 1970, the month in a table for years of 365 days: in a leap year
the days from the 29th of February on move down by one, and that day itself is counted from 2.
-/

namespace Okfs

namespace Shfs

open Calendar Decimals

-- ---------------------------------------------------------------------------
-- The source
-- ---------------------------------------------------------------------------

def isleap (year : Nat) : Bool := year % 4 = 0 ∧ (year % 100 ≠ 0 ∨ year % 400 = 0)

/-- Days before each month, not in a leap year. -/
def spm (i : Nat) : Nat := [0, 31, 59, 90, 120, 151, 181, 212, 243, 273, 304, 334].getD i 0

def SPD : Nat := 24 * 60 * 60

/-- `isleap(i) ? 366 : 365` -/
def yearDays (i : Nat) : Nat := if isleap i then 366 else 365

theorem yearDays_pos (i : Nat) : 0 < yearDays i := by
  unfold yearDays
  split <;> omega

/-- `for (i = 1970; ; i++)`; the year, and the days that are left. -/
def yearLoop (i work : Nat) : Nat × Nat :=
  if yearDays i ≤ work then yearLoop (i + 1) (work - yearDays i) else (i, work)
termination_by work
decreasing_by
  have := yearDays_pos i
  omega

/-- `for (i = 11; i && (__spm[i] > work); i--)` -/
def monthLoop (work : Nat) : Nat → Nat
  | 0 => 0
  | i + 1 => if spm (i + 1) > work then monthLoop work i else i + 1

/-- `"%.4d%.2d%.2d%.2d%.2d.%.2d"` -/
def timeText (year month day hour min sec : Nat) : List Byte :=
  pad 4 year ++ pad 2 month ++ pad 2 day ++ pad 2 hour ++ pad 2 min ++ [46] ++ pad 2 sec

/-- `day` and `work` for the table. -/
def leapDay (year work : Nat) : Nat × Nat :=
  if isleap year ∧ work > 58 then (if work = 59 then 2 else 1, work - 1) else (1, work)

def strctime (time : Nat) : List Byte :=
  let work := time % SPD
  let sec := work % 60
  let work := work / 60
  let min := work % 60
  let hour := work / 60
  let (year, work) := yearLoop 1970 (time / SPD)
  let (day, work) := leapDay year work
  let month := monthLoop work 11
  timeText year (month + 1) (day + (work - spm month)) hour min sec

/-- The first match of `/(.{4})(..)(..)(..)(..)\.(..)/`, all of it. -/
def timeMatch : List Byte → Option (List Byte)
  | [] => none
  | c :: time =>
    let found := (c :: time).take 15
    if found.length = 15 ∧ newline ∉ found ∧ found.getD 12 0 = 46 then some found
    else timeMatch time

/-- The seconds `s_settime` gives to `utime`; its `mktime` takes the fields of a `struct tm`. -/
def settime (mktime : (sec min hour mday mon year : Int) → Int) (time : List Byte) : Option Int :=
  (timeMatch time).map fun found =>
    mktime (value ((found.drop 13).take 2)) (value ((found.drop 10).take 2))
      (value ((found.drop 8).take 2)) (value ((found.drop 6).take 2))
      (value ((found.drop 4).take 2) - 1) (value (found.take 4) - 1900)

/-- `mktime` of a library, in UTC. -/
def MktimeRight (mktime : (sec min hour mday mon year : Int) → Int) : Prop :=
  ∀ d : Date, d.Valid →
    mktime d.second d.minute d.hour d.day d.month (d.year - 1900) = d.seconds

/-- One that is right for the dates, whatever it does with other fields. -/
def utcMktime (sec min hour mday mon year : Int) : Int :=
  Date.seconds ⟨(year + 1900).toNat, mon.toNat, mday.toNat, hour.toNat, min.toNat, sec.toNat⟩

theorem utcMktime_right : MktimeRight utcMktime := by
  intro d _
  simp only [utcMktime, sub_add_cancel, Int.toNat_natCast]

-- ---------------------------------------------------------------------------
-- The year
-- ---------------------------------------------------------------------------

variable {i work y m t : Nat} {d : Date}

theorem isleap_iff (y : Nat) : isleap y = true ↔ IsLeap y := by
  rw [isleap, decide_eq_true_eq]
  exact Iff.rfl

theorem yearLength_eq (y : Nat) : yearLength y = yearDays y := by
  rw [yearLength, yearDays]
  simp only [isleap_iff]

/-- A year that is taken off goes from the days to the year. -/
theorem yearLoop_spec (i work : Nat) :
    yearStart (yearLoop i work).1 + (yearLoop i work).2 = yearStart i + work ∧
      (yearLoop i work).2 < yearLength (yearLoop i work).1 := by
  fun_induction yearLoop i work with
  | case1 i work hle ih =>
    rw [yearStart, yearLength_eq i] at ih
    exact ⟨by omega, ih.2⟩
  | case2 i work hlt =>
    rw [yearLength_eq i]
    exact ⟨rfl, by omega⟩

theorem yearLoop_date (hd : d.Valid) (hwork : yearStart 1970 + work = d.dayNumber) :
    yearLoop 1970 work = (d.year, d.dayOfYear) := by
  obtain ⟨hsum, hlt⟩ := yearLoop_spec 1970 work
  have hyear : (yearLoop 1970 work).1 = d.year := by
    apply step_unique yearStart_monotone (n := d.dayNumber) ?_ hd.dayNumber_step
    rw [yearStart]
    omega
  have hday : (yearLoop 1970 work).2 = d.dayOfYear := by
    rw [hyear] at hsum
    unfold Date.dayNumber at hwork
    omega
  exact Prod.ext hyear hday

-- ---------------------------------------------------------------------------
-- The month
-- ---------------------------------------------------------------------------

/-- In a leap year a month from March on starts a day later than in the table. -/
theorem monthStart_eq_spm (y : Nat) (hm : m < 12) :
    monthStart y m = spm m + (if isleap y ∧ 2 ≤ m then 1 else 0) := by
  by_cases hleap : isleap y
  · have hleap' := (isleap_iff y).mp hleap
    interval_cases m <;>
      simp only [monthStart, monthLength, if_pos hleap', hleap] <;> decide
  · have hleap' := fun h => hleap ((isleap_iff y).mpr h)
    interval_cases m <;>
      simp only [monthStart, monthLength, if_neg hleap', hleap] <;> decide

theorem spm_monotone {a b : Nat} (hab : a ≤ b) (hb : b < 12) : spm a ≤ spm b := by
  interval_cases b <;> interval_cases a <;> decide

/-- The last month of the table that is not behind the day. -/
theorem monthLoop_eq (hm : m ≤ i) (hi : i < 12) (hle : spm m ≤ work)
    (hlt : m < i → work < spm (m + 1)) : monthLoop work i = m := by
  induction i with
  | zero => rw [Nat.le_zero.mp hm, monthLoop]
  | succ i ih =>
    rw [monthLoop]
    rcases Nat.lt_or_eq_of_le hm with hbelow | rfl
    · have hnext := spm_monotone (show m + 1 ≤ i + 1 by omega) hi
      have := hlt hbelow
      rw [if_pos (by omega)]
      exact ih (by omega) (by omega) fun _ => this
    · rw [if_neg (by omega)]

/-- The 29th of February is found as the 28th. -/
theorem monthLoop_date (hd : d.Valid) :
    monthLoop (leapDay d.year d.dayOfYear).2 11 = d.month ∧
      (leapDay d.year d.dayOfYear).1 + ((leapDay d.year d.dayOfYear).2 - spm d.month) = d.day := by
  have hmonth := hd.month
  have hpos := hd.day_pos
  obtain ⟨hfirst, hlast⟩ := hd.dayOfYear_step
  have hday : d.dayOfYear = monthStart d.year d.month + (d.day - 1) := rfl
  have hbehind : 2 ≤ d.month → 59 ≤ spm d.month := fun h => spm_monotone h hmonth
  have hbefore : d.month < 2 →
      spm d.month = 31 * d.month ∧ spm (d.month + 1) = 31 + 28 * d.month := by
    intro h
    interval_cases d.month <;> decide
  rw [monthStart_eq_spm _ hmonth] at hfirst hday
  have hnext : d.month < 11 →
      d.dayOfYear < spm (d.month + 1) + (if isleap d.year ∧ 2 ≤ d.month + 1 then 1 else 0) := by
    intro h
    rwa [monthStart_eq_spm _ (by omega)] at hlast
  unfold leapDay
  by_cases hleap : isleap d.year
  · simp only [hleap, true_and] at hfirst hday hnext ⊢
    have hearly : d.month < 2 → d.dayOfYear ≤ 59 := by
      intro h
      have := hnext (by omega)
      split at this <;> omega
    split
    · -- from the 29th of February on
      refine ⟨monthLoop_eq (by omega) (by omega) ?_ ?_, ?_⟩
      · dsimp only
        split at hfirst <;> omega
      · intro h
        dsimp only
        have := hnext h
        split at this <;> omega
      · dsimp only
        split at hday <;> split <;> omega
    · have hjanuary : d.month < 2 := by
        split at hfirst <;> omega
      refine ⟨monthLoop_eq (by omega) (by omega) ?_ ?_, ?_⟩ <;> dsimp only
      · omega
      · intro h
        have := hnext h
        split at this <;> omega
      · split at hday <;> omega
  · simp only [hleap, Bool.false_eq_true, false_and, if_false] at hfirst hday hnext ⊢
    refine ⟨monthLoop_eq (by omega) (by omega) (by omega) fun h => ?_, by omega⟩
    have := hnext h
    omega

-- ---------------------------------------------------------------------------
-- The text
-- ---------------------------------------------------------------------------

/-- `strctime` prints the date of its time. -/
theorem strctime_date (hd : d.Valid) (ht : d.seconds = t) :
    strctime t = timeText d.year (d.month + 1) d.day d.hour d.minute d.second := by
  have hsecond := hd.secondOfDay_lt
  have hminute := hd.minute
  have hsec := hd.second
  have hparts : d.dayNumber = yearStart 1970 + t / SPD ∧ t % SPD = d.secondOfDay := by
    unfold Date.seconds epoch at ht
    unfold SPD
    omega
  have hfields : d.secondOfDay % 60 = d.second ∧ d.secondOfDay / 60 % 60 = d.minute ∧
      d.secondOfDay / 60 / 60 = d.hour := by
    unfold Date.secondOfDay
    omega
  have hmonth := monthLoop_date hd
  unfold strctime
  rw [yearLoop_date hd hparts.1.symm, hparts.2]
  dsimp only
  rw [hfields.1, hfields.2.1, hfields.2.2, hmonth.1, hmonth.2]

/-- A text as wide as the expression is all of the match. -/
theorem timeMatch_eq {time : List Byte} (hlength : time.length = 15) (hline : newline ∉ time)
    (hpoint : time.getD 12 0 = 46) : timeMatch time = some time := by
  cases time with
  | nil => cases hlength
  | cons c time =>
    have hall : (c :: time).take 15 = c :: time := List.take_of_length_le (by omega)
    rw [timeMatch, hall]
    exact if_pos ⟨hlength, hline, hpoint⟩

/-- What stands between columns, for pieces as wide as they are. -/
theorem slices_eq {year month day hour min sec : List Byte} (hyear : year.length = 4)
    (hmonth : month.length = 2) (hday : day.length = 2) (hhour : hour.length = 2)
    (hmin : min.length = 2) (hsec : sec.length = 2) :
    let time := year ++ month ++ day ++ hour ++ min ++ [46] ++ sec
    time.length = 15 ∧ time.getD 12 0 = 46 ∧ time.take 4 = year ∧ (time.drop 4).take 2 = month ∧
      (time.drop 6).take 2 = day ∧ (time.drop 8).take 2 = hour ∧ (time.drop 10).take 2 = min ∧
      (time.drop 13).take 2 = sec := by
  obtain ⟨y0, y1, y2, y3, rfl⟩ := List.length_eq_four.mp hyear
  obtain ⟨m0, m1, rfl⟩ := List.length_eq_two.mp hmonth
  obtain ⟨d0, d1, rfl⟩ := List.length_eq_two.mp hday
  obtain ⟨h0, h1, rfl⟩ := List.length_eq_two.mp hhour
  obtain ⟨i0, i1, rfl⟩ := List.length_eq_two.mp hmin
  obtain ⟨s0, s1, rfl⟩ := List.length_eq_two.mp hsec
  exact ⟨rfl, rfl, rfl, rfl, rfl, rfl, rfl, rfl⟩

theorem mem_timeText {year month day hour min sec : Nat} {c : Byte}
    (h : c ∈ timeText year month day hour min sec) : 46 ≤ c.toNat ∧ c.toNat ≤ 57 := by
  have hpad : ∀ {w n : Nat}, c ∈ pad w n → 46 ≤ c.toNat ∧ c.toNat ≤ 57 := by
    intro w n hc
    have := mem_pad hc
    omega
  simp only [timeText, List.mem_append, List.mem_singleton] at h
  rcases h with ((((((h | h) | h) | h) | h) | rfl) | h)
  all_goals first | exact hpad h | decide

/-- The text of a date is read as the date. -/
theorem settime_date {mktime : (sec min hour mday mon year : Int) → Int}
    (hmktime : MktimeRight mktime) (hd : d.Valid) (hyear : d.year ≤ 9999) :
    (timeText d.year (d.month + 1) d.day d.hour d.minute d.second).length = 15 ∧
      settime mktime (timeText d.year (d.month + 1) d.day d.hour d.minute d.second) =
        some d.seconds := by
  have hmonth := hd.month
  have hday := hd.day_le
  have hmonthLength := monthLength_le d.year d.month
  have hhour := hd.hour
  have hminute := hd.minute
  have hsecond := hd.second
  have htwo : ∀ {n : Nat}, n < 100 → (pad 2 n).length = 2 :=
    fun h => length_pad (by omega) (by omega)
  obtain ⟨hlength, hpoint, h0, h4, h6, h8, h10, h13⟩ :=
    slices_eq (length_pad (w := 4) (by omega) (show d.year < 10 ^ 4 by omega))
      (htwo (show d.month + 1 < 100 by omega)) (htwo (show d.day < 100 by omega))
      (htwo (show d.hour < 100 by omega)) (htwo (show d.minute < 100 by omega))
      (htwo (show d.second < 100 by omega))
  refine ⟨hlength, ?_⟩
  have hline : newline ∉ timeText d.year (d.month + 1) d.day d.hour d.minute d.second := by
    intro h
    have := mem_timeText h
    revert this
    decide
  have hmatch := timeMatch_eq hlength hline hpoint
  unfold timeText settime
  rw [hmatch, Option.map_some, h0, h4, h6, h8, h10, h13]
  simp only [value_pad]
  rw [Nat.cast_succ, add_sub_cancel_right, hmktime d hd]

end Shfs

/-- What `strctime` prints is the date in UTC, and `s_settime` finds the time in it again. -/
theorem strctime_settime {mktime : (sec min hour mday mon year : Int) → Int}
    (hmktime : Shfs.MktimeRight mktime) (t : Nat)
    (hyear : ∀ d : Calendar.Date, d.Valid → d.seconds = t → d.year ≤ 9999) :
    (Shfs.strctime t).length = 15 ∧
      (∃ d : Calendar.Date, d.Valid ∧ d.seconds = t ∧
        Shfs.strctime t =
          Shfs.timeText d.year (d.month + 1) d.day d.hour d.minute d.second) ∧
      Shfs.settime mktime (Shfs.strctime t) = some (t : Int) := by
  obtain ⟨d, hd, ht⟩ := Calendar.exists_date (show -(Calendar.epoch : Int) * 86400 ≤ t by omega)
  obtain ⟨hlength, hsettime⟩ := Shfs.settime_date hmktime hd (hyear d hd ht)
  rw [Shfs.strctime_date hd ht]
  exact ⟨hlength, ⟨d, hd, ht, rfl⟩, by rw [hsettime, ht]⟩

/-- At noon on the 29th of February 2008. -/
theorem strctime_settime_leap :
    Shfs.settime Shfs.utcMktime (Shfs.strctime 1204286400) = some 1204286400 := by
  refine (strctime_settime Shfs.utcMktime_right 1204286400 fun d hd ht => ?_).2.2
  apply hd.year_le
  have := Calendar.yearStart_eq (9999 + 1)
  rw [ht, Calendar.epoch_eq]
  omega

/-- It is printed as that day. -/
example : Shfs.strctime 1204286400 = "200802291200.00".toUTF8.data.toList := by
  have hd : (⟨2008, 1, 29, 12, 0, 0⟩ : Calendar.Date).Valid := ⟨by decide, by decide, by decide,
    by decide, by decide, by decide⟩
  have := Calendar.yearStart_eq 2008
  rw [Shfs.strctime_date hd (by
    simp only [Calendar.Date.seconds, Calendar.Date.dayNumber, Calendar.epoch_eq]
    rw [show Calendar.Date.dayOfYear ⟨2008, 1, 29, 12, 0, 0⟩ = 59 by decide,
      show Calendar.Date.secondOfDay ⟨2008, 1, 29, 12, 0, 0⟩ = 43200 by decide]
    omega)]
  decide

end Okfs
