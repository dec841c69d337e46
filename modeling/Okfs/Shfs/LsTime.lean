import Okfs.Shfs.LsLine
import Okfs.Lib.Calendar

/-!
# OKFS — the year that `ls` does not print

For a file that is not old `ls` prints a month, a day and a time. `do_ls` takes the year from a
current year and month that it computes with years of 365 days and a quarter: a month of the file
that is behind the current one was in the year before. These years begin 6 hours late in 1971 and
every fourth year from there, 12 hours late in leap years, and 6 hours early behind a leap year.

* `guess_right_iff` — the guess is right if by that clock the file's month has begun.
-/

namespace Okfs

namespace Shfs

open Calendar Decimals

-- ---------------------------------------------------------------------------
-- What ls prints
-- ---------------------------------------------------------------------------

def monthColumn (d : Date) : CStr := months.getD d.month []

def dayColumn (d : Date) : CStr := print d.day

/-- `"%02d:%02d"` -/
def timeColumn (d : Date) : CStr := pad 2 d.hour ++ [colon] ++ pad 2 d.minute

/-- The year of a file of the month `mon`. -/
def guessYear (now mon : Nat) : Nat :=
  if mon > getThisMonth now then getThisYear now - 1 else getThisYear now

/-- `mktime` is right for the dates that a `time_t` has. -/
def Headers.MktimeRight (h : Headers) : Prop :=
  ∀ d : Date, d.Valid → -2 ^ 31 ≤ d.seconds → d.seconds < 2 ^ 31 →
    h.mktime d.year (d.month + 1) d.day d.hour d.minute d.second = d.seconds

variable {h : Headers} {now : Nat} {d : Date} {y m : Nat}

theorem getMonth_months (hm : m < 12) : getMonth (months.getD m []) = m := by
  have hall : ∀ m < 12, getMonth (months.getD m []) = m := by decide
  exact hall m hm

theorem ne_colon_of_mem_pad {w n : Nat} {c : Byte} (hc : c ∈ pad w n) : c ≠ colon := by
  rintro rfl
  have := mem_pad hc
  revert this
  decide

/-- `do_ls` reads the columns and adds a year. -/
theorem lsTime_columns (hd : d.Valid) :
    lsTime h now (monthColumn d) (dayColumn d) (timeColumn d) =
      h.mktime (guessYear now d.month) (d.month + 1) d.day d.hour d.minute 0 := by
  have hmonth := hd.month
  have hday := hd.day_le
  have hlength := monthLength_le d.year d.month
  have hhour := hd.hour
  have hminute := hd.minute
  have hmon : getMonth (monthColumn d) = d.month := getMonth_months hmonth
  have hnonneg : ¬ ((d.month : Int) < 0) := by omega
  have hprint : strtoul (dayColumn d) = d.day := by
    rw [dayColumn, strtoul_print]
    omega
  have hcolon : ¬ colon ∉ timeColumn d := by
    rw [timeColumn]
    simp
  have hdigits : ∀ c ∈ pad 2 d.hour, decide (c ≠ colon) = true :=
    fun c hc => decide_eq_true (ne_colon_of_mem_pad hc)
  have htake : (timeColumn d).takeWhile (· ≠ colon) = pad 2 d.hour := by
    rw [timeColumn, List.append_assoc, List.takeWhile_append_of_pos hdigits]
    simp
  have hdrop : ((timeColumn d).dropWhile (· ≠ colon)).drop 1 = pad 2 d.minute := by
    rw [timeColumn, List.append_assoc, List.dropWhile_append_of_pos hdigits]
    simp
  unfold lsTime
  dsimp only
  rw [hmon, if_neg hcolon, if_neg hnonneg, if_neg hnonneg, hprint, htake, hdrop, strtoul_pad,
    strtoul_pad, Int.toNat_natCast]
  rw [show min d.hour (2 ^ 32 - 1) = d.hour by omega,
    show min d.minute (2 ^ 32 - 1) = d.minute by omega,
    show (d.month + 1) % 2 ^ 32 = d.month + 1 by omega]
  rfl

-- ---------------------------------------------------------------------------
-- The current month
-- ---------------------------------------------------------------------------

/-- Until 2099 every fourth year is a leap year. -/
theorem isLeap_iff (hlow : 1901 ≤ y) (hhigh : y ≤ 2099) : IsLeap y ↔ y % 4 = 0 := by
  unfold IsLeap
  omega

theorem daysMonth_drop (hlow : 1901 ≤ y) (hhigh : y ≤ 2099) (hm : m < 12) :
    (daysMonth y).drop m = monthLength y m :: (daysMonth y).drop (m + 1) := by
  have hfour := isLeap_iff hlow hhigh
  unfold monthLength
  interval_cases m <;> simp [daysMonth, hfour]

theorem monthWhile_spec (hlow : 1901 ≤ y) (hhigh : y ≤ 2099) (secs : Nat) {n k : Nat}
    (hk : k + n = 12) (hbefore : 0 < k → 86400 * monthStart y (k - 1) ≤ secs) :
    ∃ m : Nat, monthWhile ((daysMonth y).drop k) (k - 1) (secs - 86400 * monthStart y k) = m ∧
      m < 12 ∧ 86400 * monthStart y m ≤ secs ∧ (m < 11 → secs < 86400 * monthStart y (m + 1)) := by
  induction n generalizing k with
  | zero =>
    obtain rfl : k = 12 := by omega
    exact ⟨11, rfl, by omega, hbefore (by omega), by omega⟩
  | succ n ih =>
    rw [daysMonth_drop hlow hhigh (by omega), monthWhile]
    split
    · rename_i hsecs
      obtain ⟨m, hwhile, hspec⟩ := ih (k := k + 1) (by omega) (by intro _; simp; omega)
      refine ⟨m, ?_, hspec⟩
      rw [← hwhile, monthStart]
      congr 1 <;> push_cast <;> ring
    · rename_i hsecs
      have hpos : 0 < k := by
        rcases Nat.eq_zero_or_pos k with rfl | hpos
        · rw [monthStart] at hsecs
          omega
        · exact hpos
      refine ⟨k - 1, by omega, by omega, hbefore hpos, fun _ => ?_⟩
      rw [Nat.sub_add_cancel hpos]
      omega

/-- The start of a month by the clock of `get_this_year` and `get_this_month`. -/
def approxStart (y m : Nat) : Int := averageYear * ((y : Int) - 1970) + 86400 * monthStart y m

theorem thisYear_le (hnow : now < 2 ^ 31) : getThisYear now ≤ 2038 := by
  unfold getThisYear averageYear
  omega

theorem thisMonth_spec (hnow : now < 2 ^ 31) :
    getThisMonth now < 12 ∧ approxStart (getThisYear now) (getThisMonth now) ≤ now ∧
      (getThisMonth now < 11 → now < approxStart (getThisYear now) (getThisMonth now + 1)) := by
  have hyear := thisYear_le hnow
  have hlow : 1970 ≤ getThisYear now := Nat.le_add_right ..
  obtain ⟨m, hwhile, hm, hle, hlt⟩ := monthWhile_spec (y := getThisYear now) (by omega) (by omega)
    (now % averageYear) (show 0 + 12 = 12 from rfl) (by omega)
  have hmonth : getThisMonth now = m := by
    unfold getThisMonth
    rw [monthStart] at hwhile
    simp only [List.drop_zero, Nat.cast_zero, mul_zero, sub_zero, zero_sub] at hwhile
    rw [hwhile, Int.toNat_natCast]
  have hnow' := Nat.div_add_mod now averageYear
  have hyears : averageYear * ((getThisYear now : Int) - 1970) = averageYear * (now / averageYear : Nat) := by
    unfold getThisYear
    push_cast
    ring
  rw [hmonth]
  unfold approxStart
  rw [hyears]
  refine ⟨hm, by omega, fun h => ?_⟩
  have := hlt h
  omega

theorem approxStart_lt_year {m : Nat} (hm : m < 12) {y y' : Nat} (h : y < y') :
    approxStart y m < approxStart y' 0 := by
  have := (monthStart_bounds y (show m ≤ 12 by omega)).2
  unfold approxStart averageYear
  rw [monthStart]
  omega

/-- A month has begun by that clock if it is not behind the current one. -/
theorem approxStart_le_iff (hnow : now < 2 ^ 31) (hm : m < 12) :
    approxStart y m ≤ now ↔
      y < getThisYear now ∨ (y = getThisYear now ∧ m ≤ getThisMonth now) := by
  obtain ⟨hmonth, hbegun, hnext⟩ := thisMonth_spec hnow
  have hyear : (now : Int) < approxStart (getThisYear now + 1) 0 := by
    unfold approxStart getThisYear averageYear
    rw [monthStart]
    omega
  have hzero : approxStart (getThisYear now) 0 ≤ approxStart (getThisYear now) (getThisMonth now) := by
    have := monthStart_monotone (getThisYear now) (Nat.zero_le (getThisMonth now))
    unfold approxStart
    omega
  constructor
  · intro hle
    rcases Nat.lt_trichotomy y (getThisYear now) with hlt | rfl | hgt
    · exact .inl hlt
    · refine .inr ⟨rfl, ?_⟩
      by_contra hbehind
      have hlater := monthStart_monotone (getThisYear now)
        (show getThisMonth now + 1 ≤ m by omega)
      have := hnext (by omega)
      unfold approxStart at hle this
      omega
    · have hlater : approxStart (getThisYear now + 1) 0 ≤ approxStart y m := by
        unfold approxStart averageYear
        rw [monthStart]
        omega
      omega
  · rintro (hlt | ⟨rfl, hle⟩)
    · have := approxStart_lt_year hm hlt
      omega
    · have := monthStart_monotone (getThisYear now) hle
      unfold approxStart at hbegun ⊢
      omega

-- ---------------------------------------------------------------------------
-- The clock and the calendar
-- ---------------------------------------------------------------------------

/-- The start of the month. -/
def monthBegin (d : Date) : Date := { d with day := 1, hour := 0, minute := 0, second := 0 }

/-- The seconds that months of the year begin late by the clock. -/
def lag (y : Nat) : Nat := if y % 4 = 3 then 6 * 3600 else if y % 4 = 0 then 12 * 3600 else 0

theorem lag_le (y : Nat) : lag y ≤ 43200 := by
  unfold lag
  split
  · omega
  · split <;> omega

theorem yearStart_near (hlow : 1969 ≤ y) (hhigh : y ≤ 2099) :
    (yearStart y : Int) - epoch = 365 * ((y : Int) - 1970) + ((y - 1969) / 4 : Nat) := by
  have h := yearStart_eq y
  rw [epoch_eq]
  rcases Nat.lt_or_ge y 2001 with hy | hy
  · rw [show (y + 99) / 100 = 20 by omega, show (y + 399) / 400 = 5 by omega] at h
    omega
  · rw [show (y + 99) / 100 = 21 by omega, show (y + 399) / 400 = 6 by omega] at h
    omega

theorem monthBegin_seconds (d : Date) :
    (monthBegin d).seconds = ((yearStart d.year : Int) - epoch + monthStart d.year d.month) * 86400 := by
  simp only [Date.seconds, Date.dayNumber, Date.dayOfYear, Date.secondOfDay, monthBegin]
  omega

theorem seconds_eq_monthBegin (d : Date) :
    d.seconds = (monthBegin d).seconds + ((d.day - 1 : Nat) * 86400 + d.secondOfDay : Nat) := by
  rw [monthBegin_seconds]
  unfold Date.seconds Date.dayNumber Date.dayOfYear
  push_cast
  ring

/-- Against the calendar the clock is late by the lag, or early. -/
theorem approxStart_eq (hlow : 1969 ≤ d.year) (hhigh : d.year ≤ 2099) :
    approxStart d.year d.month = (monthBegin d).seconds + lag d.year ∨
      (approxStart d.year d.month ≤ (monthBegin d).seconds ∧ lag d.year = 0) := by
  rw [monthBegin_seconds, yearStart_near hlow hhigh]
  have hfour := Nat.div_add_mod (d.year - 1969) 4
  unfold approxStart averageYear lag
  split
  · left
    omega
  · split
    · left
      omega
    · right
      omega

theorem begun_iff (hlow : 1969 ≤ d.year) (hhigh : d.year ≤ 2099)
    (hpast : d.seconds ≤ now) :
    approxStart d.year d.month ≤ now ↔ (monthBegin d).seconds + lag d.year ≤ now := by
  have hbegin := seconds_eq_monthBegin d
  rcases approxStart_eq hlow hhigh with heq | ⟨hearly, hlag⟩
  · rw [heq]
  · rw [hlag]
    omega

theorem seconds_lt_next (hd : d.Valid) :
    d.seconds < ((yearStart d.year : Int) - epoch + monthStart d.year (d.month + 1)) * 86400 := by
  have hday := hd.dayOfYear_step.2
  have htime := hd.secondOfDay_lt
  unfold Date.seconds Date.dayNumber
  omega

theorem year_of_recent (hd : d.Valid) (hnow : now < 2 ^ 31)
    (hrecent : (now : Int) - 182 * 86400 ≤ d.seconds) (hpast : d.seconds ≤ now) :
    1969 ≤ d.year ∧ d.year ≤ 2099 := by
  constructor
  · by_contra hearly
    have hstep := hd.dayNumber_step.2
    have hle := yearStart_monotone (show d.year + 1 ≤ 1969 by omega)
    have h1969 := yearStart_eq 1969
    have htime := hd.secondOfDay_lt
    unfold Date.seconds at hrecent
    rw [epoch_eq] at hrecent
    omega
  · apply hd.year_le
    have h2100 := yearStart_eq (2099 + 1)
    rw [epoch_eq]
    omega

/-- A file of a month that has begun is not older than half a year, so its month is of this year,
or behind the current one. -/
theorem guess_of_begun (hd : d.Valid) (hnow : now < 2 ^ 31)
    (hrecent : (now : Int) - 182 * 86400 ≤ d.seconds) (hlow : 1969 ≤ d.year)
    (hlt : d.year < getThisYear now) :
    getThisMonth now < d.month ∧ d.year = getThisYear now - 1 := by
  obtain ⟨hmonth, hbegun, -⟩ := thisMonth_spec hnow
  have hyear := thisYear_le hnow
  have hnext := seconds_lt_next hd
  rw [yearStart_near hlow (by omega)] at hnext
  have hthis := monthStart_bounds (getThisYear now) (show getThisMonth now ≤ 12 by omega)
  have hfile := monthStart_bounds d.year (show d.month + 1 ≤ 12 from hd.month)
  have hlast := hd.month
  unfold approxStart averageYear at hbegun
  constructor
  · by_contra hle
    omega
  · omega

/-- The year of a file of the last 182 days is the guess, if its month has begun by the clock. -/
theorem guess_right_iff (hd : d.Valid) (hnow : now < 2 ^ 31)
    (hrecent : (now : Int) - 182 * 86400 ≤ d.seconds) (hpast : d.seconds ≤ now) :
    guessYear now d.month = d.year ↔ (monthBegin d).seconds + lag d.year ≤ now := by
  obtain ⟨hlow, hhigh⟩ := year_of_recent hd hnow hrecent hpast
  rw [← begun_iff hlow hhigh hpast, approxStart_le_iff hnow hd.month]
  have hthis : 1970 ≤ getThisYear now := Nat.le_add_right ..
  unfold guessYear
  constructor
  · intro hguess
    split at hguess
    · exact .inl (by omega)
    · exact .inr ⟨hguess.symm, by omega⟩
  · rintro (hlt | ⟨heq, hle⟩)
    · obtain ⟨hbehind, hyear⟩ := guess_of_begun hd hnow hrecent hlow hlt
      rw [if_pos hbehind, hyear]
    · rw [if_neg (by omega), heq]

/-- A wrong guess is a year too early. -/
theorem guess_wrong (hd : d.Valid) (hnow : now < 2 ^ 31)
    (hrecent : (now : Int) - 182 * 86400 ≤ d.seconds) (hpast : d.seconds ≤ now)
    (hwrong : guessYear now d.month ≠ d.year) :
    1969 ≤ guessYear now d.month ∧ guessYear now d.month < d.year := by
  obtain ⟨hlow, -⟩ := year_of_recent hd hnow hrecent hpast
  have hthis : 1970 ≤ getThisYear now := Nat.le_add_right ..
  have hbegun : ¬ d.year < getThisYear now := by
    intro hlt
    obtain ⟨hbehind, hyear⟩ := guess_of_begun hd hnow hrecent hlow hlt
    apply hwrong
    rw [guessYear, if_pos hbehind, hyear]
  unfold guessYear at hwrong ⊢
  split at hwrong
  · rename_i hbehind
    rw [if_pos hbehind]
    omega
  · rename_i hbehind
    rw [if_neg hbehind]
    omega

theorem seconds_lt_of_year {d' : Date} (hd : d.Valid) (hd' : d'.Valid) (hlt : d.year < d'.year) :
    d.seconds < d'.seconds := by
  have hstep := hd.dayNumber_step.2
  have hstep' := hd'.dayNumber_step.1
  have hle := yearStart_monotone (show d.year + 1 ≤ d'.year from hlt)
  have htime := hd.secondOfDay_lt
  unfold Date.seconds
  omega

/-- The time that `do_ls` computes for a file of the last 182 days is its modification time to the
minute, if and only if the month of that time has begun by the clock. -/
theorem lsTime_right_iff (hmktime : h.MktimeRight) (hnow : now < 2 ^ 31) (hd : d.Valid)
    (hrecent : (now : Int) - 182 * 86400 ≤ d.seconds) (hpast : d.seconds ≤ now) :
    lsTime h now (monthColumn d) (dayColumn d) (timeColumn d) = d.seconds / 60 * 60 ↔
      (monthBegin d).seconds + lag d.year ≤ now := by
  have hminute : ({ d with second := 0 } : Date).seconds = d.seconds / 60 * 60 := by
    have := hd.second
    simp only [Date.seconds, Date.dayNumber, Date.dayOfYear, Date.secondOfDay]
    omega
  have hvalid : ({ d with second := 0 } : Date).Valid :=
    ⟨hd.month, hd.day_pos, hd.day_le, hd.hour, hd.minute, Nat.zero_lt_succ 59⟩
  rw [lsTime_columns hd, ← hminute, ← guess_right_iff hd hnow hrecent hpast]
  constructor
  · intro hright
    by_contra hwrong
    obtain ⟨hyear, hearlier⟩ := guess_wrong hd hnow hrecent hpast hwrong
    -- a month that begins late by the clock is on its first day
    have hfirst : d.day = 1 := by
      rw [guess_right_iff hd hnow hrecent hpast] at hwrong
      have hbegin := seconds_eq_monthBegin d
      have hpos := hd.day_pos
      have hlag := lag_le d.year
      omega
    have hvalid' : ({ d with year := guessYear now d.month, second := 0 } : Date).Valid := by
      have hlength := monthLength_ge (guessYear now d.month) hd.month
      exact ⟨hd.month, hd.day_pos, by simp only; omega, hd.hour, hd.minute, Nat.zero_lt_succ 59⟩
    have hlt := seconds_lt_of_year hvalid' hvalid hearlier
    have hge : -2 ^ 31 ≤ ({ d with year := guessYear now d.month, second := 0 } : Date).seconds := by
      have hstep := hvalid'.dayNumber_step.1
      have hle := yearStart_monotone hyear
      have h1969 := yearStart_eq 1969
      unfold Date.seconds
      rw [epoch_eq]
      simp only at hstep
      omega
    have hguessed := hmktime _ hvalid' hge (by omega)
    simp only at hguessed
    have heq := seconds_inj hvalid' hvalid (hguessed.symm.trans hright)
    exact hwrong (congrArg Date.year heq)
  · intro hguess
    rw [hguess]
    exact hmktime _ hvalid (by omega) (by omega)

/-- Headers of a kernel whose `mktime` counts by the calendar. -/
def exampleHeaders : Headers where
  nlink := 16
  uid := 16
  gid := 16
  size := 32
  rdev := 16
  mkdev major minor := major * 256 + minor
  mktime year mon day hour min sec := Date.seconds ⟨year, mon - 1, day, hour, min, sec⟩

theorem exampleHeaders_mktime : exampleHeaders.MktimeRight := fun _ _ _ _ => rfl

theorem march_2011_valid : (⟨2011, 2, 1, 2, 0, 0⟩ : Date).Valid :=
  ⟨by decide, by decide, by decide, by decide, by decide, by decide⟩

theorem march_2011_seconds : (⟨2011, 2, 1, 2, 0, 0⟩ : Date).seconds = 1298944800 := by
  have hyear := yearStart_eq 2011
  have hday : (⟨2011, 2, 1, 2, 0, 0⟩ : Date).dayOfYear = 59 := by decide
  have htime : (⟨2011, 2, 1, 2, 0, 0⟩ : Date).secondOfDay = 7200 := by decide
  simp only [Date.seconds, Date.dayNumber, epoch_eq, hday, htime]
  omega

/-- Two o'clock on the first of March 2011, seen at seven in the morning. -/
theorem lsTime_right_seven :
    lsTime exampleHeaders 1298962800 (ascii "Mar") (ascii "1") (ascii "02:00") = 1298944800 := by
  have hbegin : (monthBegin ⟨2011, 2, 1, 2, 0, 0⟩).seconds = 1298937600 := by
    have := seconds_eq_monthBegin ⟨2011, 2, 1, 2, 0, 0⟩
    rw [march_2011_seconds] at this
    have htime : (⟨2011, 2, 1, 2, 0, 0⟩ : Date).secondOfDay = 7200 := by decide
    rw [htime] at this
    dsimp only at this
    omega
  have hlag : lag 2011 = 21600 := by decide
  have h := (lsTime_right_iff exampleHeaders_mktime (show 1298962800 < 2 ^ 31 by decide)
    march_2011_valid (by rw [march_2011_seconds]; decide)
    (by rw [march_2011_seconds]; decide)).mpr (by rw [hbegin, hlag]; decide)
  rw [march_2011_seconds] at h
  exact h

/-- At three it is taken for the year before. -/
theorem not_lsTime_right :
    ¬ ∀ (h : Headers) (now : Nat) (d : Date), h.MktimeRight → now < 2 ^ 31 → d.Valid →
      (now : Int) - 182 * 86400 ≤ d.seconds → d.seconds ≤ now →
        lsTime h now (monthColumn d) (dayColumn d) (timeColumn d) = d.seconds / 60 * 60 := by
  intro hall
  have h := hall exampleHeaders 1298948400 ⟨2011, 2, 1, 2, 0, 0⟩ exampleHeaders_mktime (by decide)
    march_2011_valid (by rw [march_2011_seconds]; decide) (by rw [march_2011_seconds]; decide)
  rw [lsTime_columns march_2011_valid, march_2011_seconds,
    show guessYear 1298948400 2 = 2010 by decide] at h
  have hvalid : (⟨2010, 2, 1, 2, 0, 0⟩ : Date).Valid :=
    ⟨by decide, by decide, by decide, by decide, by decide, by decide⟩
  have hearlier := seconds_lt_of_year hvalid march_2011_valid (by decide)
  rw [march_2011_seconds] at hearlier
  change Date.seconds ⟨2010, 2, 1, 2, 0, 0⟩ = _ at h
  omega

end Shfs

end Okfs
