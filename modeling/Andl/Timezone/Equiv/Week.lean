import Andl.Timezone.Equiv.TimeConvert
import Andl.Timezone.Week

/-!
# Weeks of the calendar

Weeks begin on Sunday or on Monday.  Week 1 of a year is its first week, and the weeks up to week 1
of the next year belong to the year.  January 4 is always in the first week with four days in the
year, and January 7 in the first one that begins in it.

- `obTimeToWeek_date`: the week that `ob_time_to_week` finds.
- `weeks_partition_invertible`: the weeks partition the days, and a day is found back by its week.
-/

namespace Andl.Calendar

/-! ### Weeks -/

/-- The day on which the week of day `n` starts. -/
def weekStart (sunBegin : Bool) (n : ℤ) : ℤ := n - (n + if sunBegin then 0 else 6) % 7

/-- The day on which week 1 of year `y` starts. -/
def week1Start (sunBegin ge4Begin : Bool) (y : ℕ) : ℤ :=
  weekStart sunBegin (daysBeforeYear y + if ge4Begin then 3 else 6)

/-- The number of days that the week from `s` on has in year `y`, if there are any. -/
def daysInYear (y : ℕ) (s : ℤ) : ℤ :=
  min (s + 7) (daysBeforeYear (y + 1)) - max s (daysBeforeYear y)

/-- The week from day `s` on counts for year `y`. -/
def CountsFor (sunBegin ge4Begin : Bool) (y : ℕ) (s : ℤ) : Prop :=
  weekStart sunBegin s = s ∧
    if ge4Begin then 4 ≤ daysInYear y s
    else (daysBeforeYear y : ℤ) ≤ s ∧ s < daysBeforeYear (y + 1)

variable {sunBegin ge4Begin : Bool} {y y' : ℕ} {n s : ℤ}

theorem daysBeforeYear_add_le (y : ℕ) : daysBeforeYear y + 365 ≤ daysBeforeYear (y + 1) := by
  rw [daysBeforeYear_succ, yearDays_isLeap]
  omega

/-- **Week 1** is the first week that counts for the year. -/
theorem isLeast_week1Start (sunBegin ge4Begin : Bool) (y : ℕ) :
    IsLeast {s | CountsFor sunBegin ge4Begin y s} (week1Start sunBegin ge4Begin y) := by
  have hlen := daysBeforeYear_add_le y
  unfold week1Start
  constructor
  · unfold CountsFor weekStart daysInYear
    cases ge4Begin <;> cases sunBegin <;> simp <;> omega
  · rintro s ⟨hs, hcount⟩
    unfold weekStart at hs ⊢
    unfold daysInYear at hcount
    cases ge4Begin <;> cases sunBegin <;> simp at hs hcount ⊢ <;> omega

theorem week1Start_lt (sunBegin ge4Begin : Bool) (y : ℕ) :
    week1Start sunBegin ge4Begin y + 300 ≤ week1Start sunBegin ge4Begin (y + 1) := by
  have := daysBeforeYear_add_le y
  unfold week1Start weekStart
  split_ifs <;> omega

theorem week1Start_mono (sunBegin ge4Begin : Bool) (h : y ≤ y') :
    week1Start sunBegin ge4Begin y ≤ week1Start sunBegin ge4Begin y' := by
  induction h with
  | refl => exact le_rfl
  | @step k _ ih =>
    have hstep := week1Start_lt sunBegin ge4Begin k
    show _ ≤ week1Start sunBegin ge4Begin (k + 1)
    omega

theorem week_year_unique (h : week1Start sunBegin ge4Begin y ≤ n)
    (h' : n < week1Start sunBegin ge4Begin (y + 1)) (k : week1Start sunBegin ge4Begin y' ≤ n)
    (k' : n < week1Start sunBegin ge4Begin (y' + 1)) : y = y' := by
  rcases Nat.lt_trichotomy y y' with hlt | heq | hgt
  · have := week1Start_mono sunBegin ge4Begin (show y + 1 ≤ y' from hlt)
    omega
  · exact heq
  · have := week1Start_mono sunBegin ge4Begin (show y' + 1 ≤ y from hgt)
    omega

theorem weekStart_bounds (sunBegin : Bool) (n : ℤ) :
    weekStart sunBegin n ≤ n ∧ n < weekStart sunBegin n + 7 := by
  unfold weekStart
  omega

theorem week1Start_sub_emod (sunBegin ge4Begin : Bool) (y y' : ℕ) :
    (week1Start sunBegin ge4Begin y' - week1Start sunBegin ge4Begin y) % 7 = 0 := by
  unfold week1Start weekStart
  split_ifs <;> omega

/-- Where the week of a day lies, if week 1 of the year does not begin after the day. -/
theorem weekStart_spec (h : week1Start sunBegin ge4Begin y ≤ n) :
    week1Start sunBegin ge4Begin y ≤ weekStart sunBegin n ∧
      (weekStart sunBegin n - week1Start sunBegin ge4Begin y) % 7 = 0 := by
  unfold week1Start weekStart at *
  split_ifs at * <;> omega

/-- January 4 is in the first week with four days, and January 7 in the first that begins. -/
theorem week1Start_bounds (sunBegin ge4Begin : Bool) (y : ℕ) :
    (daysBeforeYear y : ℤ) - (if ge4Begin then 3 else 0) ≤ week1Start sunBegin ge4Begin y ∧
      week1Start sunBegin ge4Begin y ≤ daysBeforeYear y + 6 := by
  unfold week1Start weekStart
  split_ifs <;> omega

theorem Date.dayOfYear_le_of_last (d : Date) (hyear : d.year = 9999)
    (hday : d.month = 12 → d.day ≤ 24) : d.dayOfYear ≤ 358 := by
  have hpos := d.month_pos
  have hle := d.month_le
  have hmonth := d.day_le
  unfold Date.dayOfYear
  rw [hyear, show isLeap 9999 = false from rfl] at *
  generalize d.month = m at *
  interval_cases m <;> simp [daysBeforeMonth, monthDays] at * <;> omega

end Andl.Calendar

namespace Andl.ObTimeConverter

open Calendar

variable {mode : WeekMode} {d e : Date}

/-! ### The week of a date -/

theorem ydayWeek1_eq (y : ℕ) (sunBegin ge4Begin : Bool) :
    ydayWeek1 (((daysBeforeYear y : ℤ) + 6) % 7 + 1) sunBegin ge4Begin =
      week1Start sunBegin ge4Begin y - daysBeforeYear y + 1 := by
  unfold week1Start weekStart
  generalize (daysBeforeYear y : ℤ) = n
  have hlo : 1 ≤ (n + 6) % 7 + 1 := by omega
  have hhi : (n + 6) % 7 + 1 ≤ 7 := by omega
  generalize hw : (n + 6) % 7 + 1 = w at hlo hhi
  interval_cases w <;> cases sunBegin <;> cases ge4Begin <;> simp [ydayWeek1] <;> omega

/-- The year and the week of a date, as `%X` and `%V`, or `%x` and `%v`, print them. -/
def yearAndWeek (mode : WeekMode) (obTime : ObTime) : ℤ × ℤ :=
  let (week, delta) := obTimeToWeek obTime mode
  (obTime.year + delta, week)

/-- The parts that `date_to_ob_time` fills in for a date. -/
def partsOf (d : Date) : ObTime := dateToObTime ((d.number : ℤ) - epochNumber) {}

theorem daysPerYear_eq (y : ℕ) :
    daysPerYear (isLeapYear y) = (daysBeforeYear (y + 1) : ℤ) - daysBeforeYear y := by
  rw [isLeapYear_natCast, daysBeforeYear_succ, daysPerYear, yearDays]
  split_ifs <;> omega

/-- **The week of a date**: the weeks are counted from week 1 of the year that it belongs to. -/
theorem obTimeToWeek_date (hzero : mode.zeroBegin = false) (hpos : 1 ≤ d.year)
    (hle : d.year ≤ 9999) :
    ∃ y : ℕ, week1Start mode.sunBegin mode.ge4Begin y ≤ d.number ∧
      d.number < week1Start mode.sunBegin mode.ge4Begin (y + 1) ∧
      (y ≤ d.year ∨ y = d.year + 1 ∧ 363 ≤ d.dayOfYear) ∧
      yearAndWeek mode (partsOf d) =
        ((y : ℤ), (d.number - week1Start mode.sunBegin mode.ge4Begin y) / 7 + 1) := by
  obtain ⟨p, hp⟩ := Nat.exists_eq_add_of_le' hpos
  have hprev := daysPerYear_eq p
  have hcur := daysPerYear_eq (p + 1)
  have hlenp := daysBeforeYear_add_le p
  have hlen := daysBeforeYear_add_le (p + 1)
  have hyday := d.dayOfYear_pos
  have hnumber : (d.number : ℤ) = daysBeforeYear (p + 1) + d.dayOfYear - 1 := by
    unfold Date.number
    rw [hp]
    omega
  have hend : (d.dayOfYear : ℤ) ≤ daysBeforeYear (p + 1 + 1) - daysBeforeYear (p + 1) := by
    have := d.dayOfYear_le
    rw [daysBeforeYear_succ (p + 1), ← hp]
    omega
  -- the weekdays of January 1 of the three years
  have hwday (off n : ℤ) (h : (d.number + off - n) % 7 = 0) :
      wdayOffset off d.weekday = (n + 6) % 7 + 1 := by
    unfold wdayOffset Date.weekday
    omega
  have hnext := hwday (daysPerYear (isLeapYear (p + 1 : ℕ)) - d.dayOfYear + 1)
    (daysBeforeYear (p + 1 + 1)) (by rw [hcur]; omega)
  have hthis := hwday ((1 - d.dayOfYear : ℤ).tmod 7) (daysBeforeYear (p + 1)) (by
    have := Int.mul_tdiv_add_tmod (1 - d.dayOfYear : ℤ) 7
    omega)
  have hlast := hwday ((1 - daysPerYear (isLeapYear (p : ℕ)) - d.dayOfYear : ℤ).tmod 7)
    (daysBeforeYear p) (by
      have := Int.mul_tdiv_add_tmod (1 - daysPerYear (isLeapYear (p : ℕ)) - d.dayOfYear : ℤ) 7
      omega)
  have hpred : ((p + 1 : ℕ) : ℤ) - 1 = (p : ℕ) := by omega
  rw [hcur] at hnext
  rw [hprev] at hlast
  have hb0 := week1Start_bounds mode.sunBegin mode.ge4Begin p
  have hb2 := week1Start_bounds mode.sunBegin mode.ge4Begin (p + 1 + 1)
  have hb3 := week1Start_bounds mode.sunBegin mode.ge4Begin (p + 1 + 1 + 1)
  have hlen2 := daysBeforeYear_add_le (p + 1 + 1)
  unfold yearAndWeek partsOf obTimeToWeek
  rw [dateToObTime_number d hle]
  simp only [hp, hpred, hnext, hthis, hlast, ydayWeek1_eq, hcur, hprev, hzero, Bool.not_false,
    and_true]
  by_cases hnextYear : week1Start mode.sunBegin mode.ge4Begin (p + 1 + 1) ≤ d.number
  · -- week 1 of the next year has begun
    have hge4 : mode.ge4Begin = true := by
      by_contra hne
      rw [if_neg hne] at hb2
      omega
    rw [if_pos hge4] at hb2 hb3
    refine ⟨p + 1 + 1, hnextYear, by omega, .inr ⟨rfl, by omega⟩, ?_⟩
    rw [if_pos ⟨⟨by omega, hge4⟩, by omega⟩]
    dsimp only
    congr 1
    omega
  · rw [if_neg (by rintro ⟨-, h⟩; omega)]
    by_cases hlastYear : (d.number : ℤ) < week1Start mode.sunBegin mode.ge4Begin (p + 1)
    · -- week 1 of the year has not begun yet
      refine ⟨p, by omega, hlastYear, .inl (by omega), ?_⟩
      rw [if_pos (by omega)]
      dsimp only
      rw [Int.tdiv_eq_ediv_of_nonneg (by omega)]
      refine Prod.ext (by push_cast; omega) ?_
      show _ / _ = _
      omega
    · refine ⟨p + 1, by omega, by omega, .inl le_rfl, ?_⟩
      rw [if_neg (by omega)]
      dsimp only
      rw [Int.tdiv_eq_ediv_of_nonneg (by omega)]
      refine Prod.ext (by simp) ?_
      show _ / _ = _
      omega

/-! ### The day of a week -/

/-- January 1. -/
def newYear (y : ℕ) : Date :=
  ⟨y, 1, 1, le_rfl, by decide, le_rfl, by simp [monthDays]⟩

/-- The two tables of `calc_date_with_year_week_wday`, at the weekday of January 1. -/
theorem firstWeekMondayOffset_eq (upper : Bool) (y : ℕ) :
    (if upper then [1, 7, 6, 5, 4, 3, 2] else [1, 0, -1, -2, -3, 3, 2] : List ℤ).getD
        (((newYear y).weekday : ℤ).tmod 7).toNat 0 =
      week1Start upper (!upper) y - daysBeforeYear y + if upper then 1 else 0 := by
  have hnumber : (newYear y).number = daysBeforeYear y := rfl
  unfold Date.weekday
  rw [hnumber]
  unfold week1Start weekStart
  generalize daysBeforeYear y = n
  have hlt : (n + 6) % 7 < 7 := Nat.mod_lt _ (by decide)
  generalize hw : (n + 6) % 7 = w at hlt
  interval_cases w <;> cases upper <;> simp <;> omega

theorem calcDateWithYearWeekWday_eq (upper : Bool) {y : ℕ} (hle : d.year ≤ 9999) (hy : y ≤ 9999)
    (hstart : week1Start upper (!upper) y ≤ d.number) (ot : ObTime) :
    calcDateWithYearWeekWday
        { yearValue := y, upper := upper
          weekValue := (d.number - week1Start upper (!upper) y) / 7 + 1
          weekdayValue := (d.weekday : ℤ).tmod 7 } ot =
      { ot with
        date := (d.number : ℤ) - epochNumber, wday := d.weekday, year := d.year
        yday := d.dayOfYear, mon := d.month, mday := d.day } := by
  have hdate := obTimeToDate_date (newYear y) hy (show ({ year := y, mon := 1, mday := 1 } :
    ObTime).year = (newYear y).year from rfl) rfl rfl (show (0 : ℤ) ≠ zeroDate by decide)
  have hnumber : (newYear y).number = daysBeforeYear y := rfl
  have hspec := weekStart_spec hstart
  have hmod : (d.weekday : ℤ).tmod 7 = d.number % 7 := by
    rw [Int.tmod_eq_emod_of_nonneg (by omega)]
    unfold Date.weekday
    omega
  have hday : (daysBeforeYear y : ℤ) - epochNumber + (week1Start upper (!upper) y -
      daysBeforeYear y + (if upper then 1 else 0) +
      ((d.number - week1Start upper (!upper) y) / 7 + 1 - 1) * 7 +
      ((if upper then (d.number : ℤ) % 7 else ((d.number : ℤ) % 7 + 7 - 1).tmod 7 + 1) - 1)) =
      d.number - epochNumber := by
    rw [Int.tmod_eq_emod_of_nonneg (by omega)]
    unfold week1Start weekStart
    cases upper <;> simp <;> omega
  unfold calcDateWithYearWeekWday
  rw [hdate]
  dsimp only
  rw [firstWeekMondayOffset_eq, hmod, hnumber, hday, ← dateToObTime_number d hle]
  congr 1
  have hlt : (d.number : ℤ) < 4000000 := by
    have := d.dayOfYear_le
    have := daysBeforeYear_eq d.year
    have := yearDays_isLeap d.year
    unfold Date.number
    split_ifs at this <;> omega
  exact wrap_of_range (by unfold epochNumber; omega) (by unfold epochNumber; omega)

theorem yearAndWeek_eq_iff (hzero : mode.zeroBegin = false) (hpos : 1 ≤ d.year)
    (hle : d.year ≤ 9999) {y : ℕ} {w : ℤ} (hw : 0 ≤ w) :
    yearAndWeek mode (partsOf d) = ((y : ℤ), w + 1) ↔
      weekStart mode.sunBegin d.number = week1Start mode.sunBegin mode.ge4Begin y + 7 * w ∧
        d.number < week1Start mode.sunBegin mode.ge4Begin (y + 1) := by
  obtain ⟨y0, hlo, hhi, -, hpair⟩ := obTimeToWeek_date hzero hpos hle
  have hbounds := weekStart_bounds mode.sunBegin d.number
  rw [hpair, Prod.mk.injEq, Nat.cast_inj]
  constructor
  · rintro ⟨rfl, hweek⟩
    have := weekStart_spec hlo
    exact ⟨by omega, hhi⟩
  · rintro ⟨hstart, hlt⟩
    obtain rfl := week_year_unique hlo hhi (by omega) hlt
    exact ⟨rfl, by omega⟩

/-- **Weeks partition the days and are invertible**: the days of a week get one year and week, the
next week gets the next number or is week 1 of the next year, week 1 is the first week that counts
for the year, and a day is found back from its year, week and weekday. -/
theorem weeks_partition_invertible (hzero : mode.zeroBegin = false) :
    (∀ d e : Date, 1 ≤ d.year → d.year ≤ 9999 → 1 ≤ e.year → e.year ≤ 9999 →
      (weekStart mode.sunBegin d.number = weekStart mode.sunBegin e.number →
        yearAndWeek mode (partsOf d) = yearAndWeek mode (partsOf e)) ∧
      (weekStart mode.sunBegin d.number + 7 = weekStart mode.sunBegin e.number →
        yearAndWeek mode (partsOf e) =
            ((yearAndWeek mode (partsOf d)).1, (yearAndWeek mode (partsOf d)).2 + 1) ∨
          yearAndWeek mode (partsOf e) = ((yearAndWeek mode (partsOf d)).1 + 1, 1))) ∧
    (∀ (d : Date) (y : ℕ), 1 ≤ d.year → d.year ≤ 9999 →
      (yearAndWeek mode (partsOf d) = ((y : ℤ), 1) ↔
        IsLeast {s | CountsFor mode.sunBegin mode.ge4Begin y s}
          (weekStart mode.sunBegin d.number))) ∧
    ∀ (d : Date) (upper : Bool) (ot : ObTime), 1 ≤ d.year → d.year ≤ 9999 →
      (d.year = 9999 → d.month = 12 → d.day ≤ 24) →
      calcDateWithYearWeekWday
          { yearValue := (yearAndWeek (weekModeOf upper) (partsOf d)).1, upper := upper
            weekValue := (yearAndWeek (weekModeOf upper) (partsOf d)).2
            weekdayValue := (d.weekday : ℤ).tmod 7 } ot =
        { ot with
          date := (d.number : ℤ) - epochNumber, wday := d.weekday, year := d.year
          yday := d.dayOfYear, mon := d.month, mday := d.day } := by
  refine ⟨fun d e hpos hle hpos' hle' => ?_, fun d y hpos hle => ?_,
    fun d upper ot hpos hle hlast => ?_⟩
  · obtain ⟨y, hlo, hhi, -, hpair⟩ := obTimeToWeek_date hzero hpos hle
    have hspec := weekStart_spec hlo
    have hd := weekStart_bounds mode.sunBegin d.number
    have he := weekStart_bounds mode.sunBegin e.number
    have hmod := week1Start_sub_emod mode.sunBegin mode.ge4Begin y (y + 1)
    have hlen := week1Start_lt mode.sunBegin mode.ge4Begin (y + 1)
    rw [hpair]
    refine ⟨fun hsame => ?_, fun hnext => ?_⟩
    · refine ((yearAndWeek_eq_iff hzero hpos' hle' (by omega)).mpr ⟨?_, ?_⟩).symm
      · omega
      · omega
    · by_cases hin : weekStart mode.sunBegin d.number + 7 <
          week1Start mode.sunBegin mode.ge4Begin (y + 1)
      · refine .inl ((yearAndWeek_eq_iff hzero hpos' hle' (by omega)).mpr ⟨?_, ?_⟩)
        · omega
        · omega
      · -- the next week is week 1 of the next year
        have hfirst := (yearAndWeek_eq_iff hzero hpos' hle' (y := y + 1) (le_refl 0)).mpr
          ⟨by omega, by omega⟩
        exact .inr (hfirst.trans (by simp))
  · have hd := weekStart_bounds mode.sunBegin d.number
    have hlen := week1Start_lt mode.sunBegin mode.ge4Begin y
    have hleast := isLeast_week1Start mode.sunBegin mode.ge4Begin y
    rw [show (1 : ℤ) = 0 + 1 from rfl, yearAndWeek_eq_iff hzero hpos hle le_rfl]
    constructor
    · rintro ⟨hstart, -⟩
      rwa [hstart, mul_zero, add_zero]
    · intro h
      have := h.unique hleast
      exact ⟨by omega, by omega⟩
  · have hmode : (weekModeOf upper).sunBegin = upper ∧ (weekModeOf upper).ge4Begin = !upper := by
      cases upper <;> exact ⟨rfl, rfl⟩
    obtain ⟨y, hlo, -, hyear, hpair⟩ :=
      @obTimeToWeek_date (weekModeOf upper) d (by cases upper <;> rfl) hpos hle
    rw [hmode.1, hmode.2] at hlo hpair
    rw [hpair]
    refine calcDateWithYearWeekWday_eq upper hle ?_ hlo ot
    rcases hyear with hy | ⟨rfl, hyday⟩
    · exact hy.trans hle
    · by_contra hgt
      have := d.dayOfYear_le_of_last (by omega) (hlast (by omega))
      omega

theorem weeks_partition_invertible_newYear :
    calcDateWithYearWeekWday
        { yearValue := (yearAndWeek (weekModeOf true) (partsOf (newYear 1))).1, upper := true
          weekValue := (yearAndWeek (weekModeOf true) (partsOf (newYear 1))).2
          weekdayValue := ((newYear 1).weekday : ℤ).tmod 7 } {} =
      { date := ((newYear 1).number : ℤ) - epochNumber, wday := (newYear 1).weekday, year := 1
        yday := 1, mon := 1, mday := 1 } :=
  (@weeks_partition_invertible (weekModeOf true) rfl).2.2 (newYear 1) true {} le_rfl (by decide)
    (fun h => absurd h (by decide))

end Andl.ObTimeConverter
