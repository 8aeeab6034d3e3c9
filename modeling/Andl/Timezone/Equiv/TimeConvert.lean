import Andl.Lib.Calendar
import Andl.Timezone.TimeConvert

/-!
# Datetimes and the calendar
-/

namespace Andl.ObTimeConverter

open Calendar

/-! ### Days to dates -/

theorem isLeapYear_natCast (y : ℕ) : isLeapYear y = isLeap y := by
  have h4 : (y : ℤ).tmod 4 = ((y % 4 : ℕ) : ℤ) := rfl
  have h100 : (y : ℤ).tmod 100 = ((y % 100 : ℕ) : ℤ) := rfl
  have h400 : (y : ℤ).tmod 400 = ((y % 400 : ℕ) : ℤ) := rfl
  rw [isLeapYear, isLeap, h4, h100, h400, Bool.eq_iff_iff]
  simp only [Bool.and_eq_true, Bool.or_eq_true, bne_iff_ne, beq_iff_eq]
  omega

/-- The first fixed-point product counts the centuries before a day. -/
theorem centuries_eq {date k : ℤ} (hk : 0 ≤ k) (hlo : 36524 * k + k / 4 + 366 ≤ date)
    (hhi : date ≤ 36524 * (k + 1) + (k + 1) / 4 + 365) (hmax : date ≤ 3652424) :
    (date * 3762951 - 1374417852) / 2 ^ 37 = k := by
  have hlow : k * 2 ^ 37 ≤ date * 3762951 - 1374417852 := by omega
  have hupp : date * 3762951 - 1374417852 < (k + 1) * 2 ^ 37 := by
    -- the slope is a little too large, which only shows in the last centuries
    by_cases h96 : k ≤ 96
    · omega
    · obtain rfl | rfl | rfl : k = 97 ∨ k = 98 ∨ k = 99 := by omega
      all_goals omega
  omega

theorem years_eq {J y : ℤ} (hy : 1 ≤ y) (hy' : y ≤ 9999) (hlo : 365 * y + (y - 1) / 4 + 1 ≤ J)
    (hhi : J ≤ 365 * (y + 1) + y / 4) : J * 2939745 / 2 ^ 30 = y := by
  have hlow : y * 2 ^ 30 ≤ J * 2939745 := by omega
  have hupp : J * 2939745 < (y + 1) * 2 ^ 30 := by omega
  omega

/-- The day number of 1970-01-01. -/
def epochNumber : ℕ := 719527

theorem number_epoch (d : Date) (hyear : d.year = 1970) (hmonth : d.month = 1) (hday : d.day = 1) :
    d.number = epochNumber := by
  have hdays := daysBeforeYear_eq 1970
  unfold Date.number Date.dayOfYear epochNumber
  rw [hyear, hmonth, hday, daysBeforeMonth]
  omega

/-- What `days_to_year_ydays` computes from the centuries and the years. -/
theorem daysToYearYdays_eq {days x h y : ℤ}
    (hx : ((days + daysFromZeroToBase) * 3762951 - 1374417852) / 2 ^ 37 = x)
    (hh : x - x / 2 ^ 2 = h) (hyear : (days + daysFromZeroToBase + h) * 2939745 / 2 ^ 30 = y)
    (hy : 0 ≤ y) (hy' : y ≤ 9999) (hdays : -2 ^ 30 ≤ days) (hdays' : days ≤ 2 ^ 30 - 2 ^ 20) :
    daysToYearYdays days = (y, days + daysFromZeroToBase - y * 365 -
      (y - if y = 0 then 0 else 1) / 2 ^ 2 + h) := by
  have hy32 : int32 y = y := wrap_of_range (by omega) (by omega)
  unfold daysToYearYdays
  dsimp only
  rw [hx, hh, hyear, hy32]
  congr 1
  unfold daysFromZeroToBase
  refine wrap_of_range ?_ ?_
  · split_ifs <;> omega
  · split_ifs <;> omega

/-- **The year and the day of the year** of a date. -/
theorem daysToYearYdays_number (d : Date) (hy : d.year ≤ 9999) :
    daysToYearYdays ((d.number : ℤ) - epochNumber) = ((d.year : ℤ), (d.dayOfYear : ℤ)) := by
  have hclosed := daysBeforeYear_eq d.year
  have hpos := d.dayOfYear_pos
  have hle := d.dayOfYear_le
  rw [yearDays_isLeap] at hle
  -- the day counted from January 1 of year 0 as day 1
  obtain ⟨date, hdate⟩ : ∃ date : ℤ, (d.number : ℤ) - epochNumber + daysFromZeroToBase = date :=
    ⟨_, rfl⟩
  have hnumber : date = daysBeforeYear d.year + d.dayOfYear := by
    unfold Date.number epochNumber daysFromZeroToBase at hdate
    omega
  have hle' : (d.dayOfYear : ℤ) ≤ 366 := by split_ifs at hle <;> omega
  have hlo : -2 ^ 30 ≤ (d.number : ℤ) - epochNumber := by
    unfold epochNumber
    omega
  have hhi : (d.number : ℤ) - epochNumber ≤ 2 ^ 30 - 2 ^ 20 := by
    unfold daysFromZeroToBase at hdate
    omega
  by_cases h0 : d.year = 0
  · have hdate' : date = d.dayOfYear := by
      rw [hnumber, h0]
      exact zero_add _
    have h365 : date ≤ 365 := by
      rw [hdate', ← Nat.cast_ofNat, Nat.cast_le]
      simpa [h0] using hle
    have hx : (date * 3762951 - 1374417852) / 2 ^ 37 = -1 := by omega
    have hyear : (date + 0) * 2939745 / 2 ^ 30 = 0 := by omega
    rw [daysToYearYdays_eq (hdate ▸ hx) rfl (hdate ▸ hyear) le_rfl (by decide) hlo hhi, hdate,
      hdate', h0]
    simp
  · -- the year in its century, which is `k` for the years `100 * k + 1` to `100 * k + 100`
    obtain ⟨k, r, hr, hyear⟩ : ∃ k r : ℕ, r < 100 ∧ d.year = 100 * k + r + 1 :=
      ⟨(d.year - 1) / 100, (d.year - 1) % 100, by omega, by omega⟩
    have h4 : (d.year - 1) / 4 = 25 * k + r / 4 := by omega
    have h100 : (d.year - 1) / 100 = k := by omega
    have h400 : (d.year - 1) / 400 = k / 4 := by omega
    rw [h4, h100, h400] at hclosed
    have hx : (date * 3762951 - 1374417852) / 2 ^ 37 = k := by
      refine centuries_eq (by omega) (by omega) ?_ (by split_ifs at hle <;> omega)
      split_ifs at hle <;> omega
    have hyear' : (date + (k - k / 2 ^ 2)) * 2939745 / 2 ^ 30 = d.year := by
      refine years_eq (by omega) (by omega) (by omega) ?_
      split_ifs at hle <;> omega
    rw [daysToYearYdays_eq (hdate ▸ hx) rfl (hdate ▸ hyear') (by omega) (by omega) hlo hhi, hdate,
      if_neg (by omega)]
    congr 1
    omega

theorem daysUntilMon_getD (leap : Bool) {m : ℕ} (hm : m ≤ 12) :
    (daysUntilMon leap).getD m 0 = (daysBeforeMonth leap (m + 1) : ℤ) := by
  interval_cases m <;> cases leap <;> rfl

theorem month_guess (leap : Bool) {m day : ℕ} (hpos : 1 ≤ m) (hle : m ≤ 12) (hday : 1 ≤ day)
    (hday' : day ≤ monthDays leap m) :
    (daysBeforeMonth leap m + day - 1) / 32 + 1 = m ∨
      (daysBeforeMonth leap m + day - 1) / 32 + 2 = m := by
  interval_cases m <;> cases leap <;>
    simp only [daysBeforeMonth, monthDays, if_true, Bool.false_eq_true, if_false] at hday' ⊢ <;>
    omega

/-- **The month and the day** of a date. -/
theorem ydaysToMonthMdays_dayOfYear (d : Date) :
    ydaysToMonthMdays d.year d.dayOfYear = ((d.month : ℤ), (d.day : ℤ)) := by
  have hguess := month_guess (isLeap d.year) d.month_pos d.month_le d.day_pos d.day_le
  have hpos := d.month_pos
  have hle := d.month_le
  have hday := d.day_pos
  have hday' := d.day_le
  have hsucc := daysBeforeMonth_succ (isLeap d.year) hpos
  obtain ⟨g, hg⟩ : ∃ g : ℕ, (d.dayOfYear - 1) / 32 + 1 = g := ⟨_, rfl⟩
  have hg' : 1 + ((d.dayOfYear : ℤ) - 1) / 2 ^ 5 = g := by
    have := d.dayOfYear_pos
    omega
  unfold ydaysToMonthMdays
  rw [isLeapYear_natCast, hg']
  dsimp only
  rw [Int.toNat_natCast, daysUntilMon_getD _ (by unfold Date.dayOfYear at hg; omega)]
  rcases hguess with heq | heq
  · have hgm : g = d.month := hg.symm.trans heq
    have hnot : ¬ (d.dayOfYear : ℤ) > (daysBeforeMonth (isLeap d.year) (g + 1) : ℤ) := by
      rw [hgm, hsucc]
      unfold Date.dayOfYear
      omega
    rw [if_neg hnot, hgm, show ((d.month : ℤ) - 1).toNat = d.month - 1 by omega,
      daysUntilMon_getD _ (by omega), Nat.sub_add_cancel hpos]
    unfold Date.dayOfYear
    rw [Nat.cast_add, add_sub_cancel_left]
  · have hgm : g + 1 = d.month := (congrArg (· + 1) hg.symm).trans heq
    have hgt : (d.dayOfYear : ℤ) > (daysBeforeMonth (isLeap d.year) (g + 1) : ℤ) := by
      rw [hgm]
      unfold Date.dayOfYear
      omega
    rw [if_pos hgt, add_sub_cancel_right, Int.toNat_natCast, daysUntilMon_getD _ (by omega), hgm,
      ← hgm]
    unfold Date.dayOfYear
    rw [← hgm, Nat.cast_add, add_sub_cancel_left, Nat.cast_succ]

/-! ### Datetimes to parts -/

theorem wdayOffset_tmod (days wday : ℤ) :
    wdayOffset (days.tmod 7) wday = (wday - 1 + days) % 7 + 1 := by
  have hdiv := Int.mul_tdiv_add_tmod days 7
  unfold wdayOffset
  omega

theorem wdayOffset_number (d : Date) :
    wdayOffset (((d.number : ℤ) - epochNumber).tmod 7) epochWday = d.weekday := by
  rw [wdayOffset_tmod]
  unfold epochWday epochNumber Date.weekday
  omega

/-- The date part of a converted datetime. -/
theorem dateToObTime_number (d : Date) (hy : d.year ≤ 9999) (obTime : ObTime) :
    dateToObTime ((d.number : ℤ) - epochNumber) obTime =
      { obTime with
        date := (d.number : ℤ) - epochNumber, wday := d.weekday, year := d.year
        yday := d.dayOfYear, mon := d.month, mday := d.day } := by
  have hzero : ((d.number : ℤ) - epochNumber == zeroDate) = false := by
    rw [beq_eq_false_iff_ne]
    unfold zeroDate epochNumber
    omega
  unfold dateToObTime
  rw [hzero, Bool.and_false, if_neg Bool.false_ne_true, daysToYearYdays_number d hy]
  dsimp only
  rw [ydaysToMonthMdays_dayOfYear, wdayOffset_number]

/-- The time part of a converted datetime. -/
theorem timeToObTime_eq {value : ℤ} (hlo : 0 ≤ value) (hhi : value < usecsPerDay)
    (obTime : ObTime) :
    timeToObTime value obTime =
      { obTime with
        hour := value / 3600000000, min := value / 60000000 % 60
        sec := value / 1000000 % 60, usec := value % 1000000 } := by
  unfold usecsPerDay at hhi
  have hneg : ¬ value < 0 := not_lt.mpr hlo
  have hmax : ¬ value > timeMaxVal := by
    unfold timeMaxVal
    omega
  unfold timeToObTime
  dsimp only
  rw [if_neg hneg, if_neg hneg, if_neg hmax]
  rw [Int.tdiv_eq_ediv_of_nonneg hlo, Int.tmod_eq_emod_of_nonneg hlo,
    Int.tdiv_eq_ediv_of_nonneg (by omega), Int.tmod_eq_emod_of_nonneg (by omega),
    Int.tdiv_eq_ediv_of_nonneg (by omega), Int.tmod_eq_emod_of_nonneg (by omega)]
  rw [show int32 (value / 1000000 / 3600) = _ from wrap_of_range (by omega) (by omega),
    show int32 (value / 1000000 % 3600 / 60) = _ from wrap_of_range (by omega) (by omega),
    show int32 (value / 1000000 % 3600 % 60) = _ from wrap_of_range (by omega) (by omega),
    show int32 (value % 1000000) = _ from wrap_of_range (by omega) (by omega)]
  congr 1 <;> omega

theorem usecToObTime_eq {t : ℤ} (hlo : datetimeMinVal ≤ t) (hhi : t ≤ datetimeMaxVal)
    (obTime : ObTime) :
    usecToObTime t obTime =
      timeToObTime (t % usecsPerDay) (dateToObTime (t / usecsPerDay) obTime) := by
  have hdiv := Int.mul_tdiv_add_tmod t usecsPerDay
  have hneg := Int.tmod_lt_of_pos t (show 0 < usecsPerDay by decide)
  have hpos := Int.lt_tmod_of_pos t (show 0 < usecsPerDay by decide)
  unfold usecToObTime
  dsimp only
  unfold datetimeMinVal at hlo
  unfold datetimeMaxVal at hhi
  unfold usecsPerDay at *
  rw [show int32 (t.tdiv 86400000000) = _ from wrap_of_range (by omega) (by omega)]
  split_ifs with hlt
  · congr 1
    · omega
    · congr 1
      omega
  · congr 1
    · omega
    · congr 1
      omega

/-! ### Parts to datetimes -/

theorem leapYearCount_pred (y : ℕ) :
    leapYearCount ((y : ℤ) - 1) =
      (((y - 1) / 4 : ℕ) : ℤ) - ((y - 1) / 100 : ℕ) + ((y - 1) / 400 : ℕ) := by
  by_cases h0 : y = 0
  · subst h0
    rfl
  · have hpred : (y : ℤ) - 1 = ((y - 1 : ℕ) : ℤ) := by omega
    rw [leapYearCount, hpred]
    rfl

/-- `ob_time_to_date` counts the days of a date. -/
theorem obTimeToDate_date (d : Date) (hy : d.year ≤ 9999) {obTime : ObTime}
    (hyear : obTime.year = d.year) (hmon : obTime.mon = d.month) (hmday : obTime.mday = d.day)
    (hdate : obTime.date ≠ zeroDate) :
    obTimeToDate obTime =
      ({ obTime with yday := d.dayOfYear, wday := d.weekday }, (d.number : ℤ) - epochNumber) := by
  have hclosed := daysBeforeYear_eq d.year
  have hpos := d.month_pos
  have hle := d.month_le
  have hyday := d.dayOfYear_le
  have hyday' := d.dayOfYear_pos
  rw [yearDays_isLeap] at hyday
  have hyday366 : d.dayOfYear ≤ 366 := by split_ifs at hyday <;> omega
  have hday : int32 ((daysUntilMon (isLeapYear obTime.year)).getD (obTime.mon - 1).toNat 0 +
      obTime.mday) = d.dayOfYear := by
    have hindex : ((d.month : ℤ) - 1).toNat = d.month - 1 := by omega
    rw [hyear, hmon, hmday, isLeapYear_natCast, hindex, daysUntilMon_getD _ (by omega),
      Nat.sub_add_cancel hpos, ← Nat.cast_add]
    exact wrap_of_range (by omega) (show ((d.dayOfYear : ℕ) : ℤ) < 2 ^ 31 by omega)
  have hyears : int32 ((obTime.year - 1970) * 365) = ((d.year : ℤ) - 1970) * 365 := by
    rw [hyear]
    exact wrap_of_range (by omega) (by omega)
  have hvalue : int32 (((d.year : ℤ) - 1970) * 365 +
      (leapYearCount ((d.year : ℤ) - 1) - leapYearCount (1970 - 1)) + d.dayOfYear - 1) =
      (d.number : ℤ) - epochNumber := by
    have hbase : leapYearCount (1970 - 1) = 477 := rfl
    rw [leapYearCount_pred, hbase]
    unfold epochNumber Date.number
    rw [int32, wrap_of_range (by omega) (by omega)]
    omega
  unfold obTimeToDate
  rw [if_neg (fun h => hdate h.1)]
  dsimp only
  rw [if_neg (by omega), hday, hyears, hyear, hvalue, wdayOffset_number]

/-- The datetime range is that of the years 0 to 9999. -/
theorem exists_date {t : ℤ} (hlo : datetimeMinVal ≤ t) (hhi : t ≤ datetimeMaxVal) :
    ∃ d : Date, d.year ≤ 9999 ∧ (d.number : ℤ) - epochNumber = t / usecsPerDay := by
  have hclosed := daysBeforeYear_eq 10000
  unfold datetimeMinVal at hlo
  unfold datetimeMaxVal at hhi
  unfold usecsPerDay
  obtain ⟨d, hd, hy⟩ := Date.exists_of_lt (Y := 10000)
    (show (t / 86400000000 + epochNumber).toNat < daysBeforeYear 10000 by
      unfold epochNumber
      omega)
  refine ⟨d, by omega, ?_⟩
  unfold epochNumber at *
  omega

/-- **Datetimes and their parts convert exactly both ways.**  The parts are those of the date that
is the floor of the days from 1970-01-01, and of the time of that day; the inverse
conversions return the day and, unless `DT_USEC` is taken for nanoseconds, the datetime. -/
theorem usecToObTime_roundTrip {t : ℤ} (hlo : datetimeMinVal ≤ t) (hhi : t ≤ datetimeMaxVal)
    (obTime : ObTime) :
    ∃ (d : Date) (r : ObTime), usecToObTime t obTime = r ∧
      -- the date
      d.year ≤ 9999 ∧ (d.number : ℤ) - epochNumber = t / usecsPerDay ∧
      r.year = d.year ∧ r.mon = d.month ∧ r.mday = d.day ∧ r.date = t / usecsPerDay ∧
      r.wday = d.weekday ∧ r.yday = d.dayOfYear ∧
      -- the time of the day
      (0 ≤ r.hour ∧ r.hour < 24) ∧ (0 ≤ r.min ∧ r.min < 60) ∧ (0 ≤ r.sec ∧ r.sec < 60) ∧
      (0 ≤ r.usec ∧ r.usec < 1000000) ∧
      ((r.hour * 60 + r.min) * 60 + r.sec) * 1000000 + r.usec = t % usecsPerDay ∧
      -- the inverse conversions
      obTimeToDate r = (r, t / usecsPerDay) ∧
      (obTime.typeOracle = false → obTimeToDatetime r = .ok t) := by
  obtain ⟨d, hy, hd⟩ := exists_date hlo hhi
  obtain ⟨u, hu⟩ : ∃ u : ℤ, t % usecsPerDay = u := ⟨_, rfl⟩
  have hu0 : 0 ≤ u := hu ▸ Int.emod_nonneg t (by decide)
  have huDay : u < usecsPerDay := hu ▸ Int.emod_lt_of_pos t (by decide)
  have hparts := usecToObTime_eq hlo hhi obTime
  rw [hu, ← hd, dateToObTime_number d hy, timeToObTime_eq hu0 huDay] at hparts
  have hzero : (d.number : ℤ) - epochNumber ≠ zeroDate := by
    unfold zeroDate epochNumber
    omega
  refine ⟨d, _, hparts, hy, hd, rfl, rfl, rfl, hd, rfl, rfl, ?_⟩
  dsimp only
  have htime : ((u / 3600000000 * 60 + u / 60000000 % 60) * 60 + u / 1000000 % 60) * 1000000 +
      u % 1000000 = u := by omega
  unfold usecsPerDay at huDay
  refine ⟨by omega, by omega, by omega, by omega, by rw [htime, hu], ?_, ?_⟩
  · rw [← hd, obTimeToDate_date d hy rfl rfl rfl hzero]
  · intro hmode
    have hsum : ((d.number : ℤ) - epochNumber) * usecsPerDay + u = t := by
      rw [hd, ← hu, mul_comm]
      exact Int.mul_ediv_add_emod t usecsPerDay
    unfold obTimeToDatetime obTimeToTime
    dsimp only
    rw [if_neg hzero, hmode, if_neg Bool.false_ne_true, htime, hsum, if_neg (by omega)]

theorem usecToObTime_roundTrip_epoch :
    (datetimeMinVal ≤ -1 ∧ -1 ≤ datetimeMaxVal) ∧
      obTimeToDatetime (usecToObTime (-1) {}) = .ok (-1) := by
  obtain ⟨_, _, rfl, -, -, -, -, -, -, -, -, -, -, -, -, -, -, hback⟩ :=
    usecToObTime_roundTrip (t := -1) (by decide) (by decide) {}
  exact ⟨by decide, hback rfl⟩

end Andl.ObTimeConverter
