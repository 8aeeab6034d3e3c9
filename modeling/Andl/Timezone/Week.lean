import Andl.Timezone.TimeConvert

/-!
# Week numbers

The functions of `ObTimeConverter` that find the week of a date and the date of a day of a week.
`WDAY_OFFSET` is also indexed by the days up to January 1 of a year, reduced modulo 7.
-/

namespace Andl.ObTimeConverter

/-- The bits of an `ObDTMode` for weeks. -/
structure WeekMode where
  /-- `DT_WEEK_SUN_BEGIN`. -/
  sunBegin : Bool := false
  /-- `DT_WEEK_ZERO_BEGIN`. -/
  zeroBegin : Bool := false
  /-- `DT_WEEK_GE_4_BEGIN`. -/
  ge4Begin : Bool := false
deriving DecidableEq

/-- `WEEK_MODE`. -/
def weekModes : List WeekMode :=
  [{ sunBegin := true, zeroBegin := true }, { zeroBegin := true, ge4Begin := true },
    { sunBegin := true }, { ge4Begin := true },
    { sunBegin := true, zeroBegin := true, ge4Begin := true }, { zeroBegin := true },
    { sunBegin := true, ge4Begin := true }, {}]

/-- The mode of `%X` and `%V`, `WEEK_MODE[2]`, or of `%x` and `%v`, `WEEK_MODE[3]`. -/
def weekModeOf (upper : Bool) : WeekMode := weekModes.getD (if upper then 2 else 3) {}

/-- `YDAY_WEEK1`: the day of the year where week 1 begins, if January 1 is the weekday `wday`. -/
def ydayWeek1 (wday : ℤ) (isSunBegin isGe4Begin : Bool) : ℤ :=
  let row : (ℤ × ℤ) × ℤ × ℤ :=
    [((0, 0), (0, 0)), ((1, 1), (7, 0)), ((7, 0), (6, -1)), ((6, -1), (5, -2)), ((5, -2), (4, 4)),
      ((4, 4), (3, 3)), ((3, 3), (2, 2)), ((2, 2), (1, 1))].getD wday.toNat ((0, 0), (0, 0))
  let cell := if isSunBegin then row.2 else row.1
  if isGe4Begin then cell.2 else cell.1

/-- `DAYS_PER_YEAR`. -/
def daysPerYear (isLeap : Bool) : ℤ := if isLeap then 366 else 365

/-- `ObTimeConverter::ob_time_to_week`: the week and `delta`, by which the year of the week differs
    from the year of the date. -/
def obTimeToWeek (obTime : ObTime) (mode : WeekMode) : ℤ × ℤ :=
  let week1 (wday : ℤ) := ydayWeek1 wday mode.sunBegin mode.ge4Begin
  let daysCurYear := daysPerYear (isLeapYear obTime.year)
  if (obTime.yday > 365 - 3 ∧ mode.ge4Begin ∧ !mode.zeroBegin) ∧
      -- the day is in week 1 of the next year
      obTime.yday ≥
        daysCurYear + week1 (wdayOffset (daysCurYear - obTime.yday + 1) obTime.wday) then
    (1, 1)
  else
    let ydayCurWeek1 := week1 (wdayOffset ((1 - obTime.yday).tmod 7) obTime.wday)
    if obTime.yday < ydayCurWeek1 ∧ !mode.zeroBegin then
      let daysPrevYear := daysPerYear (isLeapYear (obTime.year - 1))
      let ydayPrevWeek1 :=
        week1 (wdayOffset ((1 - daysPrevYear - obTime.yday).tmod 7) obTime.wday)
      ((daysPrevYear + obTime.yday - ydayPrevWeek1 + 7).tdiv 7, -1)
    else
      ((obTime.yday - ydayCurWeek1 + 7).tdiv 7, 0)

/-- `ObYearWeekWdayElems`, with a year that is set.  `upper` tells `%X`, `%V` from `%x`, `%v`. -/
structure ObYearWeekWdayElems where
  yearValue : ℤ
  upper : Bool
  weekValue : ℤ
  weekdayValue : ℤ

/-- `ObTimeConverter::calc_date_with_year_week_wday`. -/
def calcDateWithYearWeekWday (elements : ObYearWeekWdayElems) (ot : ObTime) : ObTime :=
  let (tmpOt, date) := obTimeToDate { year := elements.yearValue, mon := 1, mday := 1 }
  let weekday :=
    if elements.upper then elements.weekdayValue
    else (elements.weekdayValue + 7 - 1).tmod 7 + 1
  let firstWeekMondayOffset : List ℤ :=
    if elements.upper then [1, 7, 6, 5, 4, 3, 2] else [1, 0, -1, -2, -3, 3, 2]
  let offset := firstWeekMondayOffset.getD (tmpOt.wday.tmod 7).toNat 0 +
    (elements.weekValue - 1) * 7 + (weekday - 1)
  dateToObTime (int32 (date + offset)) ot

end Andl.ObTimeConverter
