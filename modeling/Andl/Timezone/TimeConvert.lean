import Andl.Common.Member
import Andl.Lib.MachineInt

/-!
# Datetimes and their parts

The part of `ObTimeConverter` that converts between a datetime, which is a number of microseconds
from 1970-01-01 on, and the parts of an `ObTime`.
-/

namespace Andl

/-- `ObTime`: its parts, and the bits of `mode_` that are used here. -/
structure ObTime where
  year : ℤ := 0
  mon : ℤ := 0
  mday : ℤ := 0
  hour : ℤ := 0
  min : ℤ := 0
  sec : ℤ := 0
  usec : ℤ := 0
  date : ℤ := 0
  yday : ℤ := 0
  wday : ℤ := 0
  /-- `DT_MODE_NEG`. -/
  modeNeg : Bool := false
  /-- `DT_TYPE_ORACLE`. -/
  typeOracle : Bool := false
deriving DecidableEq, Repr

namespace ObTimeConverter

/-- `USECS_PER_DAY`. -/
def usecsPerDay : ℤ := 86400000000

/-- `DATETIME_MIN_VAL`. -/
def datetimeMinVal : ℤ := -62167132800000000

/-- `DATETIME_MAX_VAL`. -/
def datetimeMaxVal : ℤ := 253402300799999999

/-- `ObTimeConverter::ZERO_DATETIME`. -/
def zeroDatetime : ℤ := -9223372022400000000

/-- `ObTimeConverter::ZERO_DATE`. -/
def zeroDate : ℤ := -106751991

/-- `DAYS_FROM_ZERO_TO_BASE`. -/
def daysFromZeroToBase : ℤ := 719528

/-- `TIME_MAX_VAL`. -/
def timeMaxVal : ℤ := 3020399 * 1000000

/-- `IS_LEAP_YEAR`. The 10000 entries of `INNER_IS_LEAP_YEAR`, which the macro takes for the years
from 0 to 9999, are the values of the formula it has for the other years; the year 0 is none. -/
def isLeapYear (y : ℤ) : Bool := y != 0 && y.tmod 4 == 0 && (y.tmod 100 != 0 || y.tmod 400 == 0)

/-- `DAYS_UNTIL_MON`. -/
def daysUntilMon (isLeap : Bool) : List ℤ :=
  if isLeap then [0, 31, 60, 91, 121, 152, 182, 213, 244, 274, 305, 335, 366]
  else [0, 31, 59, 90, 120, 151, 181, 212, 243, 273, 304, 334, 365]

/-- `WDAY_OFFSET_ARR`: a row for each offset from -6 to 6, in it a weekday for each weekday. -/
def wdayOffsetArr : List (List ℤ) :=
  [[0, 2, 3, 4, 5, 6, 7, 1], [0, 3, 4, 5, 6, 7, 1, 2], [0, 4, 5, 6, 7, 1, 2, 3],
    [0, 5, 6, 7, 1, 2, 3, 4], [0, 6, 7, 1, 2, 3, 4, 5], [0, 7, 1, 2, 3, 4, 5, 6],
    [0, 1, 2, 3, 4, 5, 6, 7], [0, 2, 3, 4, 5, 6, 7, 1], [0, 3, 4, 5, 6, 7, 1, 2],
    [0, 4, 5, 6, 7, 1, 2, 3], [0, 5, 6, 7, 1, 2, 3, 4], [0, 6, 7, 1, 2, 3, 4, 5],
    [0, 7, 1, 2, 3, 4, 5, 6]]

/-- `WDAY_OFFSET`: the weekday `offset` days from `wday`, as a formula for the table. -/
def wdayOffset (offset wday : ℤ) : ℤ := (wday - 1 + offset) % 7 + 1

/-- The formula is right in the whole table. -/
theorem wdayOffset_eq_arr : ∀ offset ∈ Finset.Icc (-6 : ℤ) 6, ∀ wday ∈ Finset.Icc (1 : ℤ) 7,
    wdayOffset offset wday = (wdayOffsetArr.getD (offset + 6).toNat []).getD wday.toNat 0 := by
  decide

/-- `EPOCH_WDAY`: 1970-1-1 is thursday. -/
def epochWday : ℤ := 4

/-- `LEAP_YEAR_COUNT`. -/
def leapYearCount (y : ℤ) : ℤ := y.tdiv 4 - y.tdiv 100 + y.tdiv 400

/-- `ObTimeConverter::days_to_year_ydays`. -/
def daysToYearYdays (days : ℤ) : ℤ × ℤ :=
  let date := days + daysFromZeroToBase
  let x := (date * 3762951 - 1374417852) / 2 ^ 37
  let halfLeap := x - x / 2 ^ 2
  let year := int32 ((date + halfLeap) * 2939745 / 2 ^ 30)
  (year, int32 (date - year * 365 - (year - if year = 0 then 0 else 1) / 2 ^ 2 + halfLeap))

/-- `ObTimeConverter::ydays_to_month_mdays`. -/
def ydaysToMonthMdays (year dtYday : ℤ) : ℤ × ℤ :=
  let isLeap := isLeapYear year
  let month := 1 + (dtYday - 1) / 2 ^ 5
  let month := if dtYday > (daysUntilMon isLeap).getD month.toNat 0 then month + 1 else month
  (month, dtYday - (daysUntilMon isLeap).getD (month - 1).toNat 0)

/-- `ObTimeConverter::date_to_ob_time`. -/
def dateToObTime (value : ℤ) (obTime : ObTime) : ObTime :=
  if !obTime.typeOracle && value == zeroDate then
    { obTime with
      year := 0, mon := 0, mday := 0, hour := 0, min := 0, sec := 0, usec := 0
      date := zeroDate }
  else
    let (year, yday) := daysToYearYdays value
    let (mon, mday) := ydaysToMonthMdays year yday
    { obTime with
      date := value
      wday := wdayOffset (value.tmod 7) epochWday
      year := year
      yday := yday
      mon := mon
      mday := mday }

/-- `ObTimeConverter::time_to_ob_time`. -/
def timeToObTime (value : ℤ) (obTime : ObTime) : ObTime :=
  let obTime := if value < 0 then { obTime with modeNeg := true } else obTime
  let value := if value < 0 then -value else value
  let value := if value > timeMaxVal then timeMaxVal else value
  let secs := value.tdiv 1000000
  { obTime with
    hour := int32 (secs.tdiv 3600)
    min := int32 ((secs.tmod 3600).tdiv 60)
    sec := int32 ((secs.tmod 3600).tmod 60)
    usec := int32 (value.tmod 1000000) }

/-- `ObTimeConverter::usec_to_ob_time`, which never fails. -/
def usecToObTime (usec : ℤ) (obTime : ObTime) : ObTime :=
  let days := int32 (usec.tdiv usecsPerDay)
  let usec := usec.tmod usecsPerDay
  if usec < 0 then
    timeToObTime (usec + usecsPerDay) (dateToObTime (days - 1) obTime)
  else
    timeToObTime usec (dateToObTime days obTime)

/-- `ObTimeConverter::ob_time_to_date`, with the parts it sets. -/
def obTimeToDate (obTime : ObTime) : ObTime × ℤ :=
  if obTime.date = zeroDate ∧ obTime.typeOracle = false then
    (obTime, zeroDate)
  else
    let yday :=
      if obTime.mon ≤ 0 ∨ obTime.mon > 13 then
        0
      else
        int32 ((daysUntilMon (isLeapYear obTime.year)).getD (obTime.mon - 1).toNat 0 +
          obTime.mday)
    let daysOfYears := int32 ((obTime.year - 1970) * 365)
    let leapYears := leapYearCount (obTime.year - 1) - leapYearCount (1970 - 1)
    let value := int32 (daysOfYears + leapYears + yday - 1)
    ({ obTime with yday := yday, wday := wdayOffset (value.tmod 7) epochWday }, value)

/-- `ObTimeConverter::ob_time_to_time`. -/
def obTimeToTime (obTime : ObTime) : ℤ :=
  ((obTime.hour * 60 + obTime.min) * 60 + obTime.sec) * 1000000 +
    if obTime.typeOracle then obTime.usec.tdiv 1000 else obTime.usec

/-- `ObTimeConverter::ob_time_to_datetime` without a time zone. -/
def obTimeToDatetime (obTime : ObTime) : ObResult ℤ :=
  if obTime.date = zeroDate then
    .ok zeroDatetime
  else
    let usec := obTime.date * usecsPerDay + obTimeToTime obTime
    if usec > datetimeMaxVal ∨ usec < datetimeMinVal then
      .error .datetimeFunctionOverflow
    else
      .ok usec

end ObTimeConverter

end Andl
