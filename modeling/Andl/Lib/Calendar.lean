import Mathlib

/-!
# The Gregorian calendar from year 0 on

The proleptic Gregorian calendar, except that year 0 has 365 days.
-/

namespace Andl.Calendar

/-- The leap years. -/
def isLeap (y : ℕ) : Bool := y != 0 && y % 4 == 0 && (y % 100 != 0 || y % 400 == 0)

/-- The days of the months 1 to 12. -/
def monthDays (leap : Bool) : ℕ → ℕ
  | 2 => if leap then 29 else 28
  | 4 | 6 | 9 | 11 => 30
  | _ => 31

/-- The days of a year. -/
def yearDays (leap : Bool) : ℕ := if leap then 366 else 365

/-- The days of a year before month `m`. -/
def daysBeforeMonth (leap : Bool) : ℕ → ℕ
  | 0 => 0
  | 1 => 0
  | m + 2 => daysBeforeMonth leap (m + 1) + monthDays leap (m + 1)

/-- The days before January 1 of year `y`. -/
def daysBeforeYear : ℕ → ℕ
  | 0 => 0
  | y + 1 => daysBeforeYear y + yearDays (isLeap y)

theorem yearDays_isLeap (y : ℕ) :
    yearDays (isLeap y) = 365 +
      if y ≠ 0 ∧ y % 4 = 0 ∧ (y % 100 ≠ 0 ∨ y % 400 = 0) then 1 else 0 := by
  by_cases h : y ≠ 0 ∧ y % 4 = 0 ∧ (y % 100 ≠ 0 ∨ y % 400 = 0)
  · rw [if_pos h, yearDays, if_pos (by simpa [isLeap, and_assoc] using h)]
  · rw [if_neg h, yearDays, if_neg (by simpa [isLeap, and_assoc] using h)]

theorem daysBeforeYear_eq (y : ℕ) :
    daysBeforeYear y + (y - 1) / 100 = 365 * y + (y - 1) / 4 + (y - 1) / 400 := by
  induction y with
  | zero => rfl
  | succ y ih =>
    rw [daysBeforeYear, yearDays_isLeap]
    split_ifs with h <;> omega

theorem daysBeforeYear_succ (y : ℕ) :
    daysBeforeYear (y + 1) = daysBeforeYear y + yearDays (isLeap y) := rfl

/-- The last day of month 12 is the last day of the year. -/
theorem daysBeforeMonth_add_le (leap : Bool) {m : ℕ} (hpos : 1 ≤ m) (hle : m ≤ 12) :
    daysBeforeMonth leap m + monthDays leap m ≤ yearDays leap := by
  interval_cases m <;> cases leap <;> decide

theorem daysBeforeMonth_succ (leap : Bool) {m : ℕ} (hpos : 1 ≤ m) :
    daysBeforeMonth leap (m + 1) = daysBeforeMonth leap m + monthDays leap m := by
  obtain ⟨k, rfl⟩ := Nat.exists_eq_add_of_le' hpos
  rfl

/-- Every day of the months up to `M` is in one of them. -/
theorem exists_month (leap : Bool) {M k : ℕ} (h : k < daysBeforeMonth leap (M + 1)) :
    ∃ m, 1 ≤ m ∧ m ≤ M ∧ ∃ r < monthDays leap m, k = daysBeforeMonth leap m + r := by
  induction M with
  | zero => exact absurd h (Nat.not_lt_zero k)
  | succ M ih =>
    by_cases hk : k < daysBeforeMonth leap (M + 1)
    · obtain ⟨m, hpos, hle, r, hr, heq⟩ := ih hk
      exact ⟨m, hpos, hle.trans (Nat.le_succ M), r, hr, heq⟩
    · rw [daysBeforeMonth_succ leap (Nat.le_add_left 1 M)] at h
      exact ⟨M + 1, Nat.le_add_left 1 M, Nat.le_refl _, k - daysBeforeMonth leap (M + 1), by omega,
        by omega⟩

/-- Every day before year `Y` is in one of the years. -/
theorem exists_year {Y n : ℕ} (h : n < daysBeforeYear Y) :
    ∃ y < Y, ∃ r < yearDays (isLeap y), n = daysBeforeYear y + r := by
  induction Y with
  | zero => exact absurd h (Nat.not_lt_zero n)
  | succ Y ih =>
    by_cases hn : n < daysBeforeYear Y
    · obtain ⟨y, hy, r, hr, heq⟩ := ih hn
      exact ⟨y, hy.trans (Nat.lt_succ_self Y), r, hr, heq⟩
    · rw [daysBeforeYear_succ] at h
      exact ⟨Y, Nat.lt_succ_self Y, n - daysBeforeYear Y, by omega, by omega⟩

/-- A date of the calendar. -/
structure Date where
  year : ℕ
  month : ℕ
  day : ℕ
  month_pos : 1 ≤ month
  month_le : month ≤ 12
  day_pos : 1 ≤ day
  day_le : day ≤ monthDays (isLeap year) month

namespace Date

/-- The day of the year, from 1 on. -/
def dayOfYear (d : Date) : ℕ := daysBeforeMonth (isLeap d.year) d.month + d.day

/-- The days from January 1 of year 0 to a date. -/
def number (d : Date) : ℕ := daysBeforeYear d.year + d.dayOfYear - 1

/-- The day of the week, from Monday as 1 on. -/
def weekday (d : Date) : ℕ := (d.number + 6) % 7 + 1

theorem dayOfYear_pos (d : Date) : 1 ≤ d.dayOfYear := d.day_pos.trans (Nat.le_add_left _ _)

theorem dayOfYear_le (d : Date) : d.dayOfYear ≤ yearDays (isLeap d.year) := by
  have := daysBeforeMonth_add_le (isLeap d.year) d.month_pos d.month_le
  have := d.day_le
  unfold dayOfYear
  omega

/-- Every day number is the number of a date. -/
theorem exists_of_lt {Y n : ℕ} (h : n < daysBeforeYear Y) :
    ∃ d : Date, d.number = n ∧ d.year < Y := by
  obtain ⟨y, hy, r, hr, rfl⟩ := exists_year h
  have hyear : yearDays (isLeap y) = daysBeforeMonth (isLeap y) (12 + 1) := by
    cases isLeap y <;> rfl
  rw [hyear] at hr
  obtain ⟨m, hpos, hle, k, hk, rfl⟩ := exists_month (isLeap y) hr
  exact ⟨⟨y, m, k + 1, hpos, hle, Nat.le_add_left 1 k, hk⟩, rfl, hy⟩

end Date

end Andl.Calendar
