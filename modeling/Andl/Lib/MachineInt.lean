import Mathlib

/-!
# Signed machine integers

Values of signed integer types are integers; what an assignment or a cast keeps of a value that does
not fit is its remainder in the range of the type.
-/

namespace Andl

/-- What a signed integer of `w + 1` bits keeps of `x`. -/
def wrap (w : ℕ) (x : ℤ) : ℤ := (x + 2 ^ w) % 2 ^ (w + 1) - 2 ^ w

/-- An assignment to `int32_t`. -/
abbrev int32 (x : ℤ) : ℤ := wrap 31 x

/-- An assignment to `int64_t`. -/
abbrev int64 (x : ℤ) : ℤ := wrap 63 x

variable {w : ℕ} {x y : ℤ}

theorem wrap_of_range (hlo : -2 ^ w ≤ x) (hhi : x < 2 ^ w) : wrap w x = x := by
  rw [wrap, Int.emod_eq_of_lt (by omega) (by rw [Int.pow_succ]; omega)]
  omega

theorem wrap_range (w : ℕ) (x : ℤ) : -2 ^ w ≤ wrap w x ∧ wrap w x < 2 ^ w := by
  have hpos : (0 : ℤ) < 2 ^ (w + 1) := Int.pow_pos (by decide)
  have hlo := Int.emod_nonneg (x + 2 ^ w) (Int.ne_of_gt hpos)
  have hhi := Int.emod_lt_of_pos (x + 2 ^ w) hpos
  rw [Int.pow_succ] at hhi
  unfold wrap
  rw [Int.pow_succ] at hlo ⊢
  omega

end Andl
