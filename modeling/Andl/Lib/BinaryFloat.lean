import Mathlib

/-!
# Rounding to a binary floating point number

`roundBinary p q` is the number with a significand of `p` bits that is closest to `q ≥ 0`; of two,
the one with an even significand.
-/

namespace Andl

/-- `x`, rounded to the closest integer, and to the even one of two. -/
def roundEven (x : ℚ) : ℤ :=
  if x - ⌊x⌋ < 1 / 2 then ⌊x⌋
  else if 1 / 2 < x - ⌊x⌋ then ⌊x⌋ + 1
  else if ⌊x⌋ % 2 = 0 then ⌊x⌋ else ⌊x⌋ + 1

theorem roundEven_bounds (x : ℚ) : (roundEven x : ℚ) - 1 / 2 ≤ x ∧ x ≤ roundEven x + 1 / 2 := by
  have hle := Int.floor_le x
  have hlt := Int.lt_floor_add_one x
  unfold roundEven
  split_ifs <;> push_cast <;> constructor <;> linarith

theorem roundEven_mono {x y : ℚ} (h : x ≤ y) : roundEven x ≤ roundEven y := by
  rcases h.eq_or_lt with rfl | hlt
  · exact le_refl _
  · by_contra hgt
    have hstep : (roundEven y : ℚ) + 1 ≤ roundEven x := by exact_mod_cast not_le.mp hgt
    have hx := (roundEven_bounds x).1
    have hy := (roundEven_bounds y).2
    linarith

theorem roundEven_intCast (k : ℤ) : roundEven (k : ℚ) = k := by
  rw [roundEven, Int.floor_intCast, sub_self, if_pos (by norm_num)]

/-- `q`, rounded to a significand of `p` bits. -/
def roundBinary (p : ℕ) (q : ℚ) : ℚ :=
  if q ≤ 0 then 0
  else roundEven (q / 2 ^ (Int.log 2 q - p + 1)) * 2 ^ (Int.log 2 q - p + 1)

variable {p : ℕ} {q r : ℚ}

theorem two_zpow_pos (k : ℤ) : (0 : ℚ) < 2 ^ k := zpow_pos (by norm_num) k

/-- A number keeps its order of magnitude, or is rounded up to the next one. -/
theorem roundBinary_bounds (hp : 0 < p) (hq : 0 < q) :
    (2 : ℚ) ^ Int.log 2 q ≤ roundBinary p q ∧ roundBinary p q ≤ 2 ^ (Int.log 2 q + 1) := by
  have hlow : (2 : ℚ) ^ Int.log 2 q ≤ q := Int.zpow_log_le_self (by decide) hq
  have hhigh : q < (2 : ℚ) ^ (Int.log 2 q + 1) := Int.lt_zpow_succ_log_self (by decide) q
  rw [roundBinary, if_neg hq.not_ge]
  generalize Int.log 2 q = e at hlow hhigh ⊢
  have hu := two_zpow_pos (e - p + 1)
  have hpow (k : ℕ) : (((2 ^ k : ℤ)) : ℚ) * 2 ^ (e - p + 1) = 2 ^ (e - p + 1 + k) := by
    push_cast
    rw [← zpow_natCast, ← zpow_add₀ (by norm_num), add_comm]
  have hlow' : (((2 ^ (p - 1) : ℤ)) : ℚ) ≤ q / 2 ^ (e - p + 1) := by
    rw [le_div_iff₀ hu, hpow, show e - p + 1 + ((p - 1 : ℕ) : ℤ) = e by omega]
    exact hlow
  have hhigh' : q / 2 ^ (e - p + 1) ≤ (((2 ^ p : ℤ)) : ℚ) := by
    rw [div_le_iff₀ hu, hpow, show e - p + 1 + (p : ℤ) = e + 1 by omega]
    exact hhigh.le
  have hrlow := roundEven_mono hlow'
  have hrhigh := roundEven_mono hhigh'
  rw [roundEven_intCast] at hrlow hrhigh
  have hrlow : (((2 ^ (p - 1) : ℤ)) : ℚ) ≤ roundEven (q / 2 ^ (e - p + 1)) := by
    exact_mod_cast hrlow
  have hrhigh : (roundEven (q / 2 ^ (e - p + 1)) : ℚ) ≤ ((2 ^ p : ℤ) : ℚ) := by
    exact_mod_cast hrhigh
  have hmlow := mul_le_mul_of_nonneg_right hrlow hu.le
  have hmhigh := mul_le_mul_of_nonneg_right hrhigh hu.le
  rw [hpow, show e - p + 1 + ((p - 1 : ℕ) : ℤ) = e by omega] at hmlow
  rw [hpow, show e - p + 1 + (p : ℤ) = e + 1 by omega] at hmhigh
  exact ⟨hmlow, hmhigh⟩

theorem roundBinary_zero (p : ℕ) : roundBinary p 0 = 0 := if_pos (le_refl 0)

theorem roundBinary_nonneg (hp : 0 < p) (q : ℚ) : 0 ≤ roundBinary p q := by
  rcases le_or_gt q 0 with hle | hlt
  · rw [roundBinary, if_pos hle]
  · exact (two_zpow_pos _).le.trans (roundBinary_bounds hp hlt).1

/-- Rounding to `p` binary digits is monotone. -/
theorem roundBinary_mono (hp : 0 < p) (h : q ≤ r) : roundBinary p q ≤ roundBinary p r := by
  rcases le_or_gt q 0 with hle | hlt
  · rw [roundBinary, if_pos hle]
    exact roundBinary_nonneg hp r
  · have hr := hlt.trans_le h
    rcases (Int.log_mono_right hlt h : Int.log 2 q ≤ Int.log 2 r).eq_or_lt with heq | hless
    · rw [roundBinary, roundBinary, if_neg hlt.not_ge, if_neg hr.not_ge, heq]
      have hu := two_zpow_pos (Int.log 2 r - p + 1)
      have hround : roundEven (q / 2 ^ (Int.log 2 r - p + 1)) ≤
          roundEven (r / 2 ^ (Int.log 2 r - p + 1)) := by
        apply roundEven_mono
        gcongr
      gcongr
    · -- there is a power of two between them
      calc roundBinary p q ≤ 2 ^ (Int.log 2 q + 1) := (roundBinary_bounds hp hlt).2
        _ ≤ 2 ^ Int.log 2 r := zpow_le_zpow_right₀ (by norm_num) (by omega)
        _ ≤ roundBinary p r := (roundBinary_bounds hp hr).1

/-- Small natural numbers are not changed. -/
theorem roundBinary_natCast {k : ℕ} (h : k < 2 ^ p) : roundBinary p (k : ℚ) = k := by
  rcases Nat.eq_zero_or_pos k with rfl | hk
  · exact_mod_cast roundBinary_zero p
  · have hpos : (0 : ℚ) < k := by exact_mod_cast hk
    rw [roundBinary, if_neg hpos.not_ge]
    have hlog : Int.log 2 (k : ℚ) < p := by
      apply (Int.lt_zpow_iff_log_lt (by decide) hpos).mp
      exact_mod_cast h
    obtain ⟨j, hj⟩ : ∃ j : ℕ, Int.log 2 (k : ℚ) - p + 1 = -(j : ℤ) :=
      ⟨(-(Int.log 2 (k : ℚ) - p + 1)).toNat, by omega⟩
    have hdiv : (k : ℚ) / 2 ^ (-(j : ℤ)) = ((k * 2 ^ j : ℤ) : ℚ) := by
      rw [zpow_neg, div_inv_eq_mul, zpow_natCast]
      push_cast
      rfl
    rw [hj, hdiv, roundEven_intCast, ← hdiv, div_mul_cancel₀ _ (two_zpow_pos _).ne']

end Andl
