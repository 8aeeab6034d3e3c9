import Mathlib

/-!
# Rounding half away from zero, and towards zero

`roundHalfAway u v` is the multiple of `u` that is closest to `v`; of two, the one of the larger
absolute value.
-/

namespace Andl

/-- `v`, rounded half away from zero to a multiple of `u`. -/
def roundHalfAway (u v : ℚ) : ℚ := (SignType.sign v : ℤ) * (⌊|v| / u + 1 / 2⌋ * u)

/-- Half or more of the unit is rounded up. -/
theorem mul_div_add_half {p n : ℕ} (hp : 0 < p) (heven : Even p) :
    (n + p / 2) / p * p = if p / 2 ≤ n % p then n + (p - n % p) else n - n % p := by
  obtain ⟨h, rfl⟩ := heven
  have hmod := Nat.mod_lt n hp
  have hdiv := Nat.div_add_mod n (h + h)
  have hhalf : (h + h) / 2 = h := by omega
  rw [hhalf]
  generalize n / (h + h) = q at hdiv
  generalize n % (h + h) = r at hdiv hmod
  subst hdiv
  split_ifs with hle
  · have hsum : (h + h) * q + r + h = r - h + (h + h) * (q + 1) := by
      rw [Nat.mul_add, mul_one]
      omega
    rw [hsum, Nat.add_mul_div_left _ _ hp, Nat.div_eq_of_lt (by omega), zero_add, Nat.add_mul,
      one_mul, mul_comm q]
    omega
  · rw [Nat.add_assoc, Nat.add_comm, Nat.add_mul_div_left _ _ hp, Nat.div_eq_of_lt (by omega),
      zero_add, mul_comm q]
    omega

/-- **Cutting off** everything below `w` does not change how `v` is rounded to an even multiple of
`w`. -/
theorem roundHalfAway_of_floor {v w : ℚ} {p n : ℕ} (hp : 0 < p) (heven : Even p) (hw : 0 < w)
    (hfloor : ⌊|v| / w⌋ = n) :
    roundHalfAway (p * w) v =
      (SignType.sign v : ℤ) * (((n + p / 2) / p * p : ℕ) * w) := by
  obtain ⟨h, rfl⟩ := heven
  have hne : (h : ℚ) ≠ 0 := by
    norm_cast
    omega
  have hh : (h + h) / 2 = h := by omega
  have hsum : |v| / (((h + h : ℕ) : ℚ) * w) + 1 / 2 = (|v| / w + (h : ℤ)) / ((h + h : ℕ) : ℚ) := by
    push_cast
    field_simp
    ring
  have hround : ⌊|v| / (((h + h : ℕ) : ℚ) * w) + 1 / 2⌋ = (((n + h) / (h + h) : ℕ) : ℤ) := by
    rw [hsum, Int.floor_div_natCast, Int.floor_add_intCast, hfloor]
    push_cast
    rfl
  rw [roundHalfAway, hround, hh, Int.cast_natCast, Nat.cast_mul,
    mul_assoc (((n + h) / (h + h) : ℕ) : ℚ)]

theorem roundHalfAway_of_eq_mul {u v : ℚ} {n : ℕ} (hu : 0 < u) (h : |v| = n * u) :
    roundHalfAway u v = v := by
  have hfloor : ⌊|v| / u + 1 / 2⌋ = n := by
    rw [h, mul_div_cancel_right₀ _ hu.ne', Int.floor_natCast_add]
    norm_num
  rw [roundHalfAway, hfloor, Int.cast_natCast, ← h, SignType.intCast_cast, sign_mul_abs]

theorem roundHalfAway_of_lt_half {u v : ℚ} (h : |v| < u / 2) : roundHalfAway u v = 0 := by
  have hu : 0 < u := by linarith [abs_nonneg v]
  have hlt : |v| / u < 1 / 2 := by
    rw [div_lt_iff₀ hu]
    linarith
  have hnonneg : 0 ≤ |v| / u := by positivity
  have hfloor : ⌊|v| / u + 1 / 2⌋ = 0 := by
    rw [Int.floor_eq_zero_iff, Set.mem_Ico]
    constructor <;> linarith
  rw [roundHalfAway, hfloor, Int.cast_zero, zero_mul, mul_zero]

/-- `v`, truncated towards zero to a multiple of `u`. -/
def truncTo (u v : ℚ) : ℚ := (SignType.sign v : ℤ) * (⌊|v| / u⌋ * u)

end Andl
