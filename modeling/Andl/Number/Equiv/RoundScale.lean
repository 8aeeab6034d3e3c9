import Andl.Number.Equiv.Add
import Andl.Number.RoundTrunc

/-!
# Rounding to a scale is exact
-/

namespace Andl.Number

open List

namespace ObNumber

/-! ### The digit and the unit -/

/-- The index of the digit in which a number is rounded to `s` decimals. -/
def scaleIndex (d : ObNumberDesc) (s : ℤ) : ℤ := d.getDecodeExp + 1 + s / 9

/-- The power of ten to a multiple of which that digit is rounded. -/
def scalePow (s : ℤ) : ℕ := 10 ^ (9 - s % 9).toNat

theorem scalePow_pos (s : ℤ) : 0 < scalePow s := Nat.pow_pos (by decide)

theorem scalePow_even (s : ℤ) : Even (scalePow s) := by
  refine Even.pow_of_ne_zero (by decide) ?_
  omega

theorem scalePow_dvd (s : ℤ) : scalePow s ∣ base := by
  rw [show base = 10 ^ 9 from rfl]
  exact pow_dvd_pow 10 (by omega)

theorem two_lt_scalePow (s : ℤ) : 2 < scalePow s := by
  have hten : 10 ^ 1 ≤ scalePow s := Nat.pow_le_pow_right (by decide) (by omega)
  omega

/-- **The unit** of `s` decimals, in terms of the digit. -/
theorem scaleUnit_eq (d : ObNumberDesc) (s : ℤ) :
    (10 : ℚ) ^ (-s) = scalePow s * (base : ℚ) ^ (d.getDecodeExp - scaleIndex d s) := by
  unfold scalePow scaleIndex
  rw [base_zpow, Nat.cast_pow, Nat.cast_ofNat, ← zpow_natCast, ← zpow_add₀ (by norm_num)]
  congr 1
  omega

/-! ### What to do -/

section Action

variable {x : ObNumber} {s : ℤ}

theorem roundAction_of_neg (hpos : 0 < x.d.len) (hk : scaleIndex x.d s < 0) :
    roundAction x s false = .setZero := by
  unfold scaleIndex at hk
  unfold roundAction digitLen
  generalize x.d.getDecodeExp = e at hk
  simp only [Bool.false_eq_true, false_and, if_false, and_true]
  rcases lt_trichotomy s 0 with hs | rfl | hs
  · rw [if_neg (by omega), if_pos hs, if_pos (by split_ifs <;> omega)]
  · simp only [gt_iff_lt, lt_self_iff_false, if_false]
    rw [if_neg (by split_ifs <;> omega), if_neg (by split_ifs <;> omega), if_neg (by omega)]
  · rw [if_pos hs, if_neg (by split_ifs <;> omega), if_pos (by split_ifs <;> omega)]

theorem roundAction_of_len_le (hpos : 0 < x.d.len) (hk : x.d.len ≤ scaleIndex x.d s) :
    roundAction x s false = .keep := by
  unfold scaleIndex at hk
  unfold roundAction digitLen
  generalize x.d.getDecodeExp = e at hk
  simp only [Bool.false_eq_true, false_and, if_false, and_true]
  rcases lt_trichotomy s 0 with hs | rfl | hs
  · rw [if_neg (by omega), if_pos hs, if_neg (by split_ifs <;> omega),
      if_pos (by split_ifs <;> omega)]
  · simp only [gt_iff_lt, lt_self_iff_false, if_false]
    rw [if_pos (by split_ifs <;> omega)]
  · rw [if_pos hs, if_pos (by split_ifs <;> omega)]

/-- The table has `10 ^ (9 - i)` at `i`, and once more `10 ^ 9` at the end. -/
theorem roundPows_getD {i : ℕ} (hi : i ≤ 9) (hpow : i = (s % 9).toNat ∨ i = 9 ∧ s % 9 = 0) :
    roundPows.getD i 0 = scalePow s := by
  unfold scalePow
  rcases hpow with rfl | ⟨rfl, hs⟩
  · have hlow := Int.emod_nonneg s (show (9 : ℤ) ≠ 0 by decide)
    have hhigh := Int.emod_lt_of_pos s (show (0 : ℤ) < 9 by decide)
    generalize s % 9 = r at hlow hhigh
    interval_cases r <;> rfl
  · rw [hs]
    rfl

theorem roundAction_of_mem {k : ℕ} (hk : scaleIndex x.d s = k) (hlen : k < x.d.len) :
    (s = 0 ∧ k = 0 ∧ roundAction x s false =
      if x.digits.getD 0 0 ≥ base / 2 then .setOne else .setZero) ∨
    ∃ len powId, roundAction x s false = .digit len k powId ∧
      roundPows.getD powId 0 = scalePow s ∧ (len = k + 1 ∨ len = k ∧ scalePow s = base) := by
  unfold scaleIndex at hk
  unfold roundAction digitLen
  generalize x.d.getDecodeExp = e at hk
  simp only [Bool.false_eq_true, false_and, if_false, and_true]
  rcases lt_trichotomy s 0 with hs | rfl | hs
  · right
    rw [if_neg (by omega), if_pos hs, if_neg (by split_ifs <;> omega),
      if_neg (by split_ifs <;> omega)]
    refine ⟨k + 1, (9 - (0 - s - (0 - s) / 9 * 9)).toNat, ?_, ?_, .inl rfl⟩
    · rw [RoundAction.digit.injEq]
      split_ifs <;> omega
    · exact roundPows_getD (by omega) (by omega)
  · simp only [gt_iff_lt, lt_self_iff_false, if_false]
    rw [if_neg (by split_ifs <;> omega)]
    by_cases hfirst : k = 0
    · left
      refine ⟨trivial, hfirst, ?_⟩
      rw [if_neg (by split_ifs <;> omega)]
      refine if_congr ?_ rfl rfl
      constructor
      · exact fun h => h.1
      · exact fun h => ⟨h, by omega⟩
    · right
      rw [if_pos (by split_ifs <;> omega)]
      refine ⟨k, 0, ?_, rfl, .inr ⟨rfl, rfl⟩⟩
      rw [RoundAction.digit.injEq]
      split_ifs <;> omega
  · right
    rw [if_pos hs, if_neg (by split_ifs <;> omega), if_neg (by split_ifs <;> omega)]
    refine ⟨k + 1, (s - s / 9 * 9).toNat, ?_, ?_, .inl rfl⟩
    · rw [RoundAction.digit.injEq]
      split_ifs <;> omega
    · exact roundPows_getD (by omega) (by omega)

end Action

/-! ### The rounded value -/

variable {x : ObNumber} {s : ℤ}

/-- The digits up to index `k`, read as one integer. -/
theorem Normal.floor_magnitude_take (h : x.Normal) {k : ℕ} (hk : k < x.d.len) :
    ⌊x.magnitude / (base : ℚ) ^ (x.d.getDecodeExp - k)⌋ =
      ofDigitsBE base (x.used.take (k + 1)) := by
  have hdrop : (x.used.drop (k + 1)).length = x.d.len - (k + 1) := by
    rw [length_drop, h.length_used]
  have hscaled : x.magnitude / (base : ℚ) ^ (x.d.getDecodeExp - k) =
      (ofDigitsBE base (x.used.take (k + 1) ++ x.used.drop (k + 1)) : ℚ) /
        (base : ℚ) ^ (x.used.drop (k + 1)).length := by
    rw [take_append_drop, hdrop, magnitude, mul_div_assoc, ← zpow_sub₀ base_pos.ne',
      div_eq_mul_inv, ← zpow_natCast, ← zpow_neg]
    congr 2
    omega
  rw [hscaled]
  exact floor_ofDigitsBE (by decide) fun c hc => h.digit_lt (mem_of_mem_drop hc)

theorem exists_zpow_eq_mul_unit {d : ObNumberDesc} {w : ℤ}
    (hw : d.getDecodeExp - scaleIndex d s + 1 ≤ w) :
    ∃ n : ℕ, (base : ℚ) ^ w = n * (10 : ℚ) ^ (-s) := by
  obtain ⟨q, hq⟩ := scalePow_dvd s
  obtain ⟨j, hj⟩ := Int.le.dest hw
  have hunit : (base : ℚ) = scalePow s * q := by exact_mod_cast hq
  have hpow : (base : ℚ) ^ w =
      (base : ℚ) ^ j * (scalePow s * q * (base : ℚ) ^ (d.getDecodeExp - scaleIndex d s)) := by
    rw [← hunit, ← zpow_natCast, ← zpow_one_add₀ base_pos.ne', ← zpow_add₀ base_pos.ne']
    congr 1
    omega
  refine ⟨base ^ j * q, ?_⟩
  rw [scaleUnit_eq d s, hpow]
  push_cast
  ring

theorem Normal.exists_eq_mul_unit (h : x.Normal) (hk : x.d.len ≤ scaleIndex x.d s) :
    ∃ n : ℕ, |x.toRat| = n * (10 : ℚ) ^ (-s) := by
  obtain ⟨n, hn⟩ := exists_zpow_eq_mul_unit (d := x.d) (s := s)
    (show x.d.getDecodeExp - scaleIndex x.d s + 1 ≤ x.d.getDecodeExp - x.d.len + 1 by omega)
  refine ⟨ofDigitsBE base x.used * n, ?_⟩
  rw [abs_toRat h, magnitude, hn]
  push_cast
  ring

theorem Normal.abs_lt_of_neg (h : x.Normal) (hk : scaleIndex x.d s < 0) :
    |x.toRat| < (10 : ℚ) ^ (-s) / 2 := by
  have hbound := h.magnitude_bounds.2
  have hpow : (base : ℚ) ^ (x.d.getDecodeExp + 1) ≤
      (base : ℚ) ^ (x.d.getDecodeExp - scaleIndex x.d s) :=
    zpow_le_zpow_right₀ one_lt_base.le (by omega)
  have hp : (2 : ℚ) < scalePow s := by exact_mod_cast two_lt_scalePow s
  have hpos : (0 : ℚ) < (base : ℚ) ^ (x.d.getDecodeExp - scaleIndex x.d s) := zpow_pos base_pos _
  rw [abs_toRat h, scaleUnit_eq x.d s]
  nlinarith

/-- The number rounded to `s` decimals, by its digits up to the rounded one. -/
theorem Normal.roundHalfAway_eq (h : x.Normal) {k : ℕ} (hk : scaleIndex x.d s = k)
    (hlen : k < x.d.len) :
    roundHalfAway ((10 : ℚ) ^ (-s)) x.toRat = x.d.sign.toRat *
      (((ofDigitsBE base (x.used.take (k + 1)) + scalePow s / 2) / scalePow s * scalePow s : ℕ) *
        (base : ℚ) ^ (x.d.getDecodeExp - k)) := by
  have hfloor := h.floor_magnitude_take hlen
  rw [← abs_toRat h] at hfloor
  rw [scaleUnit_eq x.d s, hk, roundHalfAway_of_floor (scalePow_pos s) (scalePow_even s)
    (zpow_pos base_pos _) hfloor, sign_toRat h]

/-! ### The result -/

theorem take_succ_used {k : ℕ} (hlen : k < x.d.len) (hbuf : x.d.len ≤ x.digits.length) :
    x.used.take (k + 1) = x.digits.take k ++ [x.digits.getD k 0] := by
  rw [used, take_take, Nat.min_eq_left hlen, take_add_one,
    getD_eq_getElem?_getD, getElem?_eq_getElem (by omega)]
  rfl

theorem first_mem_used (hpos : 0 < x.d.len) (hbuf : x.d.len ≤ x.digits.length) :
    x.digits.getD 0 0 ∈ x.used := by
  have hmem : x.digits.getD 0 0 ∈ x.used.take (0 + 1) := by
    rw [take_succ_used hpos hbuf]
    exact mem_append_right _ (mem_singleton.mpr rfl)
  exact mem_of_mem_take hmem

/-- `set_one`. -/
theorem Normal.setOne_spec (h : x.Normal) :
    x.setOne.Canonical ∧ x.setOne.toRat = x.d.sign.toRat := by
  have hbuf := h.buffer
  have hpos := h.len_pos
  obtain ⟨c, cs, hcons⟩ := exists_cons_of_length_pos (show 0 < x.digits.length by omega)
  have hone : x.setOne = ⟨{ len := 1, exp := expZero, sign := x.d.sign }, [1] ++ cs⟩ := by
    unfold setOne
    rw [hcons]
    cases hs : x.d.sign <;> simp [ObNumberDesc.setSe, expZero]
  have hexp : (ObNumberDesc.mk 1 expZero x.d.sign).getDecodeExp = 0 := by
    cases x.d.sign <;> decide
  have hscaled := scaledTo_mk (d := ⟨1, expZero, x.d.sign⟩) [1] cs rfl (by decide) (by decide)
    (by decide) (by decide) (by decide) (show expZero < 128 by decide) (by rw [hexp]; decide)
  rw [hone]
  refine ⟨hscaled.1, hscaled.2.trans ?_⟩
  rw [hexp]
  simp

/-- The number is rounded in one of its digits. -/
theorem Normal.scaledTo_roundDigit (h : x.Normal) {k len powId : ℕ} (hk : scaleIndex x.d s = k)
    (hlen : k < x.d.len) (hpow : roundPows.getD powId 0 = scalePow s)
    (hkeep : len = k + 1 ∨ len = k ∧ scalePow s = base)
    (hroom : |roundHalfAway ((10 : ℚ) ^ (-s)) x.toRat| < (10 : ℚ) ^ (135 : ℤ)) :
    (roundDigit { x with d := { x.d with len := len } } k powId).Canonical ∧
      (roundDigit { x with d := { x.d with len := len } } k powId).toRat =
        roundHalfAway ((10 : ℚ) ^ (-s)) x.toRat := by
  have hbuf := h.buffer
  have htake := take_succ_used hlen hbuf
  have hlenTake : (x.digits.take k).length = k := by
    rw [length_take]
    omega
  have hdigits : x.digits = x.digits.take k ++ x.digits.getD k 0 :: x.digits.drop (k + 1) := by
    rw [getD_eq_getElem _ _ (by omega), getElem_cons_drop, take_append_drop]
  have hmax := h.len_le
  unfold maxStoreLen at hmax
  have hrounded : RoundedDigit { x.d with len := len } (x.digits.take k) (x.digits.getD k 0) powId
      (scalePow s) :=
    { length_le := by omega
      digit_lt := by
        rw [← htake]
        exact fun c hc => h.digit_lt (mem_of_mem_take hc)
      first := by
        obtain ⟨c, cs, hused, hc⟩ := h.head_used
        rw [← htake, hused]
        exact hc
      pow_eq := hpow
      pow_pos := scalePow_pos s
      pow_even := scalePow_even s
      pow_dvd := scalePow_dvd s
      len_eq := by rwa [hlenTake]
      exp_lt := h.exp_lt }
  have hvalue := h.roundHalfAway_eq hk hlen
  rw [htake] at hvalue
  have houtcome := hrounded.outcome (x.digits.drop (k + 1))
  rw [← hdigits, hlenTake] at houtcome
  have hscaled := houtcome.scaledTo h.exp_lt h.exp_range fun hcarry => by
    -- the rounded number is the power of the base above
    have hpower : ((base ^ (k + 1) : ℕ) : ℚ) * (base : ℚ) ^ (x.d.getDecodeExp - k) =
        (base : ℚ) ^ (x.d.getDecodeExp + 1) := by
      rw [Nat.cast_pow, ← zpow_natCast, ← zpow_add₀ base_pos.ne']
      congr 1
      push_cast
      ring
    rw [hvalue, hcarry, hpower, abs_sign_mul _ (zpow_pos base_pos _),
      show (135 : ℤ) = 9 * 15 from rfl, ← base_zpow] at hroom
    have hlt := (zpow_lt_zpow_iff_right₀ one_lt_base).mp hroom
    show x.d.getDecodeExp ≤ 13
    omega
  refine ⟨hscaled.1, hscaled.2.trans (Eq.trans ?_ hvalue.symm)⟩
  have hunit : ({ x.d with len := len } : ObNumberDesc).getDecodeExp - ((k + 1 : ℕ) : ℤ) + 1 =
      x.d.getDecodeExp - k := by
    show x.d.getDecodeExp - _ + 1 = _
    push_cast
    ring
  rw [hunit]

/-- **Rounding to a scale** is exact, as long as the result has room. -/
theorem Normal.roundScaleV3_exact (h : x.Normal)
    (hroom : |roundHalfAway ((10 : ℚ) ^ (-s)) x.toRat| < (10 : ℚ) ^ (135 : ℤ)) :
    (x.roundScaleV3 s false).Canonical ∧
      (x.roundScaleV3 s false).toRat = roundHalfAway ((10 : ℚ) ^ (-s)) x.toRat := by
  unfold roundScaleV3
  rw [if_neg (by rw [h.isZero_eq]; decide)]
  rcases lt_or_ge (scaleIndex x.d s) 0 with hneg | hnonneg
  · rw [roundAction_of_neg h.len_pos hneg, roundHalfAway_of_lt_half (h.abs_lt_of_neg hneg)]
    exact ⟨.inl rfl, Canonical.toRat_of_zero rfl⟩
  obtain ⟨k, hk⟩ := Int.eq_ofNat_of_zero_le hnonneg
  rcases Nat.lt_or_ge k x.d.len with hlen | hlen
  · rcases roundAction_of_mem hk hlen with ⟨rfl, rfl, haction⟩ | ⟨len, powId, haction, hpow, hkeep⟩
    · have hexp : x.d.getDecodeExp = -1 := by
        unfold scaleIndex at hk
        omega
      have hvalue := h.roundHalfAway_eq hk hlen
      rw [take_succ_used hlen h.buffer, take_zero, nil_append, ofDigitsBE_singleton,
        show scalePow 0 = base from rfl, mul_div_add_half (by decide) (by decide), hexp,
        Nat.mod_eq_of_lt (h.digit_lt (first_mem_used h.len_pos h.buffer))] at hvalue
      rw [haction, hvalue]
      by_cases hhalf : x.digits.getD 0 0 ≥ base / 2
      · have hlt := h.digit_lt (first_mem_used h.len_pos h.buffer)
        have hsum : x.digits.getD 0 0 + (base - x.digits.getD 0 0) = base := by omega
        have hunit : (base : ℚ) * (base : ℚ) ^ (-1 - ((0 : ℕ) : ℤ)) = 1 := by
          rw [Nat.cast_zero, sub_zero, zpow_neg_one, mul_inv_cancel₀ base_pos.ne']
        rw [if_pos hhalf, if_pos hhalf, hsum, hunit, mul_one]
        exact h.setOne_spec
      · rw [if_neg hhalf, if_neg hhalf, Nat.sub_self]
        refine ⟨.inl rfl, ?_⟩
        rw [Canonical.toRat_of_zero rfl]
        simp
    · rw [haction]
      exact h.scaledTo_roundDigit hk hlen hpow hkeep hroom
  · rw [roundAction_of_len_le h.len_pos (by omega)]
    obtain ⟨n, hn⟩ := h.exists_eq_mul_unit (s := s) (by omega)
    rw [roundHalfAway_of_eq_mul (zpow_pos (by norm_num) _) hn]
    exact ⟨.inr h, rfl⟩

end ObNumber

end Andl.Number
