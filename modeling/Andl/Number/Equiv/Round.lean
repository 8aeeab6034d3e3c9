import Andl.Number.Equiv.RoundDigit

/-!
# Correctness of rounding
-/

namespace Andl.Number

open List

/-- The unit to which `v` is rounded. -/
noncomputable def roundingUnit (v : ℚ) : ℚ :=
  if 1 ≤ |v| then (10 : ℚ) ^ (Int.log 10 |v| + 1 - floatingScale)
  else (base : ℚ) ^ (Int.log base |v| + 1) * (10 : ℚ) ^ (-(floatingScale : ℤ))

/-- `v`, rounded half away from zero to 72 significant digits if it is at least one, and to 72
decimals after the leading groups of nine zeros otherwise. -/
noncomputable def rounded (v : ℚ) : ℚ := roundHalfAway (roundingUnit v) v

namespace ObNumber

/-! ### The unit -/

theorem getDigitLenV2_bounds {d : ℕ} (hpos : 0 < d) (hlt : d < base) :
    0 < getDigitLenV2 d ∧ getDigitLenV2 d ≤ 9 ∧ 10 ^ (getDigitLenV2 d - 1) ≤ d ∧
      d < 10 ^ getDigitLenV2 d := by
  unfold getDigitLenV2 base at *
  split_ifs <;> norm_num <;> omega

/-- The unit in the ninth digit, by the first digit and the exponent. -/
def ninthUnit (c : ℕ) (e : ℤ) : ℕ := if 0 ≤ e then 10 ^ getDigitLenV2 c else base

variable {c : ℕ} {e : ℤ} {cs ds : List ℕ}

theorem ninthUnit_spec (hpos : 0 < c) (hlt : c < base) (e : ℤ) :
    0 < ninthUnit c e ∧ Even (ninthUnit c e) ∧ ninthUnit c e ∣ base := by
  obtain ⟨hlen, hle, -, -⟩ := getDigitLenV2_bounds hpos hlt
  unfold ninthUnit
  split_ifs
  · refine ⟨by positivity, ?_, ?_⟩
    · exact Even.pow_of_ne_zero (by decide) (by omega)
    · rw [show base = 10 ^ 9 from rfl]
      exact pow_dvd_pow 10 hle
  · exact ⟨by decide, by decide, dvd_refl _⟩

theorem base_eq_zpow : (base : ℚ) = (10 : ℚ) ^ (9 : ℤ) := by norm_num [base]

theorem base_zpow (e : ℤ) : (base : ℚ) ^ e = (10 : ℚ) ^ (9 * e) := by
  rw [base_eq_zpow, zpow_mul]

theorem log_eq_of_bounds {m : ℚ} (hlow : (base : ℚ) ^ e ≤ m) (hhigh : m < (base : ℚ) ^ (e + 1)) :
    Int.log base m = e := by
  have hpos : 0 < m := (zpow_pos base_pos e).trans_le hlow
  apply le_antisymm
  · apply Int.lt_add_one_iff.mp
    exact (Int.lt_zpow_iff_log_lt (by decide) hpos).mp hhigh
  · exact (Int.zpow_le_iff_le_log (by decide) hpos).mp hlow

/-- **The unit** is a power of ten in the ninth digit. -/
theorem roundingUnit_eq {v : ℚ} (hpos : 0 < c) (hlt : c < base) (hlow : c * (base : ℚ) ^ e ≤ |v|)
    (hhigh : |v| < (c + 1) * (base : ℚ) ^ e) :
    roundingUnit v = ninthUnit c e * (base : ℚ) ^ (e - 8) := by
  obtain ⟨hlen, -, hclow, hchigh⟩ := getDigitLenV2_bounds hpos hlt
  have hpow : (0 : ℚ) < (base : ℚ) ^ e := zpow_pos base_pos _
  have hc1 : (1 : ℚ) ≤ c := by exact_mod_cast hpos
  have hcb : (c : ℚ) + 1 ≤ base := by exact_mod_cast hlt
  have hvpos : 0 < |v| := lt_of_lt_of_le (mul_pos (by linarith) hpow) hlow
  unfold roundingUnit ninthUnit
  by_cases he : 0 ≤ e
  · have hone : (1 : ℚ) ≤ (base : ℚ) ^ e := one_le_zpow₀ one_lt_base.le he
    have hv : 1 ≤ |v| := by nlinarith
    set k := getDigitLenV2 c
    have hlog : Int.log 10 |v| = 9 * e + k - 1 := by
      apply le_antisymm
      · apply Int.lt_add_one_iff.mp
        apply (Int.lt_zpow_iff_log_lt (by decide) hvpos).mp
        have hcq : (c : ℚ) + 1 ≤ 10 ^ k := by exact_mod_cast hchigh
        calc |v| < (c + 1) * (base : ℚ) ^ e := hhigh
          _ ≤ 10 ^ k * (base : ℚ) ^ e := by gcongr
          _ = ((10 : ℕ) : ℚ) ^ (9 * e + k - 1 + 1) := by
            rw [base_zpow, ← zpow_natCast, ← zpow_add₀ (by norm_num)]
            push_cast
            congr 1
            ring
      · apply (Int.zpow_le_iff_le_log (by decide) hvpos).mp
        have hcq : (10 : ℚ) ^ (k - 1) ≤ c := by exact_mod_cast hclow
        calc ((10 : ℕ) : ℚ) ^ (9 * e + k - 1) = 10 ^ (k - 1) * (base : ℚ) ^ e := by
              rw [base_zpow, ← zpow_natCast, ← zpow_add₀ (by norm_num)]
              push_cast
              congr 1
              omega
          _ ≤ c * (base : ℚ) ^ e := by gcongr
          _ ≤ |v| := hlow
    rw [if_pos hv, if_pos he, hlog, base_zpow]
    push_cast
    rw [← zpow_natCast, ← zpow_add₀ (by norm_num)]
    congr 1
    unfold floatingScale
    push_cast
    ring
  · have hone : (base : ℚ) ^ (e + 1) ≤ 1 := zpow_le_one_of_nonpos₀ one_lt_base.le (by omega)
    have hsucc : (base : ℚ) ^ (e + 1) = base * (base : ℚ) ^ e := by
      rw [zpow_add_one₀ base_pos.ne', mul_comm]
    have hbound : |v| < (base : ℚ) ^ (e + 1) := by
      rw [hsucc]
      exact hhigh.trans_le (by gcongr)
    have hlog : Int.log base |v| = e := log_eq_of_bounds (by nlinarith) hbound
    rw [if_neg (by linarith), if_neg he, hlog, ← zpow_one_add₀ base_pos.ne', base_zpow, base_zpow,
      ← zpow_add₀ (by norm_num)]
    congr 1
    unfold floatingScale
    push_cast
    ring

/-- **The rounded value**, by the nine leading digits and the exponent. -/
theorem rounded_of_floor {v : ℚ} (hpos : 0 < c) (hcs : cs.length = 8)
    (hlt : ∀ a ∈ c :: cs, a < base)
    (hfloor : ⌊|v| / (base : ℚ) ^ (e - 8)⌋ = ofDigitsBE base (c :: cs)) :
    rounded v = (SignType.sign v : ℤ) *
      (((ofDigitsBE base (c :: cs) + ninthUnit c e / 2) / ninthUnit c e * ninthUnit c e : ℕ) *
        (base : ℚ) ^ (e - 8)) := by
  have hclt : c < base := hlt c mem_cons_self
  obtain ⟨hunitpos, heven, -⟩ := ninthUnit_spec hpos hclt e
  have hw : (0 : ℚ) < (base : ℚ) ^ (e - 8) := zpow_pos base_pos _
  obtain ⟨hlow, hhigh⟩ := Int.floor_eq_iff.mp hfloor
  rw [le_div_iff₀ hw] at hlow
  rw [div_lt_iff₀ hw] at hhigh
  have hsplit : (base : ℚ) ^ e = (base : ℚ) ^ 8 * (base : ℚ) ^ (e - 8) := by
    rw [← zpow_natCast, ← zpow_add₀ base_pos.ne']
    congr 1
    push_cast
    ring
  have hval : ofDigitsBE base (c :: cs) = c * base ^ 8 + ofDigitsBE base cs := by
    rw [ofDigitsBE_cons, hcs]
  have htail : ofDigitsBE base cs + 1 ≤ base ^ 8 := by
    rw [← hcs]
    exact ofDigitsBE_lt (by decide) fun a ha => hlt a (mem_cons_of_mem _ ha)
  have hunit : roundingUnit v = ninthUnit c e * (base : ℚ) ^ (e - 8) := by
    apply roundingUnit_eq hpos hclt
    · have hcast : (c : ℚ) * (base : ℚ) ^ 8 ≤ ((ofDigitsBE base (c :: cs) : ℕ) : ℤ) := by
        rw [hval]
        push_cast
        linarith [(Nat.cast_nonneg (ofDigitsBE base cs) : (0 : ℚ) ≤ _)]
      rw [hsplit, ← mul_assoc]
      exact (mul_le_mul_of_nonneg_right hcast hw.le).trans hlow
    · have hcast : (((ofDigitsBE base (c :: cs) : ℕ) : ℤ) : ℚ) + 1 ≤
          ((c : ℚ) + 1) * (base : ℚ) ^ 8 := by
        rw [hval]
        have hq : ((ofDigitsBE base cs : ℕ) : ℚ) + 1 ≤ (base : ℚ) ^ 8 := by exact_mod_cast htail
        push_cast
        linarith
      rw [hsplit, ← mul_assoc]
      exact hhigh.trans_le (mul_le_mul_of_nonneg_right hcast hw.le)
  rw [rounded, hunit, roundHalfAway_of_floor hunitpos heven hw hfloor]

/-! ### The digit that is rounded -/

variable {x : ObNumber}

/-- Eight digits are not rounded. -/
theorem roundAction_of_le (hpos : 0 < x.d.len) (hlen : x.d.len ≤ 8) (hfirst : 0 < x.digits.getD 0 0)
    (hlt : x.digits.getD 0 0 < base) : roundAction x floatingScale true = .keep := by
  obtain ⟨hd0, hd9, -, -⟩ := getDigitLenV2_bounds hfirst hlt
  unfold roundAction floatingScale digitLen
  generalize getDigitLenV2 (x.digits.getD 0 0) = k at hd0 hd9
  generalize x.d.getDecodeExp = e
  simp only [Bool.true_eq_false, and_false, if_false, true_and, add_zero]
  by_cases he : 0 ≤ e
  · simp only [ge_iff_le, he, if_true]
    by_cases hdec : (x.d.len : ℤ) > e + 1
    · simp only [hdec, if_true]
      split_ifs <;> first | rfl | omega
    · simp only [hdec, if_false]
      split_ifs <;> first | rfl | omega
  · simp only [ge_iff_le, he, if_false]
    split_ifs <;> first | rfl | omega

/-- With nine digits or more, the ninth is rounded. -/
theorem roundAction_of_lt (hlen : 8 < x.d.len) (hfirst : 0 < x.digits.getD 0 0)
    (hlt : x.digits.getD 0 0 < base) :
    ∃ len powId, roundAction x floatingScale true = .digit len 8 powId ∧
      roundPows.getD powId 0 = ninthUnit (x.digits.getD 0 0) x.d.getDecodeExp ∧
      (len = 9 ∨ len = 8 ∧ roundPows.getD powId 0 = base) := by
  obtain ⟨hd0, hd9, -, -⟩ := getDigitLenV2_bounds hfirst hlt
  unfold roundAction floatingScale digitLen ninthUnit
  generalize getDigitLenV2 (x.digits.getD 0 0) = k at hd0 hd9
  generalize x.d.getDecodeExp = e
  simp only [Bool.true_eq_false, and_false, if_false, true_and, add_zero]
  by_cases he : 0 ≤ e
  · simp only [ge_iff_le, he, if_true]
    have hpow : roundPows.getD (9 - k) 0 = 10 ^ k := by interval_cases k <;> rfl
    have hint : e + 1 > 0 := by omega
    rcases lt_trichotomy (9 * e + k) 72 with hlt | heq | hgt
    · have hdec : (x.d.len : ℤ) > e + 1 := by omega
      simp only [hdec, hint, if_true, gt_iff_lt]
      refine ⟨9, 9 - k, ?_, hpow, .inl rfl⟩
      rw [if_pos (by omega), if_neg (by omega), if_neg (by omega), RoundAction.digit.injEq]
      omega
    · -- the integer part has exactly 72 digits
      obtain ⟨rfl, rfl⟩ : k = 9 ∧ e = 7 := by omega
      have hdec : (x.d.len : ℤ) > 7 + 1 := by omega
      simp only [hdec, if_true, gt_iff_lt]
      refine ⟨8, 0, ?_, rfl, .inr ⟨rfl, rfl⟩⟩
      rw [if_neg (by norm_num), if_neg (by norm_num), if_neg (by omega), if_pos (by norm_num)]
      rfl
    · have hvalid : (if (x.d.len : ℤ) > e + 1 then e + 1 else (x.d.len : ℤ)) > 0 := by
        split_ifs <;> omega
      have hnine : 9 ≤ (if (x.d.len : ℤ) > e + 1 then e + 1 else (x.d.len : ℤ)) := by
        split_ifs <;> omega
      refine ⟨9, if k = 9 then 9 else 9 - k, ?_, ?_, .inl rfl⟩
      · generalize (if (x.d.len : ℤ) > e + 1 then e + 1 else (x.d.len : ℤ)) = valid at hvalid hnine
        generalize (if (x.d.len : ℤ) > e + 1 then (x.d.len : ℤ) - (e + 1) else 0) = decimal
        simp only [hvalid, if_true, gt_iff_lt]
        rw [if_neg (by omega), if_pos (by omega), if_neg, if_neg]
        · rw [RoundAction.digit.injEq]
          split_ifs <;> omega
        · split_ifs <;> omega
        · split_ifs <;> omega
      · split_ifs with hk
        · rw [hk]
          rfl
        · exact hpow
  · simp only [ge_iff_le, he, if_false]
    have hdec : (x.d.len : ℤ) > 0 := by omega
    simp only [hdec, if_true, gt_iff_lt, lt_self_iff_false, if_false, sub_zero]
    refine ⟨9, 0, ?_, rfl, .inl rfl⟩
    rw [if_pos (by norm_num), if_neg (by omega), if_neg (by simp), RoundAction.digit.injEq]
    omega

/-! ### Rounding a result -/

theorem roundResult_ok (x : ObNumber) :
    roundResult true (.ok x) =
      .ok (if 8 ≤ x.d.len then x.roundScaleV3 floatingScale true else x) := by
  have hneed : x.needRoundAfterArithmetic = decide (8 ≤ x.d.len) := rfl
  by_cases h : 8 ≤ x.d.len
  · simp [roundResult, hneed, h, bind, Except.bind, pure, Except.pure]
  · simp [roundResult, hneed, h, bind, Except.bind, pure, Except.pure]

/-- The first nine of the digits `ds`, with zeros after the last one. -/
def firstNine (ds : List ℕ) : List ℕ := (ds ++ List.replicate 8 0).take 9

/-- A result that has the sign, the exponent and the nine leading digits of `v`. -/
structure LeadingDigits (x : ObNumber) (v : ℚ) : Prop where
  len_pos : 0 < x.d.len
  len_le : x.d.len ≤ 10
  buffer : x.d.len ≤ x.digits.length
  digit_lt : ∀ c ∈ x.used, c < base
  first : x.digits.getD 0 0 ≠ 0
  last : x.d.len ≤ 8 → x.digits.getD (x.d.len - 1) 0 ≠ 0
  exp_lt : x.d.exp < 128
  sign_eq : x.d.sign.toRat = (SignType.sign v : ℤ)
  floor_eq : ⌊|v| / (base : ℚ) ^ (x.d.getDecodeExp - 8)⌋ = ofDigitsBE base (firstNine x.used)

/-- The exponent is in range, also if rounding carries. -/
structure Leading (x : ObNumber) (v : ℚ) : Prop extends LeadingDigits x v where
  exp_range : -15 ≤ x.d.getDecodeExp ∧ x.d.getDecodeExp ≤ 13

/-- The nine leading digits of `x` as one integer, rounded. -/
def roundedNine (x : ObNumber) : ℕ :=
  (ofDigitsBE base (firstNine x.used) + ninthUnit (x.digits.getD 0 0) x.d.getDecodeExp / 2) /
    ninthUnit (x.digits.getD 0 0) x.d.getDecodeExp *
      ninthUnit (x.digits.getD 0 0) x.d.getDecodeExp

namespace LeadingDigits

variable {v : ℚ}

section

variable (h : LeadingDigits x v)
include h

theorem exists_cons :
    ∃ c cs, firstNine x.used = c :: cs ∧ cs.length = 8 ∧ c = x.digits.getD 0 0 := by
  have hlen := length_used h.buffer
  have hpos := h.len_pos
  obtain ⟨c, cs, hused⟩ := exists_cons_of_length_pos (show 0 < x.used.length by omega)
  refine ⟨c, (cs ++ List.replicate 8 0).take 8, ?_, ?_, ?_⟩
  · rw [firstNine, hused, cons_append, take_succ_cons]
  · rw [length_take, length_append, length_replicate]
    omega
  · rw [used] at hused
    cases hd : x.digits with
    | nil => simp [hd] at hused
    | cons e es =>
      obtain ⟨n, hn⟩ := Nat.exists_eq_succ_of_ne_zero hpos.ne'
      rw [hd, hn, take_succ_cons] at hused
      simpa using (List.cons.inj hused).1.symm

theorem nine_lt : ∀ c ∈ firstNine x.used, c < base := by
  intro c hc
  rcases mem_append.mp (mem_of_mem_take hc) with hc | hc
  · exact h.digit_lt c hc
  · rw [eq_of_mem_replicate hc]
    decide

theorem first_lt : x.digits.getD 0 0 < base := by
  obtain ⟨c, cs, hnine, -, rfl⟩ := h.exists_cons
  exact h.nine_lt _ (by simp [hnine])

/-- **The rounded value**, by the nine leading digits. -/
theorem rounded_eq :
    rounded v = x.d.sign.toRat * (x.roundedNine * (base : ℚ) ^ (x.d.getDecodeExp - 8)) := by
  obtain ⟨c, cs, hnine, hcs, hc⟩ := h.exists_cons
  have hfloor := h.floor_eq
  have hlt := h.nine_lt
  rw [hnine] at hfloor hlt
  rw [roundedNine, hnine, ← hc, h.sign_eq]
  exact rounded_of_floor (Nat.pos_of_ne_zero (hc ▸ h.first)) hcs hlt hfloor

/-- Up to eight digits there is nothing to round. -/
theorem outcome_of_le (hlen : x.d.len ≤ 8) : RoundOutcome x.d 9 x.roundedNine x := by
  have hfirst : 0 < x.digits.getD 0 0 := Nat.pos_of_ne_zero h.first
  obtain ⟨hpos, heven, hdvd⟩ := ninthUnit_spec hfirst h.first_lt x.d.getDecodeExp
  have hused := length_used h.buffer
  have hnine : firstNine x.used = x.used ++ List.replicate (9 - x.d.len) 0 := by
    rw [firstNine, take_append, hused, take_of_length_le (by omega),
      take_replicate]
    congr 2
    have := h.len_pos
    omega
  have hval : ofDigitsBE base (firstNine x.used) =
      ofDigitsBE base x.used * base ^ (9 - x.d.len) := by
    rw [hnine, ofDigitsBE_append, ofDigitsBE_replicate_zero, length_replicate, add_zero]
  -- the last digit is zero, so the digits are a multiple of the unit
  have hmod : ofDigitsBE base (firstNine x.used) %
      ninthUnit (x.digits.getD 0 0) x.d.getDecodeExp = 0 := by
    apply Nat.mod_eq_zero_of_dvd
    rw [hval]
    apply Dvd.dvd.mul_left
    exact hdvd.trans (dvd_pow_self base (by omega))
  have hsame : x.roundedNine = ofDigitsBE base (firstNine x.used) := by
    rw [roundedNine, mul_div_add_half hpos heven, hmod, if_neg, Nat.sub_zero]
    obtain ⟨k, hk⟩ := heven
    omega
  have hlength : (firstNine x.used).length = 9 := by
    rw [hnine, length_append, length_replicate, hused]
    omega
  refine .keep ?_ ⟨h.len_pos, ?_, h.buffer, fun hc => h.digit_lt _ hc, h.first, h.last hlen,
    h.exp_lt⟩ rfl (by omega) (hsame.trans hval)
  · rw [hsame, ← hlength]
    exact ofDigitsBE_lt (by decide) h.nine_lt
  · unfold maxStoreLen
    omega

/-- Nine digits or ten are rounded. -/
theorem outcome_of_lt (hlen : 8 < x.d.len) :
    RoundOutcome x.d 9 x.roundedNine (x.roundScaleV3 floatingScale true) := by
  have hfirst : 0 < x.digits.getD 0 0 := Nat.pos_of_ne_zero h.first
  obtain ⟨hpos, heven, hdvd⟩ := ninthUnit_spec hfirst h.first_lt x.d.getDecodeExp
  obtain ⟨len, powId, haction, hpow, hkeep⟩ := roundAction_of_lt hlen hfirst h.first_lt
  have hbuf := h.buffer
  -- the first eight digits, the ninth, and what is dropped
  obtain ⟨a, rest, hdrop⟩ := exists_cons_of_length_pos
    (show 0 < (x.digits.drop 8).length by rw [length_drop]; omega)
  have hdigits : x.digits = x.digits.take 8 ++ a :: rest := by rw [← hdrop, take_append_drop]
  have has : (x.digits.take 8).length = 8 := by
    rw [length_take]
    omega
  have hnine : firstNine x.used = x.digits.take 8 ++ [a] := by
    have htake : x.used.take 9 = x.digits.take 9 := by
      rw [used, take_take, Nat.min_eq_left (by omega)]
    rw [firstNine, take_append_of_le_length (by rw [length_used hbuf]; omega), htake]
    conv_lhs => rw [hdigits]
    rw [take_append, has, take_of_length_le (by rw [has]; decide)]
    rfl
  have hninth : RoundedDigit { x.d with len := len } (x.digits.take 8) a powId
      (ninthUnit (x.digits.getD 0 0) x.d.getDecodeExp) :=
    { length_le := has.le
      digit_lt := by
        rw [← hnine]
        exact h.nine_lt
      first := by
        have hfirst := h.first
        rw [hdigits, getD_append _ _ _ _ (by rw [has]; decide)] at hfirst
        rwa [getD_append _ _ _ _ (by rw [has]; decide)]
      pow_eq := hpow
      pow_pos := hpos
      pow_even := heven
      pow_dvd := hdvd
      len_eq := by
        rw [← hpow, has]
        exact hkeep
      exp_lt := h.exp_lt }
  have houtcome := hninth.outcome rest
  rw [← hdigits, ← hnine, has] at houtcome
  have heq : x.roundScaleV3 floatingScale true =
      roundDigit ⟨{ x.d with len := len }, x.digits⟩ 8 powId := by
    unfold roundScaleV3
    rw [if_neg (by simp [isZero]; omega), haction]
  rw [heq]
  exact houtcome.congr_len

theorem roundScaleV3_of_le (hlen : x.d.len ≤ 8) : x.roundScaleV3 floatingScale true = x := by
  unfold roundScaleV3
  rw [roundAction_of_le h.len_pos hlen (Nat.pos_of_ne_zero h.first) h.first_lt, ite_self]

/-- **Rounding to 72 digits** looks at the nine leading digits, whatever the exponent. -/
theorem outcome : RoundOutcome x.d 9 x.roundedNine (x.roundScaleV3 floatingScale true) := by
  rcases Nat.lt_or_ge 8 x.d.len with hlt | hle
  · exact h.outcome_of_lt hlt
  · rw [h.roundScaleV3_of_le hle]
    exact h.outcome_of_le hle

theorem len_roundScaleV3_le : (x.roundScaleV3 floatingScale true).d.len ≤ x.d.len := by
  rcases Nat.lt_or_ge 8 x.d.len with hlt | hle
  · rcases h.outcome_of_lt hlt with ⟨-, hr⟩ | ⟨-, -, -, hlen, -⟩ | ⟨-, -, hr, -⟩
    · rw [hr]
      exact Nat.zero_le _
    · omega
    · rw [hr]
      exact h.len_pos
  · rw [h.roundScaleV3_of_le hle]

end

end LeadingDigits

/-- **Every result is rounded correctly**, if its nine leading digits are right. -/
theorem Leading.roundResult_eq {v : ℚ} (h : Leading x v) :
    ∃ r, roundResult true (.ok x) = .ok r ∧ r.Canonical ∧ r.toRat = rounded v := by
  have hscaled (r : ObNumber) (hr : RoundOutcome x.d 9 x.roundedNine r) :
      r.Canonical ∧ r.toRat = rounded v := by
    obtain ⟨hcanonical, hval⟩ := hr.scaledTo h.exp_lt
      ⟨h.exp_range.1, h.exp_range.2.trans (by decide)⟩ fun _ => h.exp_range.2
    refine ⟨hcanonical, hval.trans ?_⟩
    rw [h.rounded_eq]
    congr 3
    push_cast
    ring
  rw [roundResult_ok]
  rcases Nat.lt_or_ge x.d.len 8 with hlt | hle
  · exact ⟨x, by rw [if_neg (by omega)], hscaled x (h.outcome_of_le hlt.le)⟩
  · exact ⟨_, by rw [if_pos hle], hscaled _ h.outcome⟩

/-! ### Results in range -/

/-- The exact results for which the operations are correct. -/
def InRange (v : ℚ) : Prop := (10 : ℚ) ^ (-126 : ℤ) ≤ |v| ∧ |v| < (10 : ℚ) ^ (126 : ℤ)

theorem InRange.exp {v : ℚ} (h : InRange v) {n : ℕ} (hfloor : ⌊|v| / (base : ℚ) ^ (e - 8)⌋ = n)
    (hlow : base ^ 8 ≤ n) (hhigh : n < base ^ 9) : -14 ≤ e ∧ e ≤ 13 := by
  have hw : (0 : ℚ) < (base : ℚ) ^ (e - 8) := zpow_pos base_pos _
  obtain ⟨hle, hlt⟩ := Int.floor_eq_iff.mp hfloor
  rw [le_div_iff₀ hw] at hle
  rw [div_lt_iff₀ hw] at hlt
  have hten (k : ℤ) : (10 : ℚ) ^ (9 * k) = (base : ℚ) ^ k := (base_zpow k).symm
  constructor
  · have hq : ((n : ℤ) : ℚ) + 1 ≤ (base : ℚ) ^ 9 := by exact_mod_cast hhigh
    have hbound : (base : ℚ) ^ (-14 : ℤ) < (base : ℚ) ^ (e + 1) := by
      calc (base : ℚ) ^ (-14 : ℤ) = (10 : ℚ) ^ (-126 : ℤ) := (hten (-14)).symm
        _ ≤ |v| := h.1
        _ < ((n : ℤ) + 1) * (base : ℚ) ^ (e - 8) := hlt
        _ ≤ (base : ℚ) ^ 9 * (base : ℚ) ^ (e - 8) := mul_le_mul_of_nonneg_right hq hw.le
        _ = (base : ℚ) ^ (e + 1) := by
          rw [← zpow_natCast, ← zpow_add₀ base_pos.ne']
          congr 1
          push_cast
          ring
    have := (zpow_lt_zpow_iff_right₀ one_lt_base).mp hbound
    omega
  · have hq : (base : ℚ) ^ 8 ≤ ((n : ℤ) : ℚ) := by exact_mod_cast hlow
    have hbound : (base : ℚ) ^ e < (base : ℚ) ^ (14 : ℤ) := by
      calc (base : ℚ) ^ e = (base : ℚ) ^ 8 * (base : ℚ) ^ (e - 8) := by
            rw [← zpow_natCast, ← zpow_add₀ base_pos.ne']
            congr 1
            push_cast
            ring
        _ ≤ (n : ℤ) * (base : ℚ) ^ (e - 8) := mul_le_mul_of_nonneg_right hq hw.le
        _ ≤ |v| := hle
        _ < (10 : ℚ) ^ (126 : ℤ) := h.2
        _ = (base : ℚ) ^ (14 : ℤ) := hten 14
    have := (zpow_lt_zpow_iff_right₀ one_lt_base).mp hbound
    omega

theorem firstNine_append_zeros (hne : ds ≠ []) (n : ℕ) :
    firstNine (ds ++ List.replicate n 0) = firstNine ds := by
  have hpos : 0 < ds.length := length_pos_iff.mpr hne
  unfold firstNine
  rw [append_assoc, replicate_append_replicate, take_append, take_append,
    take_replicate, take_replicate]
  congr 2
  omega

theorem firstNine_rdropWhile (hne : ds.rdropWhile (· == 0) ≠ []) :
    firstNine (ds.rdropWhile (· == 0)) = firstNine ds := by
  conv_rhs => rw [← rdropWhile_append_zeros ds]
  exact (firstNine_append_zeros hne _).symm

theorem firstNine_take (ds : List ℕ) : firstNine (ds.take 9) = firstNine ds := by
  unfold firstNine
  rw [take_append, take_append, take_take, length_take, Nat.min_self]
  congr 2
  omega

theorem firstNine_of_le (h : 9 ≤ ds.length) : firstNine ds = ds.take 9 := by
  rw [firstNine, take_append_of_le_length h]

theorem firstNine_of_lt (hpos : 0 < ds.length) (h : ds.length < 9) :
    firstNine ds = ds ++ List.replicate (9 - ds.length) 0 := by
  rw [firstNine, take_append, take_of_length_le h.le, take_replicate]
  congr 2
  omega

theorem floor_firstNine {m : ℚ} {n : ℕ} (hlen : ds.length = n + 1) (hlt : ∀ a ∈ ds, a < base)
    (hfloor : ⌊m / (base : ℚ) ^ (e - n)⌋ = ofDigitsBE base ds)
    (hexact : n < 8 → m = ofDigitsBE base ds * (base : ℚ) ^ (e - n)) :
    ⌊m / (base : ℚ) ^ (e - 8)⌋ = ofDigitsBE base (firstNine ds) := by
  rcases Nat.lt_or_ge n 8 with hn | hn
  · have hw : (base : ℚ) ^ (e - 8) ≠ 0 := (zpow_pos base_pos _).ne'
    have hpow : (base : ℚ) ^ (e - n) = ((base ^ (8 - n) : ℕ) : ℚ) * (base : ℚ) ^ (e - 8) := by
      push_cast
      rw [← zpow_natCast, ← zpow_add₀ base_pos.ne']
      congr 1
      omega
    rw [firstNine_of_lt (by omega) (by omega), ofDigitsBE_append, ofDigitsBE_replicate_zero,
      length_replicate, add_zero, hexact hn, hpow, ← mul_assoc, mul_div_cancel_right₀ _ hw,
      hlen, show 9 - (n + 1) = 8 - n by omega]
    exact_mod_cast Int.floor_natCast (R := ℚ) (ofDigitsBE base ds * base ^ (8 - n))
  · have hpow : m / (base : ℚ) ^ (e - 8) =
        m / (base : ℚ) ^ (e - n) / ((base ^ (n - 8) : ℕ) : ℚ) := by
      push_cast
      rw [div_div, ← zpow_natCast, ← zpow_add₀ base_pos.ne']
      congr 2
      omega
    have hdrop : (ds.drop 9).length = n - 8 := by
      rw [length_drop]
      omega
    have htail : ofDigitsBE base (ds.drop 9) < base ^ (n - 8) := by
      rw [← hdrop]
      exact ofDigitsBE_lt (by decide) fun a ha => hlt a (mem_of_mem_drop ha)
    have hsplit : ofDigitsBE base ds =
        ofDigitsBE base (ds.take 9) * base ^ (n - 8) + ofDigitsBE base (ds.drop 9) := by
      rw [← hdrop, ← ofDigitsBE_append, take_append_drop]
    rw [hpow, Int.floor_div_natCast, hfloor, firstNine_of_le (by omega), hsplit, ← Int.natCast_div,
      mul_comm, Nat.mul_add_div (Nat.pow_pos (by decide)), Nat.div_eq_of_lt htail, add_zero]

/-- A number with a non-zero first digit has nine leading digits. -/
theorem firstNine_bounds (hc : c ≠ 0) (hlt : ∀ a ∈ c :: cs, a < base) :
    base ^ 8 ≤ ofDigitsBE base (firstNine (c :: cs)) ∧
      ofDigitsBE base (firstNine (c :: cs)) < base ^ 9 := by
  have hnine : firstNine (c :: cs) = c :: (cs ++ List.replicate 8 0).take 8 := rfl
  have hlen : ((cs ++ List.replicate 8 0).take 8).length = 8 := by
    rw [length_take, length_append, length_replicate]
    omega
  constructor
  · have hle : base ^ ((cs ++ List.replicate 8 0).take 8).length ≤
        ofDigitsBE base (c :: (cs ++ List.replicate 8 0).take 8) := pow_le_ofDigitsBE hc
    rwa [hlen] at hle
  · have hdigit : ∀ a ∈ firstNine (c :: cs), a < base := by
      intro a ha
      rcases mem_append.mp (mem_of_mem_take ha) with ha | ha
      · exact hlt a ha
      · rw [eq_of_mem_replicate ha]
        decide
    have hbound := ofDigitsBE_lt (b := base) (by decide) hdigit
    rwa [show (firstNine (c :: cs)).length = 9 by rw [hnine, length_cons, hlen]] at hbound

/-- **What an operation returns**, from the nine leading digits of its exact result. -/
theorem roundResult_assign {d : ObNumberDesc} {v : ℚ} (hv : InRange v) (hc : c ≠ 0)
    (hlt : ∀ a ∈ c :: cs, a < base) (hlen : (c :: cs).length ≤ 10)
    (hlast : (c :: cs).length ≤ 8 → (c :: cs).getLast (cons_ne_nil c cs) ≠ 0)
    (hsign : d.sign.toRat = (SignType.sign v : ℤ))
    (hfloor : ⌊|v| / (base : ℚ) ^ (e - 8)⌋ = ofDigitsBE base (firstNine (c :: cs))) :
    ∃ r, roundResult true
        (assignChecked (d.calcDescAndCheck e (c :: cs).length false) (c :: cs)) = .ok r ∧
      r.Canonical ∧ r.toRat = rounded v := by
  obtain ⟨hbound, hbound'⟩ := firstNine_bounds hc hlt
  obtain ⟨hlow, hhigh⟩ := hv.exp hfloor hbound hbound'
  have hexp : (d.calcDesc e (c :: cs).length).getDecodeExp = e :=
    ObNumberDesc.getDecodeExp_calcDesc (by omega) (by omega)
  have hused : used ⟨d.calcDesc e (c :: cs).length, c :: cs⟩ = c :: cs :=
    take_of_length_le (le_refl _)
  have hlead : Leading ⟨d.calcDesc e (c :: cs).length, c :: cs⟩ v :=
    { len_pos := Nat.succ_pos _
      len_le := hlen
      buffer := le_refl _
      digit_lt := by
        rw [hused]
        exact hlt
      first := hc
      last := by
        intro hle
        show (c :: cs).getD ((c :: cs).length - 1) 0 ≠ 0
        have hlast := hlast hle
        rw [getD_eq_getElem _ _ (by simp)]
        rwa [getLast_eq_getElem] at hlast
      exp_lt := ObNumberDesc.calcDesc_exp_lt _ _ _
      exp_range := by
        show -15 ≤ (d.calcDesc e (c :: cs).length).getDecodeExp ∧ _
        rw [hexp]
        omega
      sign_eq := hsign
      floor_eq := by
        show ⌊|v| / (base : ℚ) ^ ((d.calcDesc e (c :: cs).length).getDecodeExp - 8)⌋ = _
        rw [hexp, hfloor, hused] }
  rw [ObNumberDesc.calcDescAndCheck_eq (by omega) (by omega), if_neg (by simp; omega),
    if_neg (by omega)]
  exact hlead.roundResult_eq

end ObNumber

end Andl.Number
