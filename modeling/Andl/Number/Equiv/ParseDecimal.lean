import Andl.Number.Equiv.FromString

/-!
# Decimal numbers from literals
-/

namespace Andl.Number

open List

/-- The exponent that is read back, when `e` is stored in seven bits. -/
def storedExp : Sign → ℤ → ℤ
  | .positive, e => (e + 64) % 128 - 64
  | .negative, e => 64 - (64 - e) % 128

theorem storedExp_of_range (s : Sign) {e : ℤ} (hlow : -64 < e) (hhigh : e < 64) :
    storedExp s e = e := by
  cases s <;> simp only [storedExp] <;> omega

namespace ObNumberDesc

variable (d : ObNumberDesc) (e : ℤ) (len : ℕ)

theorem getDecodeExp_calcDesc_eq : (calcDesc d e len).getDecodeExp = storedExp d.sign e := by
  cases hs : d.sign with
  | positive =>
    have hsign : (calcDesc d e len).sign = .positive := hs
    rw [getDecodeExp_positive hsign]
    simp only [calcDesc, hs, reduceCtorEq, if_false, storedExp, expZero]
    omega
  | negative =>
    have hsign : (calcDesc d e len).sign = .negative := hs
    rw [getDecodeExp_negative hsign (calcDesc_exp_lt d e len)]
    simp only [calcDesc, hs, if_true, storedExp, complementExp, expZero]
    omega

/-- A carry goes to the next exponent, modulo 128. -/
theorem carryDesc_calcDesc : ObNumber.carryDesc (calcDesc d e len) = calcDesc d (e + 1) len := by
  unfold ObNumber.carryDesc
  cases hs : d.sign with
  | positive =>
    rw [if_neg (by simp [calcDesc, hs])]
    simp only [incExp, calcDesc, hs, reduceCtorEq, if_false, expZero, mk.injEq, and_true, true_and]
    omega
  | negative =>
    rw [if_pos (by simp [calcDesc, hs])]
    simp only [decExp, calcDesc, hs, if_true, complementExp, expZero, mk.injEq, and_true, true_and]
    omega

/-- The check of the smallest exponent passes. -/
theorem expCheck_eq_ite {d : ObNumberDesc} (hexp : d.exp < 128) :
    d.expCheck false =
      if 14 < d.getDecodeExp then .error .integerPrecisionOverflow
      else if -64 < d.getDecodeExp ∧ d.getDecodeExp < -15 then .error .decimalPrecisionOverflow
      else .ok () := by
  by_cases hlow : -64 < d.getDecodeExp
  · rw [expCheck_eq hlow hexp]
    simp only [Bool.false_eq_true, if_false, hlow, true_and]
    split_ifs <;> first | rfl | omega
  · cases hs : d.sign with
    | positive =>
      rw [getDecodeExp_positive hs] at hlow ⊢
      have hzero : d.exp = 0 := by omega
      simp [expCheck, isGe1, isLt1, expZero, maxIntegerExp, maxDecimalExp, hs, hzero]
    | negative =>
      rw [getDecodeExp_negative hs hexp] at hlow
      omega

end ObNumberDesc

namespace ObNumber

/-! ### When rounding carries -/

variable {c : ℕ} {cs : List ℕ} {v : ℚ}

theorem getDigitLenV2_of_le (h : base - 1 ≤ c) (hlt : c < base) : getDigitLenV2 c = 9 := by
  unfold getDigitLenV2 base at *
  split_ifs <;> omega

theorem roundNine_eq_pow_iff (hpos : 0 < c) (hcs : cs.length = 8) (hlt : ∀ a ∈ c :: cs, a < base)
    (e : ℤ) :
    (ofDigitsBE base (c :: cs) + ninthUnit c e / 2) / ninthUnit c e * ninthUnit c e = base ^ 9 ↔
      base ^ 9 ≤ ofDigitsBE base (c :: cs) + base / 2 := by
  have hclt : c < base := hlt c mem_cons_self
  obtain ⟨hunit, -, hdvd⟩ := ninthUnit_spec hpos hclt e
  have hbound : ofDigitsBE base (c :: cs) < base ^ 9 := by
    have hbound := ofDigitsBE_lt (b := base) (by decide) hlt
    rwa [length_cons, hcs] at hbound
  have hval : ofDigitsBE base (c :: cs) = c * base ^ 8 + ofDigitsBE base cs := by
    rw [ofDigitsBE_cons, hcs]
  have htail : ofDigitsBE base cs < base ^ 8 := by
    rw [← hcs]
    exact ofDigitsBE_lt (by decide) fun a ha => hlt a (mem_cons_of_mem _ ha)
  have hle : ninthUnit c e ≤ base := Nat.le_of_dvd (by decide) hdvd
  constructor
  · intro heq
    have hmul := Nat.div_mul_le_self (ofDigitsBE base (c :: cs) + ninthUnit c e / 2) (ninthUnit c e)
    omega
  · intro hcarry
    -- the first digit is the largest one, and the unit is the whole ninth digit
    have hc : base - 1 ≤ c := by
      by_contra hsmall
      have hmul : (c + 2) * base ^ 8 ≤ base * base ^ 8 := Nat.mul_le_mul_right _ (by omega)
      have hhalf : base / 2 < base ^ 8 := by decide
      have hpow : base ^ 9 = base * base ^ 8 := by decide
      rw [hpow] at hcarry
      have hsplit : (c + 2) * base ^ 8 = c * base ^ 8 + 2 * base ^ 8 := Nat.add_mul _ _ _
      omega
    have hp : ninthUnit c e = base := by
      unfold ninthUnit
      rw [getDigitLenV2_of_le hc hclt]
      split_ifs <;> rfl
    rw [hp]
    have hdiv : (ofDigitsBE base (c :: cs) + base / 2) / base = base ^ 8 := by
      apply Nat.div_eq_of_lt_le
      · rwa [← pow_succ]
      · have hhalf : base / 2 < base := by decide
        have hpow : (base ^ 8 + 1) * base = base ^ 9 + base := by
          rw [Nat.add_mul, ← pow_succ, one_mul]
        rw [hpow]
        omega
    rw [hdiv, ← pow_succ]

theorem roundNine_bounds (hpos : 0 < c) (hcs : cs.length = 8) (hlt : ∀ a ∈ c :: cs, a < base)
    (e : ℤ) :
    base ^ 8 ≤ (ofDigitsBE base (c :: cs) + ninthUnit c e / 2) / ninthUnit c e * ninthUnit c e ∧
      (ofDigitsBE base (c :: cs) + ninthUnit c e / 2) / ninthUnit c e * ninthUnit c e ≤
        base ^ 9 := by
  obtain ⟨hunit, -, hdvd⟩ := ninthUnit_spec hpos (hlt c mem_cons_self) e
  generalize ninthUnit c e = p at hunit hdvd
  have hlow : base ^ 8 ≤ ofDigitsBE base (c :: cs) := hcs ▸ pow_le_ofDigitsBE hpos.ne'
  have hhigh : ofDigitsBE base (c :: cs) < base ^ 9 := by
    have hbound := ofDigitsBE_lt (b := base) (by decide) hlt
    rwa [length_cons, hcs] at hbound
  have hcancel {k : ℕ} (hk : k ≠ 0) : base ^ k / p * p = base ^ k :=
    Nat.div_mul_cancel (hdvd.trans (dvd_pow_self base hk))
  constructor
  · rw [← hcancel (show 8 ≠ 0 by decide)]
    exact Nat.mul_le_mul_right p (Nat.div_le_div_right (by omega))
  · rw [← hcancel (show 9 ≠ 0 by decide)]
    apply Nat.mul_le_mul_right p
    apply Nat.lt_succ_iff.mp
    rw [Nat.div_lt_iff_lt_mul hunit, Nat.succ_mul, hcancel (by decide)]
    omega

/-! ### The magnitude -/

theorem Trimmed.magnitude_bounds {x : ObNumber} (h : x.Trimmed) :
    (base : ℚ) ^ x.d.getDecodeExp ≤ x.magnitude ∧
      x.magnitude < (base : ℚ) ^ (x.d.getDecodeExp + 1) := by
  obtain ⟨c, cs, hdigits⟩ := exists_cons_of_length_pos (h.len_pos.trans_le h.buffer)
  obtain ⟨n, hn⟩ := Nat.exists_eq_succ_of_ne_zero h.len_pos.ne'
  have hfirst := h.first
  rw [hdigits, getD_cons_zero] at hfirst
  have hused : x.used = c :: cs.take n := by rw [used, hdigits, hn, take_succ_cons]
  exact magnitude_bounds_of_cons h.buffer hused hfirst fun a ha => h.digit_lt ha

theorem Sign.abs_toRat_mul (s : Sign) {m : ℚ} (hm : 0 ≤ m) : |s.toRat * m| = m := by
  cases s <;> simp [Sign.toRat, abs_of_nonneg hm]

theorem Sign.sign_toRat_mul (s : Sign) {m : ℚ} (hm : 0 < m) :
    ((SignType.sign (s.toRat * m) : ℤ) : ℚ) = s.toRat := by
  cases s <;> simp [Sign.toRat, hm, sign_neg]

/-! ### A rounded number with a stored exponent -/

/-- `r` is what becomes of `v`, with an exponent that is stored in seven bits. -/
structure StoredRound (s : Sign) (v : ℚ) (len : ℕ) (r : ObNumber) : Prop where
  trimmed : r.Trimmed
  sign_eq : r.d.sign = s
  rounded_ne : rounded v ≠ 0
  exp_eq : r.d.getDecodeExp = storedExp s (Int.log base |rounded v|)
  len_le : r.d.len ≤ len
  toRat_eq : -15 ≤ Int.log base |rounded v| → Int.log base |rounded v| ≤ 14 →
    r.toRat = rounded v

theorem abs_rounded {e : ℤ} (hv : v ≠ 0) (hpos : 0 < c) (hcs : cs.length = 8)
    (hlt : ∀ a ∈ c :: cs, a < base)
    (hfloor : ⌊|v| / (base : ℚ) ^ (e - 8)⌋ = ofDigitsBE base (c :: cs)) :
    |rounded v| =
      ((ofDigitsBE base (c :: cs) + ninthUnit c e / 2) / ninthUnit c e * ninthUnit c e : ℕ) *
        (base : ℚ) ^ (e - 8) := by
  have hw : (0 : ℚ) < (base : ℚ) ^ (e - 8) := zpow_pos base_pos _
  have hone : |(SignType.sign v : ℤ)| = 1 := by
    rcases hv.lt_or_gt with h | h <;> simp [h]
  rw [rounded_of_floor hpos hcs hlt hfloor, abs_mul, ← Int.cast_abs, hone, Int.cast_one, one_mul,
    abs_of_nonneg (by positivity)]

theorem log_roundNine {e : ℤ} (hv : v ≠ 0) (hpos : 0 < c) (hcs : cs.length = 8)
    (hlt : ∀ a ∈ c :: cs, a < base)
    (hfloor : ⌊|v| / (base : ℚ) ^ (e - 8)⌋ = ofDigitsBE base (c :: cs)) :
    Int.log base |rounded v| =
      if base ^ 9 ≤ ofDigitsBE base (c :: cs) + base / 2 then e + 1 else e := by
  obtain ⟨hlow, hhigh⟩ := roundNine_bounds hpos hcs hlt e
  have hiff := roundNine_eq_pow_iff hpos hcs hlt e
  have habs := abs_rounded hv hpos hcs hlt hfloor
  generalize (ofDigitsBE base (c :: cs) + ninthUnit c e / 2) / ninthUnit c e * ninthUnit c e = n
    at hlow hhigh hiff habs
  have hw : (0 : ℚ) < (base : ℚ) ^ (e - 8) := zpow_pos base_pos _
  have hpow (k : ℕ) : ((base ^ k : ℕ) : ℚ) * (base : ℚ) ^ (e - 8) = (base : ℚ) ^ (e - 8 + k) := by
    push_cast
    rw [← zpow_natCast, ← zpow_add₀ base_pos.ne', add_comm]
  rw [habs]
  split_ifs with hcarry
  · rw [hiff.mpr hcarry, hpow, Int.log_zpow (by decide)]
    push_cast
    ring
  · have hnlt : n < base ^ 9 := lt_of_le_of_ne hhigh fun h => hcarry (hiff.mp h)
    apply log_eq_of_bounds
    · calc (base : ℚ) ^ e = ((base ^ 8 : ℕ) : ℚ) * (base : ℚ) ^ (e - 8) := by
            rw [hpow]
            congr 1
            push_cast
            ring
        _ ≤ n * (base : ℚ) ^ (e - 8) := by gcongr
    · calc (n : ℚ) * (base : ℚ) ^ (e - 8) < ((base ^ 9 : ℕ) : ℚ) * (base : ℚ) ^ (e - 8) := by
            gcongr
        _ = (base : ℚ) ^ (e + 1) := by
          rw [hpow]
          congr 1
          push_cast
          ring

theorem leadingDigits_calcDesc {s : Sign} {e : ℤ} (hc : c ≠ 0) (hlt : ∀ a ∈ c :: cs, a < base)
    (hlen : (c :: cs).length ≤ 10) (hlast : (c :: cs).getLast (cons_ne_nil c cs) ≠ 0)
    (hsign : s.toRat = (SignType.sign v : ℤ))
    (hfloor : ⌊|v| / (base : ℚ) ^ (e - 8)⌋ = ofDigitsBE base (firstNine (c :: cs))) :
    LeadingDigits ⟨ObNumberDesc.calcDesc { len := 0, exp := 0, sign := s } e (c :: cs).length,
      c :: cs⟩ (v * (base : ℚ) ^ (storedExp s e - e)) where
  len_pos := Nat.succ_pos _
  len_le := hlen
  buffer := le_refl _
  digit_lt := fun a ha => hlt a (mem_of_mem_take ha)
  first := hc
  last := by
    intro _
    show (c :: cs).getD ((c :: cs).length - 1) 0 ≠ 0
    rw [getD_eq_getElem _ _ (by simp)]
    rwa [getLast_eq_getElem] at hlast
  exp_lt := ObNumberDesc.calcDesc_exp_lt _ _ _
  sign_eq := by
    have hpos : (0 : ℚ) < (base : ℚ) ^ (storedExp s e - e) := zpow_pos base_pos _
    rw [sign_mul, sign_pos hpos, mul_one]
    exact hsign
  floor_eq := by
    have hpos : (0 : ℚ) < (base : ℚ) ^ (storedExp s e - e) := zpow_pos base_pos _
    have hscale : |v * (base : ℚ) ^ (storedExp s e - e)| / (base : ℚ) ^ (storedExp s e - 8) =
        |v| / (base : ℚ) ^ (e - 8) := by
      rw [abs_mul, abs_of_pos hpos, mul_div_assoc, ← zpow_sub₀ base_pos.ne', div_eq_mul_inv,
        ← zpow_neg]
      congr 2
      ring
    rw [show ObNumberDesc.getDecodeExp (ObNumber.d ⟨ObNumberDesc.calcDesc
      { len := 0, exp := 0, sign := s } e (c :: cs).length, c :: cs⟩) = storedExp s e from
        ObNumberDesc.getDecodeExp_calcDesc_eq _ _ _, hscale, hfloor]
    congr 3
    exact (take_of_length_le (le_refl _)).symm

/-- Nonzero digits rounded at `floatingScale` under a stored exponent. -/
theorem storedRound {s : Sign} {e : ℤ} (hv : v ≠ 0) (hc : c ≠ 0) (hlt : ∀ a ∈ c :: cs, a < base)
    (hlen : (c :: cs).length ≤ 10) (hlast : (c :: cs).getLast (cons_ne_nil c cs) ≠ 0)
    (hsign : s.toRat = (SignType.sign v : ℤ))
    (hfloor : ⌊|v| / (base : ℚ) ^ (e - 8)⌋ = ofDigitsBE base (firstNine (c :: cs))) :
    StoredRound s v (c :: cs).length
      (roundScaleV3 ⟨ObNumberDesc.calcDesc { len := 0, exp := 0, sign := s } e (c :: cs).length,
        c :: cs⟩ floatingScale true) := by
  have hlead := leadingDigits_calcDesc hc hlt hlen hlast hsign hfloor
  have houtcome := hlead.outcome
  have hle := hlead.len_roundScaleV3_le
  obtain ⟨x, hx⟩ : ∃ x : ObNumber, x = ⟨ObNumberDesc.calcDesc
    { len := 0, exp := 0, sign := s } e (c :: cs).length, c :: cs⟩ := ⟨_, rfl⟩
  rw [← hx] at houtcome hlead hle ⊢
  have hxd : x.d = ObNumberDesc.calcDesc { len := 0, exp := 0, sign := s } e (c :: cs).length := by
    rw [hx]
  have hexp : x.d.getDecodeExp = storedExp s e := by
    rw [hxd]
    exact ObNumberDesc.getDecodeExp_calcDesc_eq _ _ _
  have hxsign : x.d.sign = s := by rw [hxd]; rfl
  -- the nine leading digits
  obtain ⟨ds, hds, hdslen⟩ : ∃ ds, firstNine (c :: cs) = c :: ds ∧ ds.length = 8 := by
    refine ⟨(cs ++ List.replicate 8 0).take 8, rfl, ?_⟩
    rw [length_take, length_append, length_replicate]
    omega
  have hused : x.used = c :: cs := by
    rw [hx]
    exact take_of_length_le (le_refl _)
  have hnine : ∀ a ∈ c :: ds, a < base := by
    rw [← hds, ← hused]
    exact hlead.nine_lt
  rw [hds] at hfloor
  have hpos := Nat.pos_of_ne_zero hc
  have hlog := log_roundNine hv hpos hdslen hnine hfloor
  have hround : x.roundedNine = (ofDigitsBE base (c :: ds) + ninthUnit c (storedExp s e) / 2) /
      ninthUnit c (storedExp s e) * ninthUnit c (storedExp s e) := by
    rw [roundedNine, hused, hds, hexp, hx]
    rfl
  have hiff := roundNine_eq_pow_iff hpos hdslen hnine (storedExp s e)
  have hlow := (roundNine_bounds hpos hdslen hnine (storedExp s e)).1
  rw [← hround] at hiff hlow
  have hne : rounded v ≠ 0 := by
    have hbound := (roundNine_bounds hpos hdslen hnine e).1
    have hpow : (0 : ℚ) < (base : ℚ) ^ (e - 8) := zpow_pos base_pos _
    rw [← abs_pos, abs_rounded hv hpos hdslen hnine hfloor]
    exact mul_pos (Nat.cast_pos.mpr (lt_of_lt_of_le (Nat.pow_pos (by decide)) hbound)) hpow
  have hexact (hlo : -15 ≤ Int.log base |rounded v|) (hhi : Int.log base |rounded v| ≤ 14) :
      (x.roundScaleV3 floatingScale true).toRat = rounded v := by
    have hrange : -16 ≤ e ∧ e ≤ 14 := by
      rw [hlog] at hlo hhi
      split_ifs at hlo hhi <;> omega
    have hstored : storedExp s e = e := storedExp_of_range s (by omega) (by omega)
    rw [hstored, sub_self, zpow_zero, mul_one] at hlead
    rw [houtcome.toRat_eq hlead.exp_lt (fun _ => by omega), hlead.rounded_eq]
    congr 3
    push_cast
    ring
  rcases houtcome with ⟨hn, -⟩ | ⟨hn, htrim, hr, -, -⟩ | ⟨hn, htrim, hr, -⟩
  · rw [hn] at hlow
    exact absurd hlow (by decide)
  · refine ⟨htrim, ?_, hne, ?_, ?_, hexact⟩
    · rw [hr]
      exact hxsign
    · rw [hlog, if_neg (by rw [← hiff]; exact hn.ne), ← hexp, hr]
      rfl
    · exact hle.trans (by rw [hxd]; exact le_refl _)
  · refine ⟨htrim, ?_, hne, ?_, ?_, hexact⟩
    · rw [hr, hxd, ObNumberDesc.carryDesc_calcDesc]
      rfl
    · rw [hlog, if_pos (hiff.mp hn), hr, hxd, ObNumberDesc.carryDesc_calcDesc]
      exact ObNumberDesc.getDecodeExp_calcDesc_eq _ _ _
    · exact hle.trans (by rw [hxd]; exact le_refl _)

end ObNumber

/-! ### What is returned -/

namespace DecimalLiteral

open ObNumber

variable {l : DecimalLiteral} {step : ℕ} {s : List Char} {e : ℤ}

theorem firstNine_eq_takeD {ds : List ℕ} (hne : ds ≠ []) : firstNine ds = ds.takeD 9 0 := by
  have hpos := length_pos_iff.mpr hne
  rcases Nat.lt_or_ge ds.length 9 with hlt | hle
  · rw [firstNine_of_lt hpos hlt, takeD_of_length_le hlt.le]
  · rw [firstNine_of_le hle, takeD_eq_take 0 hle]

/-- The groups have the leading digits of the literal. -/
theorem Grouped.floor_eq (h : l.Grouped step s e) (hne : decimalGroups calcBufferSize step s ≠ []) :
    ⌊l.magnitude / (base : ℚ) ^ (e - 8)⌋ =
      ofDigitsBE base (firstNine (decimalGroups calcBufferSize step s)) := by
  have hscale : l.magnitude / (base : ℚ) ^ (e - 8) =
      (ofDigitsBE 10 (s.map digitVal) : ℚ) / ((10 : ℕ) : ℚ) ^ (s.map digitVal).length *
        ((10 : ℕ) : ℚ) ^ (step + 9 * 8) := by
    rw [h.magnitude_eq, base_zpow, length_map, mul_div_assoc, ← zpow_sub₀ (by norm_num),
      ← zpow_natCast (((10 : ℕ) : ℚ)) (step + 9 * 8)]
    push_cast
    congr 2
    ring
  have hlt : ∀ d ∈ s.map digitVal, d < 10 := by
    intro d hd
    obtain ⟨c, hc, rfl⟩ := mem_map.mp hd
    exact digitVal_lt (h.digits c hc)
  rw [hscale, floor_ofDigitsBE_takeD (by decide) hlt, firstNine_eq_takeD hne,
    ofDigitsBE_decimalGroups h.step_le s (by decide)]

theorem Grouped.exists_cons (h : l.Grouped step s e) (hs : s ≠ []) :
    ∃ c cs, (decimalGroups calcBufferSize step s).rdropWhile (· == 0) = c :: cs ∧ c ≠ 0 ∧
      (c :: cs).getLast (cons_ne_nil c cs) ≠ 0 ∧
      firstNine (c :: cs) = firstNine (decimalGroups calcBufferSize step s) := by
  obtain ⟨a, as, rfl⟩ := exists_cons_of_ne_nil hs
  obtain ⟨n, rfl⟩ := Nat.exists_eq_succ_of_ne_zero h.step_pos.ne'
  have hgroups := decimalGroups_cons h.step_le hs maxDecimalDigit
  rw [map_cons, Nat.succ_eq_add_one, takeD_succ, head?_cons, Option.getD_some,
    tail_cons] at hgroups
  have ha : digitVal a ≠ 0 := by
    rw [Ne, digitVal_eq_zero_iff (h.digits a mem_cons_self)]
    exact h.head a rfl
  have hfirst : ofDigitsBE 10 (digitVal a :: (as.map digitVal).takeD n 0) ≠ 0 :=
    (lt_of_lt_of_le (Nat.pow_pos (by decide)) (pow_le_ofDigitsBE ha)).ne'
  rw [show calcBufferSize = maxDecimalDigit + 1 from rfl, Nat.succ_eq_add_one, hgroups]
  generalize ofDigitsBE 10 (digitVal a :: (as.map digitVal).takeD n 0) = g at hfirst
  generalize decimalGroups maxDecimalDigit 9 ((a :: as).drop (n + 1)) = gs
  have hne := rdropWhile_cons_ne_nil hfirst gs
  have hlast := getLast_rdropWhile_ne_zero hne
  have hnine := firstNine_rdropWhile hne
  have hsplit := rdropWhile_append_zeros (g :: gs)
  obtain ⟨c, cs, hcons⟩ := exists_cons_of_ne_nil hne
  simp only [hcons] at hlast hnine hsplit
  have hc : c = g := by
    rw [cons_append] at hsplit
    exact (List.cons.inj hsplit).1
  exact ⟨c, cs, hcons, hc ▸ hfirst, hlast, hnine⟩

theorem Grouped.magnitude_pos (h : l.Grouped step s e) (hs : s ≠ []) : 0 < l.magnitude := by
  obtain ⟨a, as, rfl⟩ := exists_cons_of_ne_nil hs
  have ha : digitVal a ≠ 0 := by
    rw [Ne, digitVal_eq_zero_iff (h.digits a mem_cons_self)]
    exact h.head a rfl
  have hpos : (0 : ℚ) < ofDigitsBE 10 ((a :: as).map digitVal) :=
    Nat.cast_pos.mpr (lt_of_lt_of_le (Nat.pow_pos (by decide)) (pow_le_ofDigitsBE ha))
  rw [h.magnitude_eq]
  exact mul_pos (div_pos hpos (by positivity)) (zpow_pos (by norm_num) _)

variable (l)

/-- **What `from_v3_` returns** for a literal. -/
theorem fromV3_text :
    (l.value = 0 ∧ fromV3 true l.text = .ok (zero, none)) ∨
    (l.value ≠ 0 ∧ ∃ r len, StoredRound l.numberSign l.value len r ∧
      fromV3 true l.text = .ok
        (if 14 < r.d.getDecodeExp then r.saturate len
          else if -64 < r.d.getDecodeExp ∧ r.d.getDecodeExp < -15 then r.setZero
          else r, none)) := by
  obtain ⟨range, hrange, hscan⟩ := l.findPointRange_text
  obtain ⟨step, s, e, hgrouped, hdigits⟩ := constructDigits_text hscan
  have hsign : (if range.negative then Sign.negative else .positive) = l.numberSign := by
    rw [hscan.negative_eq]
    cases l.numberSign <;> rfl
  unfold fromV3
  simp only [hrange, hdigits, hsign, hscan.warning_eq, bind, Except.bind, pure, Except.pure]
  by_cases hs : s = []
  · subst hs
    left
    refine ⟨?_, ?_⟩
    · rw [value, hgrouped.magnitude_eq]
      simp
    · rw [decimalGroups_nil]
      rfl
  · right
    obtain ⟨c, cs, hcons, hc, hlast, hnine⟩ := hgrouped.exists_cons hs
    have hpos := hgrouped.magnitude_pos hs
    have hgroups : decimalGroups calcBufferSize step s ≠ [] := by
      intro hnil
      rw [hnil] at hcons
      simp at hcons
    have hsplit := rdropWhile_append_zeros (decimalGroups calcBufferSize step s)
    rw [hcons] at hsplit
    have hlt : ∀ a ∈ c :: cs, a < base := by
      intro a ha
      apply decimalGroups_lt hgrouped.step_le hgrouped.digits calcBufferSize
      rw [← hsplit]
      exact mem_append_left _ ha
    have hlen : (c :: cs).length ≤ 10 := by
      have hle := length_decimalGroups_le calcBufferSize step s
      rw [← hsplit, length_append] at hle
      exact (Nat.le_add_right _ _).trans hle
    have hvalue : l.value ≠ 0 := by
      rw [value]
      cases l.numberSign <;> simp [Sign.toRat, hpos.ne']
    have hfloor := hgrouped.floor_eq hgroups
    rw [← hnine] at hfloor
    have hstored := storedRound hvalue hc hlt hlen hlast
      (Sign.sign_toRat_mul l.numberSign hpos).symm
      (by rw [value, Sign.abs_toRat_mul _ hpos.le]; exact hfloor)
    refine ⟨hvalue, _, _, hstored, ?_⟩
    rw [hcons, if_neg (by simp), if_pos trivial]
    rw [ObNumberDesc.expCheck_eq_ite hstored.trimmed.exp_lt]
    split_ifs <;> rfl

end DecimalLiteral

/-! ### The range of the exponent -/

namespace ObNumber

theorem setZero_canonical (r : ObNumber) : r.setZero.Canonical ∧ r.setZero.toRat = 0 :=
  ⟨.inl rfl, Canonical.toRat_of_zero rfl⟩

/-- The number that stands for one that is too large. -/
theorem saturate_spec {s : Sign} {r : ObNumber} {len : ℕ} (hsign : r.d.sign = s)
    (hpos : 0 < r.d.len) (hlen : r.d.len ≤ len) :
    (base : ℚ) ^ (12 : ℤ) ≤ |(r.saturate len).toRat| ∧
      ((SignType.sign (r.saturate len).toRat : ℤ) : ℚ) = s.toRat := by
  have hdecode : (r.saturate len).d.getDecodeExp = 12 := by
    unfold saturate ObNumberDesc.maxIntegerExp expZero
    rw [hsign]
    cases s with
    | positive => exact ObNumberDesc.getDecodeExp_positive hsign
    | negative => exact ObNumberDesc.getDecodeExp_negative hsign (show 52 < 128 by decide)
  obtain ⟨n, hn⟩ := Nat.exists_eq_succ_of_ne_zero hpos.ne'
  have hused : (r.saturate len).used = (base - 1) :: List.replicate n (base - 1) := by
    show (List.replicate len (base - 1)).take r.d.len = _
    rw [take_replicate, Nat.min_eq_left hlen, hn, replicate_succ]
  have hlt : ∀ a ∈ (r.saturate len).used, a < base := by
    intro a ha
    have ha := mem_of_mem_take ha
    rw [eq_of_mem_replicate ha]
    decide
  have hbuf : (r.saturate len).d.len ≤ (r.saturate len).digits.length := by
    show r.d.len ≤ (List.replicate len (base - 1)).length
    rwa [length_replicate]
  have hlow := (magnitude_bounds_of_cons hbuf hused (by decide) hlt).1
  rw [hdecode] at hlow
  have hmag : 0 < (r.saturate len).magnitude := (zpow_pos base_pos _).trans_le hlow
  have hsame : (r.saturate len).d.sign = s := hsign
  rw [toRat_eq, hsame, Sign.abs_toRat_mul _ hmag.le]
  exact ⟨hlow, Sign.sign_toRat_mul s hmag⟩

theorem StoredRound.abs_toRat {s : Sign} {v : ℚ} {len : ℕ} {r : ObNumber}
    (h : StoredRound s v len r) :
    (base : ℚ) ^ r.d.getDecodeExp ≤ |r.toRat| ∧ |r.toRat| < (base : ℚ) ^ (r.d.getDecodeExp + 1) ∧
      ((SignType.sign r.toRat : ℤ) : ℚ) = s.toRat := by
  obtain ⟨hlow, hhigh⟩ := h.trimmed.magnitude_bounds
  have hpos : 0 < r.magnitude := (zpow_pos base_pos _).trans_le hlow
  rw [ObNumber.toRat_eq, h.sign_eq, Sign.abs_toRat_mul _ hpos.le]
  exact ⟨hlow, hhigh, Sign.sign_toRat_mul s hpos⟩

end ObNumber

/-- What parsing a literal of the value `v` should return: no warning and the rounded value, or zero
if that is below `10 ^ -135`, or a large number of the same sign if that is not below `10 ^ 135`. -/
def Parsed (v : ℚ) (res : ObResult (ObNumber × Option ObError)) : Prop :=
  ∃ r : ObNumber, res = .ok (r, none) ∧
    (|rounded v| < (10 : ℚ) ^ (-135 : ℤ) → r.Canonical ∧ r.toRat = 0) ∧
    ((10 : ℚ) ^ (-135 : ℤ) ≤ |rounded v| → |rounded v| < (10 : ℚ) ^ (135 : ℤ) →
      r.Canonical ∧ r.toRat = rounded v) ∧
    ((10 : ℚ) ^ (135 : ℤ) ≤ |rounded v| →
      SignType.sign r.toRat = SignType.sign v ∧ (10 : ℚ) ^ (108 : ℤ) ≤ |r.toRat|)

/-- An exponent is in range, or still out of range on the same side when seven bits of it are kept.
-/
def Storable (s : Sign) (e : ℤ) : Prop :=
  (-15 ≤ e ∧ e ≤ 14) ∨ (15 ≤ e ∧ 12 ≤ storedExp s e) ∨
    (e ≤ -16 ∧ -63 ≤ storedExp s e ∧ storedExp s e ≤ -16)

instance (s : Sign) (e : ℤ) : Decidable (Storable s e) := by
  unfold Storable
  infer_instance

namespace DecimalLiteral

open ObNumber

variable (l : DecimalLiteral)

theorem abs_lt_ten_zpow {w : ℚ} (hw : w ≠ 0) (k : ℤ) :
    |w| < (10 : ℚ) ^ (9 * k) ↔ Int.log base |w| < k := by
  rw [← base_zpow]
  exact Int.lt_zpow_iff_log_lt (by decide) (abs_pos.mpr hw)

theorem ten_zpow_le_abs {w : ℚ} (hw : w ≠ 0) (k : ℤ) :
    (10 : ℚ) ^ (9 * k) ≤ |w| ↔ k ≤ Int.log base |w| := by
  rw [← base_zpow]
  exact Int.zpow_le_iff_le_log (by decide) (abs_pos.mpr hw)

/-- The sign of the value is the sign that is written. -/
theorem sign_value (h : l.value ≠ 0) : ((SignType.sign l.value : ℤ) : ℚ) = l.numberSign.toRat := by
  have hnonneg : 0 ≤ l.magnitude := by
    unfold magnitude
    positivity
  have hpos : 0 < l.magnitude := by
    refine lt_of_le_of_ne hnonneg fun hzero => h ?_
    rw [value, ← hzero, mul_zero]
  exact Sign.sign_toRat_mul l.numberSign hpos

theorem rounded_zero : rounded 0 = 0 := by
  rw [rounded, roundHalfAway, sign_zero]
  simp

/-- The ranges of the value, by its exponent. -/
theorem parsed_ok_iff {v : ℚ} (hw : rounded v ≠ 0) (r : ObNumber) :
    Parsed v (.ok (r, none)) ↔
      (Int.log base |rounded v| < -15 → r.Canonical ∧ r.toRat = 0) ∧
      (-15 ≤ Int.log base |rounded v| → Int.log base |rounded v| < 15 →
        r.Canonical ∧ r.toRat = rounded v) ∧
      (15 ≤ Int.log base |rounded v| →
        SignType.sign r.toRat = SignType.sign v ∧ (base : ℚ) ^ (12 : ℤ) ≤ |r.toRat|) := by
  rw [← abs_lt_ten_zpow hw, ← abs_lt_ten_zpow hw, ← ten_zpow_le_abs hw, ← ten_zpow_le_abs hw,
    base_zpow]
  unfold Parsed
  constructor
  · rintro ⟨r', heq, h⟩
    obtain rfl : r = r' := by simpa using heq
    exact h
  · exact fun h => ⟨r, rfl, h⟩

theorem sign_eq_of_cast {a b : ℚ} (h : ((SignType.sign a : ℤ) : ℚ) = (SignType.sign b : ℤ)) :
    SignType.sign a = SignType.sign b := by
  have hint : (SignType.sign a : ℤ) = SignType.sign b := by exact_mod_cast h
  cases ha : SignType.sign a <;> cases hb : SignType.sign b <;> simp_all

/-- An exponent that survives is enough. -/
theorem parsed_of_storable (h : Storable l.numberSign (Int.log base |rounded l.value|)) :
    Parsed l.value (fromV3 true l.text) := by
  rcases l.fromV3_text with ⟨hvalue, hres⟩ | ⟨hvalue, r, len, hr, hres⟩
  · rw [hres, hvalue]
    refine ⟨zero, rfl, fun _ => ⟨.inl rfl, Canonical.toRat_of_zero rfl⟩, ?_, ?_⟩ <;>
      rw [rounded_zero, abs_zero] <;> intro hle <;> exact absurd hle (by norm_num)
  · obtain ⟨hlow, -, hsign⟩ := hr.abs_toRat
    have hvsign := l.sign_value hvalue
    rw [hres, parsed_ok_iff hr.rounded_ne]
    rcases h with ⟨hlo, hhi⟩ | ⟨hlarge, hstored⟩ | ⟨hsmall, hlo, hhi⟩
    · have hexp := hr.exp_eq
      rw [storedExp_of_range _ (by omega) (by omega)] at hexp
      rw [if_neg (by omega), if_neg (by omega)]
      refine ⟨by omega, fun _ _ => ⟨.inr (hr.trimmed.normal (by omega)), hr.toRat_eq hlo hhi⟩,
        by omega⟩
    · refine ⟨by omega, by omega, fun _ => ?_⟩
      rw [← hr.exp_eq] at hstored
      split_ifs with hover hunder
      · obtain ⟨hbound, hsame⟩ := saturate_spec hr.sign_eq hr.trimmed.len_pos hr.len_le
        exact ⟨sign_eq_of_cast (hsame.trans hvsign.symm), hbound⟩
      · omega
      · exact ⟨sign_eq_of_cast (hsign.trans hvsign.symm),
          (zpow_le_zpow_right₀ one_lt_base.le hstored).trans hlow⟩
    · rw [← hr.exp_eq] at hlo hhi
      rw [if_neg (by omega), if_pos ⟨by omega, by omega⟩]
      exact ⟨fun _ => r.setZero_canonical, by omega, by omega⟩

/-- Only an exponent that survives is good enough. -/
theorem storable_of_parsed (h : Parsed l.value (fromV3 true l.text)) :
    Storable l.numberSign (Int.log base |rounded l.value|) := by
  rcases l.fromV3_text with ⟨hvalue, -⟩ | ⟨-, r, len, hr, hres⟩
  · left
    rw [hvalue, rounded_zero, abs_zero, Int.log_of_right_le_zero _ (le_refl _)]
    decide
  · obtain ⟨hlow, hhigh, -⟩ := hr.abs_toRat
    have hrpos : 0 < |r.toRat| := (zpow_pos base_pos _).trans_le hlow
    obtain ⟨hbig, -⟩ := saturate_spec hr.sign_eq hr.trimmed.len_pos hr.len_le
    have hbigpos : 0 < |(r.saturate len).toRat| := (zpow_pos base_pos _).trans_le hbig
    rw [hres, parsed_ok_iff hr.rounded_ne] at h
    obtain ⟨hsmall, -, hlarge⟩ := h
    unfold Storable
    rw [← hr.exp_eq]
    rcases lt_or_ge (Int.log base |rounded l.value|) (-15) with hlt | hge
    · right; right
      have hzero := (hsmall hlt).2
      split_ifs at hzero with hover hunder
      · rw [hzero, abs_zero] at hbigpos
        exact absurd hbigpos (lt_irrefl 0)
      · omega
      · rw [hzero, abs_zero] at hrpos
        exact absurd hrpos (lt_irrefl 0)
    · rcases lt_or_ge (Int.log base |rounded l.value|) 15 with hlt | hge'
      · exact .inl ⟨hge, by omega⟩
      · right; left
        have hbound := (hlarge hge').2
        split_ifs at hbound with hover hunder
        · exact ⟨hge', by omega⟩
        · rw [(setZero_canonical r).2, abs_zero] at hbound
          exact absurd hbound (not_le.mpr (zpow_pos base_pos _))
        · have hexp := (zpow_lt_zpow_iff_right₀ one_lt_base).mp (hbound.trans_lt hhigh)
          exact ⟨hge', by omega⟩

/-- **A decimal literal is parsed to its rounded value** exactly if the exponent of that value
survives being stored in seven bits. -/
theorem parsed_iff_storable :
    Parsed l.value (fromV3 true l.text) ↔
      Storable l.numberSign (Int.log base |rounded l.value|) :=
  ⟨l.storable_of_parsed, l.parsed_of_storable⟩

/-- The literal of a one and `n` zeros. -/
def oneAndZeros (n : ℕ) : DecimalLiteral where
  spaces := []
  sign := none
  integer := '1' :: List.replicate n '0'
  fraction := none
  isspace_spaces := by simp
  isDigitChar_integer := by
    intro c hc
    rcases mem_cons.mp hc with rfl | hc
    · decide
    · rw [eq_of_mem_replicate hc]
      decide
  isDigitChar_fraction := by simp
  digits_ne_nil := by simp

theorem value_oneAndZeros (n : ℕ) : (oneAndZeros n).value = 10 ^ n := by
  have hdigits : ((oneAndZeros n).integer ++ (oneAndZeros n).decimals).map digitVal =
      1 :: List.replicate n 0 := by
    show (('1' :: List.replicate n '0') ++ []).map digitVal = _
    rw [append_nil, map_cons, map_replicate]
    rfl
  rw [value, magnitude, hdigits, ofDigitsBE_cons, ofDigitsBE_replicate_zero, length_replicate]
  simp [numberSign, oneAndZeros, decimals, Sign.toRat]

/-- A power of ten is not rounded. -/
theorem rounded_ten_pow {n : ℕ} (h : 71 ≤ n) : rounded ((10 : ℚ) ^ n) = 10 ^ n := by
  have hone : (1 : ℚ) ≤ |(10 : ℚ) ^ n| := by
    rw [abs_of_pos (by positivity)]
    exact one_le_pow₀ (by norm_num)
  have hlog : Int.log 10 |(10 : ℚ) ^ n| = n := by
    rw [abs_of_pos (by positivity)]
    exact_mod_cast Int.log_zpow (R := ℚ) (b := 10) (by decide) n
  have hunit : roundingUnit ((10 : ℚ) ^ n) = 10 ^ (n - 71) := by
    rw [roundingUnit, if_pos hone, hlog, ← zpow_natCast]
    congr 1
    unfold floatingScale
    omega
  rw [rounded, hunit]
  apply roundHalfAway_of_eq_mul (n := 10 ^ 71) (by positivity)
  rw [abs_of_pos (by positivity), Nat.cast_pow, Nat.cast_ofNat, ← pow_add]
  congr 1
  omega

/-- `10 ^ 1152` is read as a number between one and `10 ^ 9`. -/
theorem not_parsed_oneAndZeros :
    ¬ Parsed (oneAndZeros 1152).value (fromV3 true (oneAndZeros 1152).text) := by
  intro h
  have hstorable := storable_of_parsed _ h
  have hpow : (10 : ℚ) ^ 1152 = (base : ℚ) ^ (128 : ℤ) := by
    rw [base_zpow, ← zpow_natCast]
    rfl
  have hlog : Int.log base |rounded (oneAndZeros 1152).value| = 128 := by
    rw [value_oneAndZeros, rounded_ten_pow (by decide), abs_of_pos (by positivity), hpow]
    exact Int.log_zpow (by decide) _
  rw [hlog] at hstorable
  exact absurd hstorable (by decide)

end DecimalLiteral

end Andl.Number
