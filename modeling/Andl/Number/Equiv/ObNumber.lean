import Andl.Lib.Digits
import Andl.Number.ObNumber

/-!
# The value of a decimal number
-/

namespace Andl.Number

open List

/-- The factor that a sign stands for. -/
def Sign.toRat : Sign → ℚ
  | .negative => -1
  | .positive => 1

namespace ObNumberDesc

theorem getDecodeExp_positive {d : ObNumberDesc} (h : d.sign = .positive) :
    d.getDecodeExp = (d.exp : ℤ) - 64 := by
  simp [getDecodeExp, h, expZero]

theorem getDecodeExp_negative {d : ObNumberDesc} (h : d.sign = .negative) (hexp : d.exp < 128) :
    d.getDecodeExp = 64 - (d.exp : ℤ) := by
  unfold getDecodeExp expZero
  split_ifs with hzero
  · omega
  · simp only [h, true_and, not_not] at hzero
    omega

theorem getDecodeExp_incExp {d : ObNumberDesc} (h : d.sign = .positive) (hexp : d.exp < 127) :
    d.incExp.getDecodeExp = d.getDecodeExp + 1 := by
  have hinc : d.incExp.exp = d.exp + 1 := Nat.mod_eq_of_lt (by omega)
  rw [getDecodeExp_positive h, getDecodeExp_positive (d := d.incExp) h, hinc]
  omega

/-- The exponent of a negative number is complemented. -/
theorem getDecodeExp_decExp {d : ObNumberDesc} (h : d.sign = .negative) (hpos : 0 < d.exp)
    (hexp : d.exp < 128) : d.decExp.getDecodeExp = d.getDecodeExp + 1 := by
  have hdec : d.decExp.exp = d.exp - 1 := by
    show (d.exp + 0x7f) % 0x80 = d.exp - 1
    omega
  rw [getDecodeExp_negative h hexp, getDecodeExp_negative (d := d.decExp) h (by omega), hdec]
  omega

theorem incExp_exp_lt (d : ObNumberDesc) : d.incExp.exp < 128 := Nat.mod_lt _ (by decide)

theorem decExp_exp_lt (d : ObNumberDesc) : d.decExp.exp < 128 := Nat.mod_lt _ (by decide)

theorem se_congr {d d' : ObNumberDesc} (hsign : d.sign = d'.sign) (hexp : d.exp = d'.exp) :
    d.se = d'.se := by
  rw [se, se, hsign, hexp]

end ObNumberDesc

namespace ObNumber

/-- The digits of the number. -/
def used (x : ObNumber) : List ℕ := x.digits.take x.d.len

/-- The number that `x` stands for. -/
def toRat (x : ObNumber) : ℚ :=
  x.d.sign.toRat * ofDigitsBE base x.used * (base : ℚ) ^ (x.d.getDecodeExp - x.d.len + 1)

/-- The absolute value of the number that `x` stands for. -/
def magnitude (x : ObNumber) : ℚ :=
  ofDigitsBE base x.used * (base : ℚ) ^ (x.d.getDecodeExp - x.d.len + 1)

theorem toRat_eq (x : ObNumber) : x.toRat = x.d.sign.toRat * x.magnitude := by
  rw [toRat, magnitude, mul_assoc]

theorem base_pos : (0 : ℚ) < base := by norm_num [base]

theorem one_lt_base : (1 : ℚ) < base := by norm_num [base]

/-- The magnitude, scaled to an integer. -/
theorem magnitude_mul_zpow (x : ObNumber) (n : ℕ) :
    x.magnitude * (base : ℚ) ^ ((x.d.len : ℤ) + n - x.d.getDecodeExp - 1) =
      ((ofDigitsBE base x.used * base ^ n : ℕ) : ℚ) := by
  rw [magnitude, mul_assoc, ← zpow_add₀ base_pos.ne']
  push_cast
  rw [← zpow_natCast]
  congr 2
  ring

/-- A number other than zero; it can end in zero digits. -/
structure Shaped (x : ObNumber) : Prop where
  len_pos : 0 < x.d.len
  len_le : x.d.len ≤ maxStoreLen
  buffer : x.d.len ≤ x.digits.length
  digit_lt {c : ℕ} : c ∈ x.used → c < base
  first : x.digits.getD 0 0 ≠ 0
  exp_lt : x.d.exp < 128
  exp_range : -15 ≤ x.d.getDecodeExp ∧ x.d.getDecodeExp ≤ 14

/-- A number other than zero, in normal form. -/
structure Normal (x : ObNumber) : Prop extends Shaped x where
  last : x.digits.getD (x.d.len - 1) 0 ≠ 0

/-- Zero as `setZero` writes it, or a number in normal form. -/
def Canonical (x : ObNumber) : Prop :=
  x.d = { len := 0, exp := 0, sign := .positive } ∨ x.Normal

/-- For `isEqual` and `compare`, `x` is the canonical number of value `v`. -/
def Represents (x : ObNumber) (v : ℚ) : Prop :=
  (∃ c : ObNumber, c.Canonical ∧ c.toRat = v) ∧
    ∀ c : ObNumber, c.Canonical → c.toRat = v → isEqual x c = true ∧ compare x c = 0

/-! ### Equality -/

theorem isEqual_iff {x y : ObNumber} :
    isEqual x y = true ↔ x.d.se = y.d.se ∧ x.d.len = y.d.len ∧ x.used = y.used := by
  unfold isEqual uint32equal used
  split_ifs with h
  · rw [decide_eq_true_eq, ← h.2]
    simp [h.1]
  · simp only [false_iff]
    rintro ⟨hse, hlen, -⟩
    exact h ⟨hse, hlen⟩

theorem uint32cmp_of_take_eq {s1 s2 : List ℕ} {n : ℕ} (h : s1.take n = s2.take n) :
    uint32cmp s1 s2 n = 0 := by
  induction n generalizing s1 s2 with
  | zero => rw [uint32cmp]
  | succ n ih =>
    cases s1 with
    | nil => simp [uint32cmp]
    | cons a s1 =>
      cases s2 with
      | nil => simp [uint32cmp]
      | cons c s2 =>
        simp only [take_succ_cons, List.cons.injEq] at h
        obtain ⟨rfl, h⟩ := h
        simp [uint32cmp, ih h]

/-- Equal numbers compare as equal. -/
theorem compare_eq_zero_of_isEqual {x y : ObNumber} (h : isEqual x y = true) : compare x y = 0 := by
  obtain ⟨hse, hlen, hused⟩ := isEqual_iff.mp h
  have hcmp : uint32cmp x.digits y.digits x.d.len = 0 := by
    apply uint32cmp_of_take_eq
    rw [used, used, ← hlen] at hused
    exact hused
  simp [compare, hse, hlen, hlen ▸ hcmp]

/-! ### Normal form -/

theorem length_used {x : ObNumber} (h : x.d.len ≤ x.digits.length) : x.used.length = x.d.len := by
  rw [used, length_take, Nat.min_eq_left h]

/-- The exponent gives the order of magnitude, if the first digit is not zero. -/
theorem magnitude_bounds_of_cons {x : ObNumber} {c : ℕ} {cs : List ℕ}
    (hbuf : x.d.len ≤ x.digits.length) (hused : x.used = c :: cs) (hc : c ≠ 0)
    (hlt : ∀ a ∈ x.used, a < base) :
    (base : ℚ) ^ x.d.getDecodeExp ≤ x.magnitude ∧
      x.magnitude < (base : ℚ) ^ (x.d.getDecodeExp + 1) := by
  have hne : (base : ℚ) ≠ 0 := base_pos.ne'
  have hpow : (0 : ℚ) < (base : ℚ) ^ (x.d.getDecodeExp - x.d.len + 1) := zpow_pos base_pos _
  have hlen := length_used hbuf
  have hlow : base ^ (x.d.len - 1) ≤ ofDigitsBE base x.used := by
    rw [hused, length_cons] at hlen
    rw [hused, ← hlen, Nat.add_sub_cancel]
    exact pow_le_ofDigitsBE hc
  have hhigh : ofDigitsBE base x.used < base ^ x.d.len := by
    rw [← hlen]
    exact ofDigitsBE_lt (by decide) hlt
  have hpos : 0 < x.d.len := by
    rw [← hlen, hused, length_cons]
    exact Nat.succ_pos _
  constructor
  · have hsplit : (base : ℚ) ^ x.d.getDecodeExp =
        ((base ^ (x.d.len - 1) : ℕ) : ℚ) * (base : ℚ) ^ (x.d.getDecodeExp - x.d.len + 1) := by
      push_cast
      rw [← zpow_natCast, ← zpow_add₀ hne]
      congr 1
      omega
    rw [hsplit, magnitude]
    gcongr
  · have hsplit : (base : ℚ) ^ (x.d.getDecodeExp + 1) =
        ((base ^ x.d.len : ℕ) : ℚ) * (base : ℚ) ^ (x.d.getDecodeExp - x.d.len + 1) := by
      push_cast
      rw [← zpow_natCast, ← zpow_add₀ hne]
      congr 1
      omega
    rw [hsplit, magnitude]
    gcongr

namespace Shaped

variable {x : ObNumber}

theorem length_used (h : x.Shaped) : x.used.length = x.d.len :=
  ObNumber.length_used h.buffer

theorem isZero_eq (h : x.Shaped) : x.isZero = false := by
  have hpos := h.len_pos
  simp only [isZero, decide_eq_false_iff_not]
  omega

theorem used_ne_nil (h : x.Shaped) : x.used ≠ [] := by
  intro hnil
  have hlen := h.length_used
  have hpos := h.len_pos
  rw [hnil, length_nil] at hlen
  omega

theorem head_used (h : x.Shaped) : ∃ c cs, x.used = c :: cs ∧ c ≠ 0 := by
  have hpos := h.len_pos
  have hfirst := h.first
  cases hd : x.digits with
  | nil =>
    rw [hd] at hfirst
    simp at hfirst
  | cons c cs =>
    rw [hd] at hfirst
    refine ⟨c, cs.take (x.d.len - 1), ?_, by simpa using hfirst⟩
    obtain ⟨n, hn⟩ := Nat.exists_eq_succ_of_ne_zero (Nat.ne_of_gt hpos)
    rw [used, hd, hn, take_succ_cons]
    rfl

theorem lt_pow (h : x.Shaped) : ofDigitsBE base x.used < base ^ x.d.len := by
  rw [← h.length_used]
  exact ofDigitsBE_lt (by decide) fun _ => h.digit_lt

theorem pow_le (h : x.Shaped) : base ^ (x.d.len - 1) ≤ ofDigitsBE base x.used := by
  obtain ⟨c, cs, hused, hc⟩ := h.head_used
  have hlen := h.length_used
  rw [hused, length_cons] at hlen
  rw [hused, ← hlen, Nat.add_sub_cancel]
  exact pow_le_ofDigitsBE hc

end Shaped

namespace Normal

variable {x y : ObNumber}

theorem getLast_used (h : x.Normal) : x.used.getLast h.used_ne_nil ≠ 0 := by
  have hpos := h.len_pos
  have hlast := h.last
  have hbuf := h.buffer
  have hindex : x.used.length - 1 < x.digits.length := by
    rw [h.length_used]
    omega
  rw [← h.length_used, getD_eq_getElem _ _ hindex] at hlast
  rw [getLast_eq_getElem]
  simpa only [used, getElem_take] using hlast

theorem pos (h : x.Normal) : 0 < ofDigitsBE base x.used :=
  ofDigitsBE_pos_of_getLast h.used_ne_nil h.getLast_used

/-- The last digit not being zero, the base does not divide the digits. -/
theorem not_dvd (h : x.Normal) : ¬ base ∣ ofDigitsBE base x.used :=
  not_dvd_ofDigitsBE h.used_ne_nil h.getLast_used (h.digit_lt (getLast_mem h.used_ne_nil))

theorem magnitude_pos (h : x.Normal) : 0 < x.magnitude :=
  mul_pos (Nat.cast_pos.mpr h.pos) (zpow_pos base_pos _)

/-- The exponent gives the order of magnitude. -/
theorem magnitude_bounds (h : x.Normal) :
    (base : ℚ) ^ x.d.getDecodeExp ≤ x.magnitude ∧
      x.magnitude < (base : ℚ) ^ (x.d.getDecodeExp + 1) := by
  obtain ⟨c, cs, hused, hc⟩ := h.head_used
  exact magnitude_bounds_of_cons h.buffer hused hc fun _ => h.digit_lt

/-- Numbers of one magnitude have the same exponent. -/
theorem getDecodeExp_le (hx : x.Normal) (hy : y.Normal) (h : x.magnitude = y.magnitude) :
    x.d.getDecodeExp ≤ y.d.getDecodeExp := by
  apply Int.lt_add_one_iff.mp
  apply (zpow_lt_zpow_iff_right₀ one_lt_base).mp
  calc (base : ℚ) ^ x.d.getDecodeExp ≤ x.magnitude := hx.magnitude_bounds.1
    _ = y.magnitude := h
    _ < (base : ℚ) ^ (y.d.getDecodeExp + 1) := hy.magnitude_bounds.2

theorem mul_pow_eq (hexp : x.d.getDecodeExp = y.d.getDecodeExp) (h : x.magnitude = y.magnitude) :
    ofDigitsBE base x.used * base ^ y.d.len = ofDigitsBE base y.used * base ^ x.d.len := by
  have hx := magnitude_mul_zpow x y.d.len
  have hy := magnitude_mul_zpow y x.d.len
  rw [← h, ← hexp, show ((y.d.len : ℤ) + x.d.len) = x.d.len + y.d.len by ring, hx] at hy
  exact_mod_cast hy

section

variable (hx : x.Normal)
include hx

theorem len_le_of_mul_pow (h : ofDigitsBE base x.used * base ^ y.d.len =
    ofDigitsBE base y.used * base ^ x.d.len) : y.d.len ≤ x.d.len → y.d.len = x.d.len := by
  intro hle
  by_contra hne
  -- the longer number would end in a zero digit
  obtain ⟨k, hk⟩ : ∃ k, x.d.len = y.d.len + (k + 1) := ⟨x.d.len - y.d.len - 1, by omega⟩
  have hpow : base ^ x.d.len = base ^ (k + 1) * base ^ y.d.len := by
    rw [hk, pow_add, Nat.mul_comm]
  rw [hpow, ← Nat.mul_assoc] at h
  have hmul := Nat.eq_of_mul_eq_mul_right (Nat.pow_pos (by decide)) h
  apply hx.not_dvd
  rw [hmul, pow_succ]
  exact Dvd.intro_left _ (Nat.mul_assoc _ _ _)

/-- The magnitude determines the number of digits. -/
theorem len_eq (hy : y.Normal) (hexp : x.d.getDecodeExp = y.d.getDecodeExp)
    (h : x.magnitude = y.magnitude) : x.d.len = y.d.len := by
  have hmul := mul_pow_eq hexp h
  rcases Nat.le_total x.d.len y.d.len with hle | hle
  · exact hy.len_le_of_mul_pow hmul.symm hle
  · exact (hx.len_le_of_mul_pow hmul hle).symm

theorem used_eq (hy : y.Normal) (hlen : x.d.len = y.d.len)
    (hmul : ofDigitsBE base x.used * base ^ y.d.len =
      ofDigitsBE base y.used * base ^ x.d.len) : x.used = y.used := by
  apply ofDigitsBE_inj (b := base) (by decide)
  · rw [hx.length_used, hy.length_used, hlen]
  · exact fun _ => hx.digit_lt
  · exact fun _ => hy.digit_lt
  · rw [hlen] at hmul
    exact Nat.eq_of_mul_eq_mul_right (Nat.pow_pos (by decide)) hmul

/-- The value determines the sign. -/
theorem sign_eq (hy : y.Normal) (h : x.toRat = y.toRat) : x.d.sign = y.d.sign := by
  have hxpos := hx.magnitude_pos
  have hypos := hy.magnitude_pos
  rw [toRat_eq, toRat_eq] at h
  cases hs : x.d.sign <;> cases hs' : y.d.sign <;>
    simp only [hs, hs', Sign.toRat] at h ⊢ <;> linarith

theorem magnitude_eq (hy : y.Normal) (h : x.toRat = y.toRat) : x.magnitude = y.magnitude := by
  have hsign := hx.sign_eq hy h
  rw [toRat_eq, toRat_eq, hsign] at h
  cases hs : y.d.sign <;> simp only [hs, Sign.toRat] at h <;> linarith

theorem exp_eq (hy : y.Normal) (hsign : x.d.sign = y.d.sign)
    (hexp : x.d.getDecodeExp = y.d.getDecodeExp) : x.d.exp = y.d.exp := by
  cases hs : x.d.sign with
  | positive =>
    rw [ObNumberDesc.getDecodeExp_positive hs,
      ObNumberDesc.getDecodeExp_positive (hsign ▸ hs)] at hexp
    omega
  | negative =>
    rw [ObNumberDesc.getDecodeExp_negative hs hx.exp_lt,
      ObNumberDesc.getDecodeExp_negative (hsign ▸ hs) hy.exp_lt] at hexp
    omega

/-- Numbers in normal form that have one value are equal for `isEqual`. -/
theorem isEqual (hy : y.Normal) (h : x.toRat = y.toRat) : ObNumber.isEqual x y = true := by
  have hmag := hx.magnitude_eq hy h
  have hexp := le_antisymm (hx.getDecodeExp_le hy hmag) (hy.getDecodeExp_le hx hmag.symm)
  have hlen := hx.len_eq hy hexp hmag
  have hsign := hx.sign_eq hy h
  rw [isEqual_iff]
  refine ⟨?_, hlen, hx.used_eq hy hlen (mul_pow_eq hexp hmag)⟩
  exact ObNumberDesc.se_congr hsign (hx.exp_eq hy hsign hexp)

end

theorem toRat_ne_zero (h : x.Normal) : x.toRat ≠ 0 := by
  have hpos := h.magnitude_pos
  rw [toRat_eq]
  cases x.d.sign <;> simp only [Sign.toRat] <;> linarith

end Normal

/-! ### Canonical numbers -/

namespace Canonical

variable {x y : ObNumber}

theorem toRat_of_zero (h : x.d = { len := 0, exp := 0, sign := .positive }) : x.toRat = 0 := by
  rw [toRat, used, h]
  simp

theorem isEqual_of_zero (hx : x.d = { len := 0, exp := 0, sign := .positive })
    (hy : y.d = { len := 0, exp := 0, sign := .positive }) : ObNumber.isEqual x y = true := by
  rw [isEqual_iff, used, used, hx, hy]
  simp

/-- Canonical numbers of the same value are equal. -/
theorem isEqual (hx : x.Canonical) (hy : y.Canonical) (h : x.toRat = y.toRat) :
    ObNumber.isEqual x y = true := by
  rcases hx with hx | hx <;> rcases hy with hy | hy
  · exact isEqual_of_zero hx hy
  · rw [toRat_of_zero hx] at h
    exact absurd h.symm hy.toRat_ne_zero
  · rw [toRat_of_zero hy] at h
    exact absurd h hx.toRat_ne_zero
  · exact hx.isEqual hy h

/-- A canonical number represents its value. -/
theorem represents (hx : x.Canonical) : x.Represents x.toRat := by
  refine ⟨⟨x, hx, rfl⟩, ?_⟩
  intro c hc hval
  have heq := hx.isEqual hc hval.symm
  exact ⟨heq, compare_eq_zero_of_isEqual heq⟩

end Canonical

/-- A number that ends in a zero digit is not equal to a canonical one. -/
theorem Shaped.last_of_isEqual {x c : ObNumber} (hx : x.Shaped) (hc : c.Canonical)
    (h : isEqual x c = true) : x.digits.getD (x.d.len - 1) 0 ≠ 0 := by
  obtain ⟨-, hlen, hused⟩ := isEqual_iff.mp h
  rcases hc with hc | hc
  · have hpos := hx.len_pos
    rw [hlen, hc] at hpos
    exact absurd hpos (Nat.lt_irrefl 0)
  · have hlast := hc.getLast_used
    have hindex : x.used.length - 1 < x.digits.length := by
      rw [hx.length_used]
      have := hx.len_pos
      have := hx.buffer
      omega
    simp only [← hused] at hlast
    rw [getLast_eq_getElem] at hlast
    rw [← hx.length_used, getD_eq_getElem _ _ hindex]
    simpa only [used, getElem_take] using hlast

/-- **Trailing zeros** are all that can keep a number from representing its value. -/
theorem Shaped.represents_iff {x : ObNumber} {v : ℚ} (hx : x.Shaped) (hv : x.toRat = v) :
    x.Represents v ↔ x.digits.getD (x.d.len - 1) 0 ≠ 0 := by
  constructor
  · rintro ⟨⟨c, hc, hcv⟩, hall⟩
    exact hx.last_of_isEqual hc (hall c hc hcv).1
  · intro hlast
    have hcanon : x.Canonical := Or.inr { hx with last := hlast }
    exact hv ▸ hcanon.represents

/-! ### Numbers with digits given -/

section Result

variable {d : ObNumberDesc} {js tail : List ℕ}

theorem used_mk (hlen : d.len = js.length) : used ⟨d, js ++ tail⟩ = js := by
  rw [used, hlen, take_left]

theorem toRat_mk (hlen : d.len = js.length) :
    toRat ⟨d, js ++ tail⟩ =
      d.sign.toRat * ofDigitsBE base js * (base : ℚ) ^ (d.getDecodeExp - js.length + 1) := by
  rw [toRat, used_mk hlen]
  simp only [hlen]

theorem shaped_mk (hlen : d.len = js.length) (hpos : 0 < js.length)
    (hle : js.length ≤ maxStoreLen) (hlt : ∀ c ∈ js, c < base) (hfirst : js.getD 0 0 ≠ 0)
    (hexp : d.exp < 128) (hrange : -15 ≤ d.getDecodeExp ∧ d.getDecodeExp ≤ 14) :
    Shaped ⟨d, js ++ tail⟩ where
  len_pos := hlen ▸ hpos
  len_le := hlen ▸ hle
  buffer := by simp [hlen]
  digit_lt := by
    rw [used_mk hlen]
    exact fun hc => hlt _ hc
  first := by rwa [getD_append _ _ _ _ hpos]
  exp_lt := hexp
  exp_range := hrange

theorem last_mk (hlen : d.len = js.length) (hpos : 0 < js.length) :
    (ObNumber.mk d (js ++ tail)).digits.getD ((ObNumber.mk d (js ++ tail)).d.len - 1) 0 =
      js.getD (js.length - 1) 0 := by
  dsimp only
  rw [hlen, getD_append _ _ _ _ (by omega)]

end Result

end ObNumber

end Andl.Number
