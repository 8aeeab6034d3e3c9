import Andl.Number.Equiv.ObNumber

/-!
# Correctness of comparing absolute values
-/

namespace Andl.Number.ObNumber

open List

/-- The outcome of a comparison: `-1`, `0` or `1`. -/
def cmpSign {α : Type} [LT α] [DecidableEq α] [DecidableLT α] (a b : α) : ℤ :=
  if a < b then -1 else if a = b then 0 else 1

theorem cmpSign_of_lt {α : Type} [LT α] [DecidableEq α] [DecidableLT α] {a b : α} (h : a < b) :
    cmpSign a b = -1 := if_pos h

theorem cmpSign_self {α : Type} [Preorder α] [DecidableEq α] [DecidableLT α] (a : α) :
    cmpSign a a = 0 := by
  simp [cmpSign]

theorem cmpSign_of_gt {α : Type} [Preorder α] [DecidableEq α] [DecidableLT α] {a b : α}
    (h : b < a) : cmpSign a b = 1 := by
  rw [cmpSign, if_neg h.not_gt, if_neg h.ne']

theorem cmpSign_swap {α : Type} [LinearOrder α] (a b : α) : cmpSign a b = -cmpSign b a := by
  rcases lt_trichotomy a b with h | rfl | h
  · rw [cmpSign_of_lt h, cmpSign_of_gt h]
  · rw [cmpSign_self, neg_zero]
  · rw [cmpSign_of_gt h, cmpSign_of_lt h, neg_neg]

/-- An order embedding keeps the outcome. -/
theorem cmpSign_congr {α β : Type} [LinearOrder α] [LinearOrder β] {a b : α} {a' b' : β}
    (hlt : a < b ↔ a' < b') (hgt : b < a ↔ b' < a') : cmpSign a b = cmpSign a' b' := by
  rcases lt_trichotomy a b with h | rfl | h
  · rw [cmpSign_of_lt h, cmpSign_of_lt (hlt.mp h)]
  · have heq : a' = b' := le_antisymm (not_lt.mp fun h => lt_irrefl a (hgt.mpr h))
      (not_lt.mp fun h => lt_irrefl a (hlt.mpr h))
    rw [heq, cmpSign_self, cmpSign_self]
  · rw [cmpSign_of_gt h, cmpSign_of_gt (hgt.mp h)]

theorem cmpSign_mul_pow (a b n : ℕ) : cmpSign (a * base ^ n) (b * base ^ n) = cmpSign a b := by
  have hpos : 0 < base ^ n := Nat.pow_pos (by decide)
  exact cmpSign_congr (Nat.mul_lt_mul_right hpos) (Nat.mul_lt_mul_right hpos)

/-! ### Digits -/

theorem uint32cmp_eq {s1 s2 : List ℕ} {n : ℕ} (h1 : n ≤ s1.length) (h2 : n ≤ s2.length)
    (hlt1 : ∀ c ∈ s1.take n, c < base) (hlt2 : ∀ c ∈ s2.take n, c < base) :
    uint32cmp s1 s2 n = cmpSign (ofDigitsBE base (s1.take n)) (ofDigitsBE base (s2.take n)) := by
  induction n generalizing s1 s2 with
  | zero => simp [uint32cmp, cmpSign]
  | succ n ih =>
    obtain ⟨a, s1, rfl⟩ := exists_cons_of_length_pos (l := s1) (by omega)
    obtain ⟨c, s2, rfl⟩ := exists_cons_of_length_pos (l := s2) (by omega)
    simp only [length_cons, Nat.add_le_add_iff_right] at h1 h2
    simp only [take_succ_cons, forall_mem_cons] at hlt1 hlt2
    have hlen1 : (s1.take n).length = n := by simp [h1]
    have hlen2 : (s2.take n).length = n := by simp [h2]
    have hval1 := ofDigitsBE_lt (b := base) (by decide) hlt1.2
    have hval2 := ofDigitsBE_lt (b := base) (by decide) hlt2.2
    rw [hlen1] at hval1
    rw [hlen2] at hval2
    simp only [uint32cmp, take_succ_cons, ofDigitsBE_cons, hlen1, hlen2]
    rcases Nat.lt_trichotomy a c with hac | rfl | hac
    · -- the first digits decide
      have hmul := Nat.mul_le_mul_right (base ^ n) (show a + 1 ≤ c from hac)
      rw [if_pos hac, cmpSign_of_lt]
      linarith
    · rw [if_neg (lt_irrefl a), if_neg (lt_irrefl a), ih h1 h2 hlt1.2 hlt2.2]
      simp [cmpSign]
    · have hmul := Nat.mul_le_mul_right (base ^ n) (show c + 1 ≤ a from hac)
      rw [if_neg (by omega), if_pos hac, cmpSign_of_gt]
      linarith

/-- What `compare` makes of the digits. -/
def digitCmp (x y : ObNumber) : ℤ :=
  if x.d.len = y.d.len then uint32cmp x.digits y.digits x.d.len
  else if x.d.len < y.d.len then
    if uint32cmp x.digits y.digits x.d.len = 0 then -1
    else uint32cmp x.digits y.digits x.d.len
  else
    if uint32cmp x.digits y.digits y.d.len = 0 then 1
    else uint32cmp x.digits y.digits y.d.len

theorem compare_eq (x y : ObNumber) :
    compare x y =
      if x.d.se = y.d.se then if x.d.sign = .negative then -digitCmp x y else digitCmp x y
      else if x.d.se < y.d.se then -1 else 1 := rfl

/-- A number against one with more digits. -/
theorem cmpSign_of_shorter {N P S k : ℕ} (hS0 : 0 < S) (hS : S < base ^ k) :
    (if cmpSign N P = 0 then -1 else cmpSign N P) = cmpSign (N * base ^ k) (P * base ^ k + S) := by
  rcases Nat.lt_trichotomy N P with hlt | rfl | hgt
  · have hmul := Nat.mul_le_mul_right (base ^ k) (show N + 1 ≤ P from hlt)
    rw [cmpSign_of_lt hlt, cmpSign_of_lt]
    · decide
    · linarith
  · rw [cmpSign_self, if_pos rfl, cmpSign_of_lt]
    omega
  · have hmul := Nat.mul_le_mul_right (base ^ k) (show P + 1 ≤ N from hgt)
    rw [cmpSign_of_gt hgt, cmpSign_of_gt]
    · decide
    · linarith

theorem cmpSign_of_longer {N P S k : ℕ} (hS0 : 0 < S) (hS : S < base ^ k) :
    (if cmpSign P N = 0 then 1 else cmpSign P N) = cmpSign (P * base ^ k + S) (N * base ^ k) := by
  rw [cmpSign_swap (P * base ^ k + S), ← cmpSign_of_shorter hS0 hS, cmpSign_swap P N]
  simp only [neg_eq_zero]
  split_ifs <;> simp

namespace Normal

variable {x y : ObNumber}

section

variable (hx : x.Normal)
include hx

/-- The digits after the first `n`. -/
theorem exists_suffix {n : ℕ} (hn : n < x.d.len) :
    ∃ S, 0 < S ∧ S < base ^ (x.d.len - n) ∧
      ofDigitsBE base x.used =
        ofDigitsBE base (x.digits.take n) * base ^ (x.d.len - n) + S := by
  have hsplit : x.used = x.digits.take n ++ x.used.drop n := by
    conv_lhs => rw [← take_append_drop n x.used]
    rw [used, take_take, Nat.min_eq_left hn.le]
  have hlen : (x.used.drop n).length = x.d.len - n := by
    rw [length_drop, hx.length_used]
  have hne : x.used.drop n ≠ [] := ne_nil_of_length_pos (by omega)
  refine ⟨ofDigitsBE base (x.used.drop n), ?_, ?_, ?_⟩
  · apply ofDigitsBE_pos_of_getLast hne
    rw [getLast_drop]
    exact hx.getLast_used
  · rw [← hlen]
    exact ofDigitsBE_lt (by decide) fun c hc => hx.digit_lt (mem_of_mem_drop hc)
  · conv_lhs => rw [hsplit]
    rw [ofDigitsBE_append, hlen]

theorem take_digit_lt {n : ℕ} (hn : n ≤ x.d.len) : ∀ c ∈ x.digits.take n, c < base := by
  intro c hc
  apply hx.digit_lt
  rw [used]
  exact (take_subset_take_left _ hn) hc

/-- The digits compare like integers with the same number of digits. -/
theorem digitCmp_eq (hy : y.Normal) :
    digitCmp x y =
      cmpSign (ofDigitsBE base x.used * base ^ y.d.len)
        (ofDigitsBE base y.used * base ^ x.d.len) := by
  have hxbuf := hx.buffer
  have hybuf := hy.buffer
  unfold digitCmp
  rcases Nat.lt_trichotomy x.d.len y.d.len with hlt | heq | hgt
  · obtain ⟨S, hS0, hS, hval⟩ := hy.exists_suffix hlt
    have hpow : base ^ y.d.len = base ^ (y.d.len - x.d.len) * base ^ x.d.len := by
      rw [← pow_add, Nat.sub_add_cancel hlt.le]
    rw [if_neg hlt.ne, if_pos hlt, uint32cmp_eq hxbuf (by omega) (hx.take_digit_lt (le_refl _))
      (hy.take_digit_lt hlt.le), cmpSign_of_shorter hS0 hS, ← hval, hpow, ← Nat.mul_assoc,
      cmpSign_mul_pow]
    rfl
  · rw [if_pos heq, uint32cmp_eq hxbuf (by omega) (hx.take_digit_lt (le_refl _))
      (hy.take_digit_lt heq.le), ← heq, cmpSign_mul_pow, used, used, heq]
  · obtain ⟨S, hS0, hS, hval⟩ := hx.exists_suffix hgt
    have hpow : base ^ x.d.len = base ^ (x.d.len - y.d.len) * base ^ y.d.len := by
      rw [← pow_add, Nat.sub_add_cancel hgt.le]
    rw [if_neg hgt.ne', if_neg hgt.not_gt, uint32cmp_eq (by omega) hybuf
      (hx.take_digit_lt hgt.le) (hy.take_digit_lt (le_refl _)), cmpSign_of_longer hS0 hS, ← hval,
      hpow, ← Nat.mul_assoc, cmpSign_mul_pow]
    rfl

/-- With one exponent, the digits compare like the magnitudes. -/
theorem digitCmp_of_exp_eq (hy : y.Normal) (hexp : x.d.getDecodeExp = y.d.getDecodeExp) :
    digitCmp x y = cmpSign x.magnitude y.magnitude := by
  rw [hx.digitCmp_eq hy]
  have hpos : (0 : ℚ) < (base : ℚ) ^ ((x.d.len : ℤ) + y.d.len - x.d.getDecodeExp - 1) :=
    zpow_pos base_pos _
  have hxs := magnitude_mul_zpow x y.d.len
  have hys := magnitude_mul_zpow y x.d.len
  rw [← hexp, show (y.d.len : ℤ) + x.d.len = x.d.len + y.d.len by ring] at hys
  apply cmpSign_congr
  · rw [← mul_lt_mul_iff_left₀ hpos, hxs, hys, Nat.cast_lt]
  · rw [← mul_lt_mul_iff_left₀ hpos, hxs, hys, Nat.cast_lt]

/-- A larger exponent is a larger magnitude. -/
theorem magnitude_lt_of_exp_lt (hy : y.Normal)
    (hexp : x.d.getDecodeExp < y.d.getDecodeExp) : x.magnitude < y.magnitude := by
  calc x.magnitude < (base : ℚ) ^ (x.d.getDecodeExp + 1) := hx.magnitude_bounds.2
    _ ≤ (base : ℚ) ^ y.d.getDecodeExp := zpow_le_zpow_right₀ one_lt_base.le (by omega)
    _ ≤ y.magnitude := hy.magnitude_bounds.1

theorem compare_positive (hy : y.Normal) (hsx : x.d.sign = .positive)
    (hsy : y.d.sign = .positive) : compare x y = cmpSign x.magnitude y.magnitude := by
  have hex := ObNumberDesc.getDecodeExp_positive hsx
  have hey := ObNumberDesc.getDecodeExp_positive hsy
  have hsex : x.d.se = 0x80 + x.d.exp := by simp [ObNumberDesc.se, hsx]
  have hsey : y.d.se = 0x80 + y.d.exp := by simp [ObNumberDesc.se, hsy]
  rw [compare_eq, hsex, hsey]
  rcases Nat.lt_trichotomy x.d.exp y.d.exp with hlt | heq | hgt
  · rw [if_neg (by omega), if_pos (by omega),
      cmpSign_of_lt (hx.magnitude_lt_of_exp_lt hy (by omega))]
  · rw [if_pos (by omega), if_neg (by simp [hsx]), hx.digitCmp_of_exp_eq hy (by omega)]
  · rw [if_neg (by omega), if_neg (by omega),
      cmpSign_of_gt (hy.magnitude_lt_of_exp_lt hx (by omega))]

theorem compare_negative (hy : y.Normal) (hsx : x.d.sign = .negative)
    (hsy : y.d.sign = .negative) : compare x y = -cmpSign x.magnitude y.magnitude := by
  have hex := ObNumberDesc.getDecodeExp_negative hsx hx.exp_lt
  have hey := ObNumberDesc.getDecodeExp_negative hsy hy.exp_lt
  have hsex : x.d.se = x.d.exp := by simp [ObNumberDesc.se, hsx]
  have hsey : y.d.se = y.d.exp := by simp [ObNumberDesc.se, hsy]
  rw [compare_eq, hsex, hsey]
  rcases Nat.lt_trichotomy x.d.exp y.d.exp with hlt | heq | hgt
  · rw [if_neg (by omega), if_pos (by omega),
      cmpSign_of_gt (hy.magnitude_lt_of_exp_lt hx (by omega))]
  · rw [if_pos (by omega), if_pos hsx, hx.digitCmp_of_exp_eq hy (by omega)]
  · rw [if_neg (by omega), if_neg (by omega),
      cmpSign_of_lt (hx.magnitude_lt_of_exp_lt hy (by omega)), neg_neg]

/-! ### Absolute values -/

/-- The opposite of a negative number keeps digits and exponent. -/
theorem negate_spec (hs : x.d.sign = .negative) :
    x.negate.Normal ∧ x.negate.d.sign = .positive ∧ x.negate.magnitude = x.magnitude := by
  have hex := ObNumberDesc.getDecodeExp_negative hs hx.exp_lt
  have hrange := hx.exp_range
  have heq : x.negate =
      ⟨{ len := x.d.len, exp := 128 - x.d.exp, sign := .positive }, x.digits⟩ := by
    have hcompl : ObNumberDesc.complementExp x.d.exp = 128 - x.d.exp := by
      unfold ObNumberDesc.complementExp
      omega
    unfold negate
    rw [hx.isZero_eq, if_neg (by simp), hcompl, hs]
    rfl
  have hexp : x.negate.d.getDecodeExp = x.d.getDecodeExp := by
    rw [ObNumberDesc.getDecodeExp_positive (by rw [heq]), hex, heq]
    push_cast [show x.d.exp ≤ 128 by omega]
    ring
  have hlen : x.negate.d.len = x.d.len := by rw [heq]
  have hdigits : x.negate.digits = x.digits := by rw [heq]
  have hused : x.negate.used = x.used := by rw [used, used, hlen, hdigits]
  refine ⟨?_, by rw [heq], ?_⟩
  · exact
      { len_pos := hlen ▸ hx.len_pos
        len_le := hlen ▸ hx.len_le
        buffer := by rw [hlen, hdigits]; exact hx.buffer
        digit_lt := by rw [hused]; exact hx.digit_lt
        first := by rw [hdigits]; exact hx.first
        exp_lt := by rw [heq]; show 128 - x.d.exp < 128; omega
        exp_range := by rw [hexp]; exact hrange
        last := by rw [hlen, hdigits]; exact hx.last }
  · rw [magnitude, magnitude, hused, hexp, hlen]

/-- **`absCompare`** compares magnitudes. -/
theorem absCompare_eq (hy : y.Normal) : absCompare x y = cmpSign x.magnitude y.magnitude := by
  unfold absCompare
  cases hsx : x.d.sign <;> cases hsy : y.d.sign <;> dsimp only
  · rw [hx.compare_negative hy hsx hsy, neg_neg]
  · obtain ⟨hn, hsn, hmag⟩ := hx.negate_spec hsx
    rw [hn.compare_positive hy hsn hsy, hmag]
  · obtain ⟨hn, hsn, hmag⟩ := hy.negate_spec hsy
    rw [hx.compare_positive hn hsx hsn, hmag]
  · exact hx.compare_positive hy hsx hsy

end

end Normal

end Andl.Number.ObNumber
