import Andl.Number.Equiv.RoundScale

/-!
# Truncating to a scale is exact
-/

namespace Andl.Number

open List

namespace ObNumber

variable {x : ObNumber} {s : ℤ}

/-! ### The digits on both sides of the point -/

/-- How many digits there are before the point. -/
def integerLength (x : ObNumber) : ℕ := (x.d.getDecodeExp + 1).toNat

/-- The digits before the point. -/
def integerDigits (x : ObNumber) : List ℕ :=
  x.used.take x.integerLength ++ List.replicate (x.integerLength - x.d.len) 0

/-- The digits behind the point. -/
def decimalDigits (x : ObNumber) : List ℕ :=
  List.replicate (-(x.d.getDecodeExp + 1)).toNat 0 ++ x.used.drop x.integerLength

theorem length_integerDigits (h : x.Normal) : x.integerDigits.length = x.integerLength := by
  rw [integerDigits, length_append, length_take, length_replicate, h.length_used]
  omega

theorem length_decimalDigits (h : x.Normal) :
    x.decimalDigits.length = (-(x.d.getDecodeExp + 1)).toNat + (x.d.len - x.integerLength) := by
  rw [decimalDigits, length_append, length_replicate, length_drop, h.length_used]

theorem digits_lt (h : x.Normal) : ∀ c ∈ x.integerDigits ++ x.decimalDigits, c < base := by
  intro c hc
  simp only [integerDigits, decimalDigits, mem_append, mem_replicate] at hc
  rcases hc with (hc | ⟨-, rfl⟩) | ⟨-, rfl⟩ | hc
  · exact h.digit_lt (mem_of_mem_take hc)
  · decide
  · decide
  · exact h.digit_lt (mem_of_mem_drop hc)

/-- The digits on both sides make the number. -/
theorem magnitude_eq_digits (h : x.Normal) :
    x.magnitude = ofDigitsBE base (x.integerDigits ++ x.decimalDigits) *
      (base : ℚ) ^ (-(x.decimalDigits.length : ℤ)) := by
  rw [length_decimalDigits h, magnitude]
  rcases lt_or_ge x.d.getDecodeExp 0 with hneg | hpos
  · have hzero : x.integerLength = 0 := by
      unfold integerLength
      omega
    have hdigits : x.integerDigits ++ x.decimalDigits =
        List.replicate (-(x.d.getDecodeExp + 1)).toNat 0 ++ x.used := by
      simp [integerDigits, decimalDigits, hzero]
    rw [hdigits, ofDigitsBE_append, ofDigitsBE_replicate_zero, zero_mul, zero_add, hzero]
    congr 2
    omega
  · have hnone : (-(x.d.getDecodeExp + 1)).toNat = 0 := by omega
    rcases le_total x.integerLength x.d.len with hle | hle
    · have hdigits : x.integerDigits ++ x.decimalDigits = x.used := by
        rw [integerDigits, decimalDigits, hnone, Nat.sub_eq_zero_of_le hle]
        simp
      rw [hdigits, hnone]
      congr 2
      unfold integerLength at hle ⊢
      omega
    · have hdigits : x.integerDigits ++ x.decimalDigits =
          x.used ++ List.replicate (x.integerLength - x.d.len) 0 := by
        have hlen := h.length_used
        rw [integerDigits, decimalDigits, hnone, take_of_length_le (by omega),
          drop_eq_nil_of_le (by omega)]
        simp
      rw [hdigits, ofDigitsBE_append, ofDigitsBE_replicate_zero, length_replicate, add_zero,
        hnone, Nat.sub_eq_zero_of_le hle]
      push_cast
      rw [mul_assoc, ← zpow_natCast, ← zpow_add₀ base_pos.ne']
      congr 2
      unfold integerLength at hle ⊢
      omega

/-- **Cutting the digits** behind the `j` first ones rounds down. -/
theorem floor_magnitude (h : x.Normal) {j : ℕ}
    (hj : j ≤ (x.integerDigits ++ x.decimalDigits).length) :
    ⌊x.magnitude / (base : ℚ) ^ ((x.integerLength : ℤ) - j)⌋ =
      ofDigitsBE base ((x.integerDigits ++ x.decimalDigits).take j) := by
  have hall := digits_lt h
  have hvalue := magnitude_eq_digits h
  have hlen : (x.integerDigits ++ x.decimalDigits).length =
      x.integerLength + x.decimalDigits.length := by
    rw [length_append, length_integerDigits h]
  generalize x.integerDigits ++ x.decimalDigits = gs at hall hvalue hlen hj
  have hdrop : (gs.drop j).length = gs.length - j := length_drop
  have hscaled : x.magnitude / (base : ℚ) ^ ((x.integerLength : ℤ) - j) =
      (ofDigitsBE base (gs.take j ++ gs.drop j) : ℚ) / (base : ℚ) ^ (gs.drop j).length := by
    rw [take_append_drop, hdrop, hvalue, mul_div_assoc, ← zpow_sub₀ base_pos.ne',
      div_eq_mul_inv, ← zpow_natCast, ← zpow_neg]
    congr 2
    omega
  rw [hscaled]
  exact floor_ofDigitsBE (by decide) fun c hc => hall c (mem_of_mem_drop hc)

/-! ### Reading the digits -/

/-- The iterator over `x`, at the digit `idx` with `iter_exp_` at `exp`. -/
def iterAt (x : ObNumber) (idx : ℕ) (exp : ℤ) : ObDigitIterator := ⟨idx, x.d.len, exp, x⟩

variable {idx q t : ℕ} {w : ℤ} {ds : List ℕ}

theorem getDigit_iterAt (h : x.Normal) (hidx : idx < x.d.len) (exp : ℤ) :
    (iterAt x idx exp).getDigit idx = .ok (x.digits.getD idx 0) := by
  have hbuf := h.buffer
  have hne : x.digits ≠ [] := by
    rintro hnil
    rw [hnil, length_nil] at hbuf
    omega
  have hmem : x.digits.getD idx 0 ∈ x.used := by
    have htake := take_succ_used hidx hbuf
    exact mem_of_mem_take (i := idx + 1) (htake ▸ by simp)
  have hlt := h.digit_lt hmem
  unfold ObDigitIterator.getDigit iterAt
  rw [if_neg hne, if_neg (not_le.mpr hlt)]

/-- A digit before the point. -/
theorem getNextDigit_integer (h : x.Normal) (idx n : ℕ) :
    (iterAt x idx n).getNextDigit =
      .ok (x.used.getD idx 0, true, iterAt x (if idx < x.d.len then idx + 1 else idx) (n - 1)) := by
  have hlen := h.length_used
  unfold ObDigitIterator.getNextDigit
  rw [if_pos (show (0 : ℤ) ≤ (iterAt x idx n).iterExp from Int.natCast_nonneg n)]
  by_cases hidx : idx < x.d.len
  · rw [if_pos (show (iterAt x idx n).iterIdx < (iterAt x idx n).iterLen from hidx), if_pos hidx]
    have hget : x.used.getD idx 0 = x.digits.getD idx 0 := by
      rw [used, getD_eq_getElem?_getD, getElem?_take_of_lt hidx,
        ← getD_eq_getElem?_getD]
    have hdigit : (iterAt x idx n).getDigit (iterAt x idx n).iterIdx = .ok (x.digits.getD idx 0) :=
      getDigit_iterAt h hidx n
    rw [hdigit, hget]
    rfl
  · rw [if_neg (show ¬ (iterAt x idx n).iterIdx < (iterAt x idx n).iterLen from hidx), if_neg hidx,
      getD_eq_default _ _ (by omega)]
    rfl

/-- A zero between the point and the first digit. -/
theorem getNextDigit_zero {exp : ℤ} (hexp : exp < -1) :
    (iterAt x idx exp).getNextDigit = .ok (0, false, iterAt x idx (exp + 1)) := by
  unfold ObDigitIterator.getNextDigit iterAt
  dsimp only
  rw [if_neg (by omega), if_neg (by omega)]

/-- A digit behind the point. -/
theorem getNextDigit_decimal (h : x.Normal) (hidx : idx < x.d.len) :
    (iterAt x idx (-1)).getNextDigit =
      .ok (x.digits.getD idx 0, false, iterAt x (idx + 1) (-1)) := by
  have hdigit : (iterAt x idx (-1)).getDigit (iterAt x idx (-1)).iterIdx =
      .ok (x.digits.getD idx 0) := getDigit_iterAt h hidx (-1)
  unfold ObDigitIterator.getNextDigit
  rw [if_neg (show ¬ (0 : ℤ) ≤ (iterAt x idx (-1)).iterExp from (by decide : ¬ (0 : ℤ) ≤ -1)),
    if_pos (show -1 = (iterAt x idx (-1)).iterExp from rfl),
    if_neg (show ¬ (iterAt x idx (-1)).iterIdx ≥ (iterAt x idx (-1)).iterLen from not_le.mpr hidx),
    hdigit]
  rfl

theorem getNextDigit_end (hidx : x.d.len ≤ idx) :
    (iterAt x idx (-1)).getNextDigit = .error .iterEnd := by
  unfold ObDigitIterator.getNextDigit iterAt
  dsimp only
  rw [if_neg (by decide), if_pos rfl, if_pos hidx]

section Loop

variable {it it' : ObDigitIterator} {digit : ℕ} {st : TruncState}

theorem truncLoop_end (h : it.getNextDigit = .error .iterEnd) :
    truncLoop s false it st = .ok st := by
  rw [truncLoop]
  split
  · rfl
  · next e hne heq => exact absurd (Except.error.inj (heq.symm.trans h)) hne
  · next heq => exact absurd (heq.symm.trans h) (by simp)

theorem truncLoop_integer (h : it.getNextDigit = .ok (digit, true, it'))
    (hint : st.integerDigits.length < maxCalcLen) (hdec : st.decimalDigits.length < maxCalcLen) :
    truncLoop s false it st =
      truncLoop s false it'
        { st with
          integerDigits := st.integerDigits ++ [digit]
          integerCounter := st.integerCounter +
            if st.integerDigits = [] then getDigitLen digit else digitLen } := by
  rw [truncLoop]
  split
  · next heq => exact absurd (heq.symm.trans h) (by simp)
  · next heq => exact absurd (heq.symm.trans h) (by simp)
  · next heq =>
    obtain ⟨rfl, rfl, rfl⟩ := Prod.mk.injEq .. ▸ Prod.mk.injEq .. ▸ Except.ok.inj (heq.symm.trans h)
    rw [if_neg (by omega), if_pos rfl]

theorem truncLoop_decimal (h : it.getNextDigit = .ok (digit, false, it'))
    (hint : st.integerDigits.length < maxCalcLen) (hdec : st.decimalDigits.length < maxCalcLen) :
    truncLoop s false it st =
      if 0 ≤ s then
        if (((st.decimalDigits ++ [digit]).length * digitLen : ℕ) : ℤ) > s then
          .ok { st with decimalDigits := st.decimalDigits ++ [digit] }
        else truncLoop s false it' { st with decimalDigits := st.decimalDigits ++ [digit] }
      else .ok st := by
  rw [truncLoop]
  split
  · next heq => exact absurd (heq.symm.trans h) (by simp)
  · next heq => exact absurd (heq.symm.trans h) (by simp)
  · next heq =>
    obtain ⟨rfl, rfl, rfl⟩ := Prod.mk.injEq .. ▸ Prod.mk.injEq .. ▸ Except.ok.inj (heq.symm.trans h)
    rw [if_neg (by omega), if_neg (by decide)]
    simp only [Bool.false_eq_true, false_and, if_false]

/-- The digits behind the point are read up to the group with the last decimal of the scale. -/
def scaleGroups (s : ℤ) : ℕ := (s / 9 + 1).toNat

/-- The loop still reads, or will read nothing behind the point. -/
def Reading (s : ℤ) (st : TruncState) : Prop :=
  st.decimalDigits.length < scaleGroups s ∨ st.decimalDigits = [] ∧ scaleGroups s = 0

theorem truncLoop_decimal_eq (h : it.getNextDigit = .ok (digit, false, it'))
    (hint : st.integerDigits.length < maxCalcLen) (hdec : st.decimalDigits.length < maxCalcLen)
    (hread : Reading s st) {ds : List ℕ}
    (hrest : Reading s { st with decimalDigits := st.decimalDigits ++ [digit] } →
      truncLoop s false it' { st with decimalDigits := st.decimalDigits ++ [digit] } =
        .ok { st with
          decimalDigits := (st.decimalDigits ++ [digit] ++ ds).take (scaleGroups s) }) :
    truncLoop s false it st =
      .ok { st with decimalDigits := (st.decimalDigits ++ digit :: ds).take (scaleGroups s) } := by
  have hsplit : st.decimalDigits ++ digit :: ds = st.decimalDigits ++ [digit] ++ ds := by simp
  have hlen : (st.decimalDigits ++ [digit]).length = st.decimalDigits.length + 1 := by simp
  rw [truncLoop_decimal h hint hdec, hlen]
  unfold digitLen
  by_cases hs : 0 ≤ s
  · have hlt : st.decimalDigits.length < scaleGroups s := by
      rcases hread with hlt | ⟨-, hzero⟩
      · exact hlt
      · unfold scaleGroups at hzero
        omega
    rw [if_pos hs]
    by_cases hlast : (((st.decimalDigits.length + 1) * 9 : ℕ) : ℤ) > s
    · have hgroups : scaleGroups s = (st.decimalDigits ++ [digit]).length := by
        rw [hlen]
        unfold scaleGroups at hlt ⊢
        omega
      rw [if_pos hlast, hsplit, hgroups, take_left]
    · rw [if_neg hlast, hsplit]
      refine hrest (.inl ?_)
      dsimp only
      rw [hlen]
      unfold scaleGroups
      omega
  · have hzero : scaleGroups s = 0 := by
      unfold scaleGroups
      omega
    have hnil : st.decimalDigits = [] := by
      rcases hread with hlt | ⟨hnil, -⟩
      · omega
      · exact hnil
    rw [if_neg hs, hzero, take_zero, ← hnil]

theorem truncLoop_decimals (h : x.Normal) (st : TruncState) {idx : ℕ} (hidx : idx ≤ x.d.len)
    (hint : st.integerDigits.length < maxCalcLen)
    (hdec : st.decimalDigits.length + (x.d.len - idx) < maxCalcLen) (hread : Reading s st) :
    truncLoop s false (iterAt x idx (-1)) st =
      .ok { st with
        decimalDigits := (st.decimalDigits ++ x.used.drop idx).take (scaleGroups s) } := by
  induction hn : x.d.len - idx generalizing idx st with
  | zero =>
    have hlen := h.length_used
    rw [truncLoop_end (getNextDigit_end (by omega)), drop_eq_nil_of_le (by omega),
      append_nil]
    rcases hread with hlt | ⟨hnil, hzero⟩
    · rw [take_of_length_le hlt.le]
    · rw [hzero, take_zero, ← hnil]
  | succ n ih =>
    have hlen := h.length_used
    have hbuf := h.buffer
    have hcons : x.used.drop idx = x.digits.getD idx 0 :: x.used.drop (idx + 1) := by
      rw [drop_eq_getElem_cons (by omega), getD_eq_getElem _ _ (by omega)]
      simp only [used, getElem_take]
    rw [hcons]
    refine truncLoop_decimal_eq (getNextDigit_decimal h (by omega)) hint (by omega) hread
      fun hread' => ?_
    exact ih _ (by omega) hint (by simp; omega) hread' (by omega)

theorem truncLoop_zeros (h : x.Normal) (st : TruncState) (j : ℕ)
    (hint : st.integerDigits.length < maxCalcLen)
    (hdec : st.decimalDigits.length + j + x.d.len < maxCalcLen) (hread : Reading s st) :
    truncLoop s false (iterAt x 0 (-1 - j)) st =
      .ok { st with
        decimalDigits :=
          (st.decimalDigits ++ (List.replicate j 0 ++ x.used)).take (scaleGroups s) } := by
  induction j generalizing st with
  | zero =>
    rw [Nat.cast_zero, sub_zero, List.replicate_zero, nil_append]
    exact truncLoop_decimals h st (Nat.zero_le _) hint (by omega) hread
  | succ j ih =>
    rw [replicate_succ, cons_append]
    have hnext : (iterAt x 0 (-1 - ((j + 1 : ℕ) : ℤ))).getNextDigit =
        .ok (0, false, iterAt x 0 (-1 - (j : ℤ))) := by
      rw [getNextDigit_zero (by push_cast; omega)]
      congr 4
      push_cast
      ring
    exact truncLoop_decimal_eq hnext hint (by omega) hread
      fun hread' => ih _ hint (by simp; omega) hread'

/-- The digits before the point are read to the last one. -/
theorem truncLoop_integers (h : x.Normal) (st : TruncState) {idx : ℕ} (n : ℕ) (hidx : idx ≤ x.d.len)
    (hint : st.integerDigits.length + n < maxCalcLen)
    (hdec : st.decimalDigits.length < maxCalcLen) :
    ∃ st', truncLoop s false (iterAt x idx (n - 1)) st =
        truncLoop s false (iterAt x (min (idx + n) x.d.len) (-1)) st' ∧
      st'.integerDigits = st.integerDigits ++
        ((x.used.drop idx).take n ++ List.replicate (n - (x.d.len - idx)) 0) ∧
      st'.decimalDigits = st.decimalDigits := by
  have hlen := h.length_used
  induction n generalizing idx st with
  | zero =>
    refine ⟨st, ?_, by simp, rfl⟩
    rw [Nat.add_zero, Nat.min_eq_left hidx]
    rfl
  | succ n ih =>
    rw [show ((n + 1 : ℕ) : ℤ) - 1 = n by push_cast; ring,
      truncLoop_integer (getNextDigit_integer h idx n) (by omega) hdec]
    by_cases hlt : idx < x.d.len
    · rw [if_pos hlt]
      obtain ⟨st', heq, hdigits, hsame⟩ := ih
        { st with
          integerDigits := st.integerDigits ++ [x.used.getD idx 0]
          integerCounter := st.integerCounter +
            if st.integerDigits = [] then getDigitLen (x.used.getD idx 0) else digitLen }
        (show idx + 1 ≤ x.d.len by omega) (by simp; omega) hdec
      refine ⟨st', ?_, ?_, hsame⟩
      · rw [heq, show idx + 1 + n = idx + (n + 1) by omega]
      · rw [hdigits, append_assoc,
          drop_eq_getElem_cons (show idx < x.used.length by omega), take_succ_cons,
          getD_eq_getElem _ _ (by omega),
          show n + 1 - (x.d.len - idx) = n - (x.d.len - (idx + 1)) by omega]
        rfl
    · rw [if_neg hlt]
      obtain ⟨st', heq, hdigits, hsame⟩ := ih
        { st with
          integerDigits := st.integerDigits ++ [x.used.getD idx 0]
          integerCounter := st.integerCounter +
            if st.integerDigits = [] then getDigitLen (x.used.getD idx 0) else digitLen }
        hidx (by simp; omega) hdec
      refine ⟨st', ?_, ?_, hsame⟩
      · rw [heq, Nat.min_eq_right (by omega), Nat.min_eq_right (by omega)]
      · rw [hdigits, append_assoc, getD_eq_default _ _ (by omega),
          drop_eq_nil_of_le (by omega), show n + 1 - (x.d.len - idx) = n + 1 by omega,
          show n - (x.d.len - idx) = n by omega, replicate_succ]
        simp

/-- **The loop** reads the digits before the point, and behind it as many as the scale needs. -/
theorem truncLoop_eq (h : x.Normal) :
    ∃ st, truncLoop s false (.assign x) {} = .ok st ∧ st.integerDigits = x.integerDigits ∧
      st.decimalDigits = x.decimalDigits.take (scaleGroups s) := by
  have hrange := h.exp_range
  have hmax := h.len_le
  unfold maxStoreLen at hmax
  have hread (st : TruncState) (hst : st.decimalDigits = []) : Reading s st := by
    rcases Nat.eq_zero_or_pos (scaleGroups s) with hzero | hpos
    · exact .inr ⟨hst, hzero⟩
    · exact .inl (hst ▸ hpos)
  rcases lt_or_ge x.d.getDecodeExp 0 with hneg | hpos
  · obtain ⟨j, hj⟩ : ∃ j : ℕ, x.d.getDecodeExp = -1 - j :=
      ⟨(-1 - x.d.getDecodeExp).toNat, by omega⟩
    have hloop := truncLoop_zeros (s := s) h {} j (by decide)
      (show 0 + j + x.d.len < maxCalcLen by unfold maxCalcLen; omega) (hread {} rfl)
    have hzero : x.integerLength = 0 := by
      unfold integerLength
      omega
    have hstart : truncLoop s false (.assign x) {} =
        truncLoop s false (iterAt x 0 (-1 - j)) {} := by
      rw [← hj]
      rfl
    refine ⟨_, hstart.trans hloop, ?_, ?_⟩
    · simp [integerDigits, hzero]
    · rw [decimalDigits, hzero, drop_zero, nil_append,
        show (-(x.d.getDecodeExp + 1)).toNat = j by omega]
  · have hn : x.d.getDecodeExp = (x.integerLength : ℤ) - 1 := by
      unfold integerLength
      omega
    obtain ⟨st', hloop, hint, hdec⟩ := truncLoop_integers (s := s) h {} x.integerLength
      (Nat.zero_le _)
      (show 0 + x.integerLength < maxCalcLen by unfold maxCalcLen; omega) (by decide)
    have hint' : st'.integerDigits = x.integerDigits := by
      rw [hint, integerDigits, Nat.sub_zero, drop_zero]
      rfl
    have hdecimals := truncLoop_decimals (s := s) h st'
      (Nat.min_le_right (0 + x.integerLength) x.d.len)
      (by rw [hint', length_integerDigits h]; unfold maxCalcLen; omega)
      (by rw [hdec]; show 0 + _ < maxCalcLen; unfold maxCalcLen; omega) (hread st' hdec)
    have hstart : truncLoop s false (.assign x) {} =
        truncLoop s false (iterAt x (min (0 + x.integerLength) x.d.len) (-1)) st' := by
      rw [← hloop, ← hn]
      rfl
    refine ⟨_, hstart.trans hdecimals, hint', ?_⟩
    · have hdrop : x.used.drop (min (0 + x.integerLength) x.d.len) =
          x.used.drop x.integerLength := by
        have hlen := h.length_used
        rcases le_total x.integerLength x.d.len with hle | hle
        · rw [Nat.zero_add, Nat.min_eq_left hle]
        · rw [Nat.zero_add, Nat.min_eq_right hle, drop_eq_nil_of_le (by omega),
            drop_eq_nil_of_le (by omega)]
      rw [decimalDigits, show (-(x.d.getDecodeExp + 1)).toNat = 0 by omega, hdec, hdrop]
      rfl

end Loop

/-! ### Building the number again -/

/-- A magnitude that is zero or of the order of `x`, and has no digits behind the last one of `x`.
-/
structure Truncated (x : ObNumber) (v : ℚ) : Prop where
  lower : v = 0 ∨ (base : ℚ) ^ x.d.getDecodeExp ≤ v
  upper : v < (base : ℚ) ^ (x.d.getDecodeExp + 1)
  dvd : ∃ m : ℕ, v = m * (base : ℚ) ^ (x.d.getDecodeExp - x.d.len + 1)

/-- The digits of a truncated number start at the exponent. -/
theorem Truncated.exp_eq {c : ℕ} {cs : List ℕ}
    (h : Truncated x (ofDigitsBE base (c :: cs) * (base : ℚ) ^ w)) (hc : c ≠ 0)
    (hlt : ∀ a ∈ c :: cs, a < base) : x.d.getDecodeExp = cs.length + w := by
  have hw : (0 : ℚ) < (base : ℚ) ^ w := zpow_pos base_pos _
  have hlow : (base : ℚ) ^ ((cs.length : ℤ) + w) ≤
      ofDigitsBE base (c :: cs) * (base : ℚ) ^ w := by
    rw [zpow_add₀ base_pos.ne', zpow_natCast]
    have hle : ((base ^ cs.length : ℕ) : ℚ) ≤ ofDigitsBE base (c :: cs) :=
      Nat.cast_le.mpr (pow_le_ofDigitsBE hc)
    push_cast at hle
    exact mul_le_mul_of_nonneg_right hle hw.le
  have hhigh : ofDigitsBE base (c :: cs) * (base : ℚ) ^ w <
      (base : ℚ) ^ ((cs.length : ℤ) + w + 1) := by
    have hlt' : (ofDigitsBE base (c :: cs) : ℚ) < ((base ^ (cs.length + 1) : ℕ) : ℚ) :=
      Nat.cast_lt.mpr (ofDigitsBE_lt (by decide) hlt)
    push_cast at hlt'
    rw [add_right_comm, zpow_add₀ base_pos.ne', ← Nat.cast_add_one, zpow_natCast]
    exact mul_lt_mul_of_pos_right hlt' hw
  have hne : (ofDigitsBE base (c :: cs) : ℚ) * (base : ℚ) ^ w ≠ 0 :=
    ((zpow_pos base_pos _).trans_le hlow).ne'
  have hle := h.lower.resolve_left hne
  have h1 := (zpow_lt_zpow_iff_right₀ one_lt_base).mp (hle.trans_lt hhigh)
  have h2 := (zpow_lt_zpow_iff_right₀ one_lt_base).mp (hlow.trans_lt h.upper)
  omega

/-- There are not more digits than in `x`. -/
theorem Truncated.length_le {c : ℕ} {cs : List ℕ}
    (h : Truncated x (ofDigitsBE base (c :: cs) * (base : ℚ) ^ w)) (hlt : ∀ a ∈ c :: cs, a < base)
    (hlast : (c :: cs).getLast (cons_ne_nil c cs) ≠ 0) (hexp : x.d.getDecodeExp = cs.length + w) :
    (c :: cs).length ≤ x.d.len := by
  by_contra hgt
  rw [length_cons] at hgt
  obtain ⟨m, hm⟩ := h.dvd
  have hpow : (base : ℚ) ^ (x.d.getDecodeExp - x.d.len + 1) =
      (base : ℚ) ^ (cs.length + 1 - x.d.len) * (base : ℚ) ^ w := by
    rw [← zpow_natCast, ← zpow_add₀ base_pos.ne']
    congr 1
    omega
  rw [hpow, ← mul_assoc] at hm
  have hdigits := mul_right_cancel₀ (zpow_ne_zero w base_pos.ne') hm
  have hnat : ofDigitsBE base (c :: cs) = m * base ^ (cs.length + 1 - x.d.len) := by
    exact_mod_cast hdigits
  refine not_dvd_ofDigitsBE (cons_ne_nil c cs) hlast (hlt _ (getLast_mem _)) ?_
  rw [hnat]
  exact (dvd_pow_self base (by omega)).mul_left m

theorem normalizeCarry_of_lt (h : ∀ c ∈ ds, c < base) : normalizeCarry ds = (ds, 0) := by
  induction ds with
  | nil => rfl
  | cons d ds ih =>
    have hd := h d mem_cons_self
    rw [normalizeCarry, ih fun c hc => h c (mem_cons_of_mem d hc)]
    dsimp only
    rw [Nat.add_zero, if_neg (not_le.mpr hd)]

theorem rdropWhile_congr {α : Type*} {p q : α → Bool} {l : List α}
    (h : ∀ a ∈ l, p a = q a) : l.rdropWhile p = l.rdropWhile q := by
  induction l using List.reverseRecOn with
  | nil => rfl
  | append_singleton l a ih =>
    have ha := h a (by simp)
    by_cases hp : p a = true
    · rw [rdropWhile_concat_pos _ _ _ hp, rdropWhile_concat_pos _ _ _ (ha ▸ hp)]
      exact ih fun b hb => h b (mem_append_left _ hb)
    · rw [rdropWhile_concat_neg _ _ _ hp, rdropWhile_concat_neg _ _ _ (ha ▸ hp)]

/-- The number is built again from any digits of the right value. -/
theorem Normal.normalize_spec (h : x.Normal) (hds : ∀ c ∈ ds, c < base)
    (ht : Truncated x (ofDigitsBE base ds * (base : ℚ) ^ w)) :
    ∃ r, x.normalize ds = .ok r ∧ r.Canonical ∧
      r.toRat = x.d.sign.toRat * (ofDigitsBE base ds * (base : ℚ) ^ w) := by
  have hdrop : ∀ c ∈ ds.dropWhile (· == 0), c < base :=
    fun c hc => hds c ((dropWhile_sublist _).subset hc)
  have hstrip : (ds.dropWhile (· == 0)).rdropWhile (fun d => d == 0 || d == base) =
      (ds.dropWhile (· == 0)).rdropWhile (· == 0) := by
    refine rdropWhile_congr fun c hc => ?_
    rw [beq_false_of_ne (hdrop c hc).ne, Bool.or_false]
  unfold normalize
  rw [normalizeCarry_of_lt hdrop]
  dsimp only
  rw [hstrip, if_neg (lt_irrefl 0)]
  by_cases hzero : ofDigitsBE base ds = 0
  · rw [dropWhile_zero_eq_nil (by decide) hzero, hzero]
    refine ⟨_, rfl, .inl rfl, ?_⟩
    rw [Canonical.toRat_of_zero rfl]
    simp
  obtain ⟨c, cs, n, hjs, hc, hlast, hsplit⟩ := exists_strip hzero
  rw [hjs, if_neg (by simp)]
  refine ⟨_, rfl, ?_⟩
  have hlt : ∀ a ∈ c :: cs, a < base := by
    intro a ha
    apply hds
    rw [hsplit]
    exact mem_append_right _ (mem_append_left _ ha)
  have hvalue : (ofDigitsBE base ds : ℚ) * (base : ℚ) ^ w =
      ofDigitsBE base (c :: cs) * (base : ℚ) ^ (n + w) := by
    conv_lhs => rw [hsplit]
    rw [ofDigitsBE_append, ofDigitsBE_replicate_zero, zero_mul, zero_add, ofDigitsBE_append,
      ofDigitsBE_replicate_zero, length_replicate, add_zero, zpow_add₀ base_pos.ne',
      zpow_natCast]
    push_cast
    ring
  rw [hvalue] at ht ⊢
  have hexp := ht.exp_eq hc hlt
  have hlen := ht.length_le hlt hlast hexp
  have hmax := h.len_le
  unfold maxStoreLen at hmax
  have hlast' : (c :: cs).getD ((c :: cs).length - 1) 0 ≠ 0 := by
    rw [getD_eq_getElem _ _ (by simp)]
    rwa [getLast_eq_getElem] at hlast
  have hres := scaledTo_mk (d := { x.d with len := (c :: cs).length }) (c :: cs)
    (x.digits.drop (c :: cs).length) rfl (by simp) (by omega) hlt hc hlast' h.exp_lt h.exp_range
  refine ⟨hres.1, hres.2.trans ?_⟩
  congr 3
  show x.d.getDecodeExp - _ + 1 = _
  rw [hexp, length_cons]
  push_cast
  ring

/-! ### The truncated value -/

/-- The magnitude of the truncated number. -/
def truncated (x : ObNumber) (s : ℤ) : ℚ :=
  ⌊x.magnitude / (10 : ℚ) ^ (-s)⌋ * (10 : ℚ) ^ (-s)

theorem truncTo_eq (h : x.Normal) (s : ℤ) :
    truncTo ((10 : ℚ) ^ (-s)) x.toRat = x.d.sign.toRat * x.truncated s := by
  rw [truncTo, abs_toRat h, ← sign_toRat h, truncated]

theorem truncated_of_eq_mul {n : ℕ} (hn : x.magnitude = n * (10 : ℚ) ^ (-s)) :
    x.truncated s = x.magnitude := by
  have hu : (0 : ℚ) < (10 : ℚ) ^ (-s) := zpow_pos (by norm_num) _
  rw [truncated, hn, mul_div_cancel_right₀ _ hu.ne', Int.floor_natCast, Int.cast_natCast]

/-- **Truncating to a power of ten** keeps the order of magnitude. -/
theorem Normal.truncated_spec (h : x.Normal) (s : ℤ) : Truncated x (x.truncated s) := by
  obtain ⟨hlow, hhigh⟩ := h.magnitude_bounds
  have hu : (0 : ℚ) < (10 : ℚ) ^ (-s) := zpow_pos (by norm_num) _
  rcases le_or_gt (x.d.len : ℤ) (scaleIndex x.d s) with hk | hk
  · obtain ⟨n, hn⟩ := h.exists_eq_mul_unit hk
    rw [abs_toRat h] at hn
    rw [truncated_of_eq_mul hn]
    exact ⟨.inr hlow, hhigh, ofDigitsBE base x.used, rfl⟩
  have hle : x.truncated s ≤ x.magnitude := (le_div_iff₀ hu).mp (Int.floor_le _)
  obtain ⟨f, hf⟩ := Int.eq_ofNat_of_zero_le (Int.floor_nonneg.mpr
    (div_nonneg h.magnitude_pos.le hu.le))
  have htrunc : x.truncated s = f * (10 : ℚ) ^ (-s) := by
    rw [truncated, hf]
    rfl
  refine ⟨?_, hle.trans_lt hhigh, ?_⟩
  · -- the power of the base below is a multiple of the unit, or smaller than it
    rcases le_or_gt (scaleIndex x.d s) 0 with hfirst | hfirst
    · rcases Nat.eq_zero_or_pos f with rfl | hpos
      · exact .inl (by rw [htrunc, Nat.cast_zero, zero_mul])
      · right
        have hunit : (base : ℚ) ^ x.d.getDecodeExp ≤ (10 : ℚ) ^ (-s) := by
          rw [scaleUnit_eq x.d s]
          have hone : (1 : ℚ) ≤ scalePow s := by exact_mod_cast scalePow_pos s
          have hpow : (base : ℚ) ^ x.d.getDecodeExp ≤
              (base : ℚ) ^ (x.d.getDecodeExp - scaleIndex x.d s) :=
            zpow_le_zpow_right₀ one_lt_base.le (by omega)
          exact hpow.trans (le_mul_of_one_le_left (zpow_pos base_pos _).le hone)
        have hone : (1 : ℚ) ≤ f := by exact_mod_cast hpos
        rw [htrunc]
        exact hunit.trans (le_mul_of_one_le_left hu.le hone)
    · right
      obtain ⟨n, hn⟩ := exists_zpow_eq_mul_unit (d := x.d) (s := s)
        (show x.d.getDecodeExp - scaleIndex x.d s + 1 ≤ x.d.getDecodeExp by omega)
      have hnf : n ≤ f := by
        have hdiv : ((n : ℤ) : ℚ) ≤ x.magnitude / (10 : ℚ) ^ (-s) := by
          rw [le_div_iff₀ hu, Int.cast_natCast, ← hn]
          exact hlow
        have hfloor := Int.le_floor.mpr hdiv
        rw [hf] at hfloor
        exact Int.ofNat_le.mp hfloor
      have hcast : (n : ℚ) ≤ f := by exact_mod_cast hnf
      rw [htrunc, hn]
      exact mul_le_mul_of_nonneg_right hcast hu.le
  · obtain ⟨j, hj⟩ := Int.le.dest (show scaleIndex x.d s + 1 ≤ x.d.len by omega)
    refine ⟨f * (scalePow s * base ^ j), ?_⟩
    have hpow : (base : ℚ) ^ (x.d.getDecodeExp - scaleIndex x.d s) =
        (base : ℚ) ^ j * (base : ℚ) ^ (x.d.getDecodeExp - x.d.len + 1) := by
      rw [← zpow_natCast, ← zpow_add₀ base_pos.ne']
      congr 1
      omega
    rw [htrunc, scaleUnit_eq x.d s, hpow]
    push_cast
    ring

/-- The truncated number, by the `j` first digits on both sides of the point. -/
theorem truncated_eq_take (h : x.Normal) {j : ℕ}
    (hj : j ≤ (x.integerDigits ++ x.decimalDigits).length)
    (hunit : (10 : ℚ) ^ (-s) = q * (base : ℚ) ^ ((x.integerLength : ℤ) - j)) :
    x.truncated s =
      (ofDigitsBE base ((x.integerDigits ++ x.decimalDigits).take j) / q * q : ℕ) *
        (base : ℚ) ^ ((x.integerLength : ℤ) - j) := by
  have hdiv : ⌊x.magnitude / (10 : ℚ) ^ (-s)⌋ =
      ((ofDigitsBE base ((x.integerDigits ++ x.decimalDigits).take j) / q : ℕ) : ℤ) := by
    rw [hunit, mul_comm (q : ℚ), ← div_div, Int.floor_div_natCast, floor_magnitude h hj,
      Int.natCast_div]
  rw [truncated, hdiv, hunit, Int.cast_natCast, Nat.cast_mul, mul_assoc]

theorem length_truncLast (q : ℕ) (ds : List ℕ) : (truncLast q ds).length = ds.length :=
  length_set

theorem truncLast_append (q : ℕ) (as : List ℕ) (a : ℕ) :
    truncLast q (as ++ [a]) = as ++ [a / q * q] := by
  unfold truncLast
  simp

theorem truncLast_append_of_ne_nil (q : ℕ) (as : List ℕ) (hne : ds ≠ []) :
    truncLast q (as ++ ds) = as ++ truncLast q ds := by
  obtain ⟨bs, b, rfl⟩ := (eq_nil_or_concat' ds).resolve_left hne
  rw [← append_assoc, truncLast_append, truncLast_append, append_assoc]

/-- Cutting off the last digit to a multiple of a divisor of the base. -/
theorem ofDigitsBE_truncLast (hq : q ∣ base) (hpos : 0 < q) (hne : ds ≠ []) :
    ofDigitsBE base (truncLast q ds) = ofDigitsBE base ds / q * q := by
  obtain ⟨as, a, rfl⟩ := (eq_nil_or_concat' ds).resolve_left hne
  obtain ⟨k, hk⟩ := hq
  have hcut : ofDigitsBE base as * base = q * (ofDigitsBE base as * k) := by
    rw [hk]
    ring
  rw [truncLast_append, ofDigitsBE_append, ofDigitsBE_append, ofDigitsBE_singleton,
    ofDigitsBE_singleton, length_singleton, length_singleton, pow_one, hcut,
    Nat.mul_add_div hpos]
  ring

theorem truncLast_lt (h : ∀ c ∈ ds, c < base) : ∀ c ∈ truncLast q ds, c < base := by
  rcases eq_nil_or_concat' ds with rfl | ⟨as, a, rfl⟩
  · exact h
  · rw [truncLast_append]
    intro c hc
    rcases mem_append.mp hc with hc | hc
    · exact h c (mem_append_left _ hc)
    · rw [mem_singleton.mp hc]
      exact (Nat.div_mul_le_self a q).trans_lt (h a (by simp))

/-- **The number is built again** from digits that make the truncated value. -/
theorem Normal.rebuildDigits_spec (h : x.Normal) {is : List ℕ} (hlt : ∀ c ∈ is ++ ds, c < base)
    (hlen : is.length + ds.length < maxCalcLen)
    (hvalue : x.truncated s = ofDigitsBE base (is ++ ds) * (base : ℚ) ^ w) :
    ∃ r, x.rebuildDigits is ds = .ok r ∧ r.Canonical ∧
      r.toRat = truncTo ((10 : ℚ) ^ (-s)) x.toRat := by
  have ht := h.truncated_spec s
  rw [hvalue] at ht
  obtain ⟨r, hr, hcanonical, hrat⟩ := h.normalize_spec hlt ht
  refine ⟨r, ?_, hcanonical, ?_⟩
  · unfold rebuildDigits
    rw [if_neg (by omega), if_neg (by omega), hr]
  · rw [hrat, truncTo_eq h, hvalue]

theorem length_digits_lt (h : x.Normal) :
    x.integerDigits.length + x.decimalDigits.length < maxCalcLen := by
  have hrange := h.exp_range
  have hmax := h.len_le
  rw [length_integerDigits h, length_decimalDigits h]
  unfold integerLength maxCalcLen
  unfold maxStoreLen at hmax
  omega

/-- A unit of `10 ^ -s` in terms of a group of nine decimals. -/
theorem ten_zpow_eq (ht : t = -s - 9 * w) :
    (10 : ℚ) ^ (-s) = ((10 ^ t : ℕ) : ℚ) * (base : ℚ) ^ w := by
  rw [base_zpow, Nat.cast_pow, Nat.cast_ofNat, ← zpow_natCast, ← zpow_add₀ (by norm_num)]
  congr 1
  omega

theorem ten_pow_dvd (ht : t ≤ 9) : 10 ^ t ∣ base := by
  rw [show base = 10 ^ 9 from rfl]
  exact pow_dvd_pow 10 ht

theorem truncDecimalPows_getD (hpos : 0 < t) (hlt : t < 9) :
    truncDecimalPows.getD t 0 = 10 ^ (9 - t) := by
  interval_cases t <;> rfl

theorem truncIntegerPows_getD (hpos : 0 < t) (hlt : t < 9) :
    truncIntegerPows.getD t 0 = 10 ^ t := by
  interval_cases t <;> rfl

/-- Truncating behind the point. -/
theorem Normal.rebuildDigits_decimal (h : x.Normal) (hs : 0 < s) :
    ∃ ds r, truncDecimal s (x.decimalDigits.take (scaleGroups s)) = .ok ds ∧
      x.rebuildDigits x.integerDigits ds = .ok r ∧ r.Canonical ∧
      r.toRat = truncTo ((10 : ℚ) ^ (-s)) x.toRat := by
  have hlt := digits_lt h
  have hlen := length_digits_lt h
  have hint := length_integerDigits h
  have hlenTake : (x.decimalDigits.take (scaleGroups s)).length =
      min (scaleGroups s) x.decimalDigits.length := length_take
  unfold scaleGroups at hlenTake ⊢
  unfold truncDecimal digitLen
  rw [if_neg (not_le.mpr hs)]
  dsimp only
  generalize htl : ((s - 1) / ((9 : ℕ) : ℤ) + 1).toNat = tl
  push_cast at htl
  by_cases hshort : (x.decimalDigits.take (s / 9 + 1).toNat).length < tl
  · -- all decimals are kept
    have hall : x.decimalDigits.take (s / 9 + 1).toNat = x.decimalDigits :=
      take_of_length_le (by omega)
    rw [if_pos hshort, hall]
    have hmul : x.magnitude =
        ((ofDigitsBE base (x.integerDigits ++ x.decimalDigits) *
          10 ^ (s - 9 * x.decimalDigits.length).toNat : ℕ) : ℚ) * (10 : ℚ) ^ (-s) := by
      rw [magnitude_eq_digits h, base_zpow, Nat.cast_mul, Nat.cast_pow, Nat.cast_ofNat, mul_assoc,
        ← zpow_natCast, ← zpow_add₀ (by norm_num)]
      congr 2
      omega
    obtain ⟨r, hr⟩ := h.rebuildDigits_spec (s := s) (w := -(x.decimalDigits.length : ℤ)) hlt hlen
      (by rw [truncated_of_eq_mul hmul, magnitude_eq_digits h])
    exact ⟨_, r, rfl, hr⟩
  rw [if_neg hshort]
  have htake : (x.decimalDigits.take (s / 9 + 1).toNat).take tl = x.decimalDigits.take tl := by
    rw [take_take, Nat.min_eq_left (by omega)]
  have hall : (x.integerDigits ++ x.decimalDigits).take (x.integerLength + tl) =
      x.integerDigits ++ x.decimalDigits.take tl := by
    rw [← hint, take_length_add_append]
  have hvalue := truncated_eq_take (s := s) h (j := x.integerLength + tl)
    (q := 10 ^ (9 * tl - s).toNat) (by rw [length_append]; omega)
    (ten_zpow_eq (by push_cast; omega))
  rw [hall] at hvalue
  have hlt' : ∀ c ∈ x.integerDigits ++ x.decimalDigits.take tl, c < base := by
    intro c hc
    rw [← hall] at hc
    exact hlt c (mem_of_mem_take hc)
  have hlen' : (x.decimalDigits.take tl).length = tl := by
    rw [length_take]
    omega
  rw [htake]
  by_cases hzero : 0 = (s % ((9 : ℕ) : ℤ)).toNat
  · rw [if_pos hzero]
    rw [show (9 * (tl : ℤ) - s).toNat = 0 by push_cast at hzero; omega, pow_zero, Nat.div_one,
      Nat.mul_one] at hvalue
    obtain ⟨r, hr⟩ := h.rebuildDigits_spec hlt' (by omega) hvalue
    exact ⟨_, r, rfl, hr⟩
  · rw [if_neg hzero]
    push_cast at hzero ⊢
    have hpow : truncDecimalPows.getD (s % 9).toNat 0 = 10 ^ (9 * (tl : ℤ) - s).toNat := by
      rw [truncDecimalPows_getD (by omega) (by omega)]
      congr 1
      omega
    have hne : x.decimalDigits.take tl ≠ [] := ne_nil_of_length_pos (by omega)
    have hne' : x.integerDigits ++ x.decimalDigits.take tl ≠ [] := by simp [hne]
    rw [← ofDigitsBE_truncLast (ten_pow_dvd (by omega)) (by positivity) hne',
      truncLast_append_of_ne_nil _ _ hne] at hvalue
    rw [hpow]
    obtain ⟨r, hr⟩ := h.rebuildDigits_spec
      (by rw [← truncLast_append_of_ne_nil _ _ hne]; exact truncLast_lt hlt')
      (by rw [length_truncLast]; omega) hvalue
    exact ⟨_, r, rfl, hr⟩

/-- Truncating before the point. -/
theorem Normal.rebuildDigits_integer (h : x.Normal) (hs : s < 0) :
    ∃ is r, truncInteger (-s) x.integerDigits = .ok is ∧
      x.rebuildDigits is [] = .ok r ∧ r.Canonical ∧
      r.toRat = truncTo ((10 : ℚ) ^ (-s)) x.toRat := by
  have hlen := length_digits_lt h
  have hint := length_integerDigits h
  have hlt : ∀ j, ∀ c ∈ x.integerDigits.take j, c < base := fun j c hc =>
    digits_lt h c (mem_append_left _ (mem_of_mem_take hc))
  -- cut behind the digit `j`, to a multiple of `10 ^ t`
  have hvalue (j t : ℕ) (hj : j ≤ x.integerLength)
      (ht : (t : ℤ) = -s - 9 * ((x.integerLength : ℤ) - j)) :
      x.truncated s = (ofDigitsBE base (x.integerDigits.take j) / 10 ^ t * 10 ^ t : ℕ) *
        (base : ℚ) ^ ((x.integerLength : ℤ) - j) := by
    have htake := truncated_eq_take h (j := j) (by rw [length_append]; omega) (ten_zpow_eq ht)
    rwa [take_append_of_le_length (by omega)] at htake
  unfold truncInteger digitLen
  rw [if_neg (by omega), hint]
  dsimp only
  generalize htl : ((-s - 1) / ((9 : ℕ) : ℤ) + 1).toNat = tl
  push_cast at htl
  by_cases hshort : x.integerLength < tl
  · rw [if_pos hshort]
    have hcut := hvalue 0 (-s - 9 * x.integerLength).toNat (Nat.zero_le _) (by omega)
    rw [take_zero, ofDigitsBE_nil, Nat.zero_div, Nat.zero_mul] at hcut
    obtain ⟨r, hr⟩ : ∃ r, x.rebuildDigits [] [] = .ok r ∧ r.Canonical ∧
        r.toRat = truncTo ((10 : ℚ) ^ (-s)) x.toRat :=
      h.rebuildDigits_spec (by simp) (by decide) hcut
    exact ⟨[], r, rfl, hr⟩
  rw [if_neg hshort]
  by_cases hzero : 0 = (-s % ((9 : ℕ) : ℤ)).toNat
  · rw [if_pos hzero]
    have hcut := hvalue (x.integerLength - tl) 0 (by omega) (by push_cast at hzero; omega)
    rw [pow_zero, Nat.div_one, Nat.mul_one, ← append_nil (x.integerDigits.take _)] at hcut
    obtain ⟨r, hr⟩ := h.rebuildDigits_spec (by rw [append_nil]; exact hlt _)
      (by rw [length_take, length_nil]; omega) hcut
    exact ⟨_, r, rfl, hr⟩
  · rw [if_neg hzero]
    push_cast at hzero ⊢
    rw [truncIntegerPows_getD (by omega) (by omega)]
    have hne : x.integerDigits.take (x.integerLength - (tl - 1)) ≠ [] :=
      ne_nil_of_length_pos (by rw [length_take]; omega)
    have hcut := hvalue (x.integerLength - (tl - 1)) (-s % 9).toNat (by omega) (by omega)
    rw [← ofDigitsBE_truncLast (ten_pow_dvd (by omega)) (by positivity) hne,
      ← append_nil (truncLast _ _)] at hcut
    obtain ⟨r, hr⟩ := h.rebuildDigits_spec
      (by rw [append_nil]; exact truncLast_lt (hlt _))
      (by rw [length_truncLast, length_take, length_nil]; omega) hcut
    exact ⟨_, r, rfl, hr⟩

/-- **Truncating to a scale** is exact. -/
theorem Normal.truncScale_exact (h : x.Normal) (s : ℤ) :
    ∃ r, x.truncScale s false = .ok r ∧ r.Canonical ∧
      r.toRat = truncTo ((10 : ℚ) ^ (-s)) x.toRat := by
  obtain ⟨st, hloop, hint, hdec⟩ := truncLoop_eq (s := s) h
  unfold truncScale
  rw [hloop]
  simp only [bind, Except.bind, Bool.false_eq_true, if_false, hint, hdec]
  rcases lt_trichotomy s 0 with hs | rfl | hs
  · obtain ⟨is, r, his, hr, hres⟩ := h.rebuildDigits_integer hs
    rw [if_neg (by omega), if_pos hs, his]
    exact ⟨r, hr, hres⟩
  · rw [if_neg (lt_irrefl 0), if_neg (lt_irrefl 0)]
    have hlen := length_digits_lt h
    have htake := truncated_eq_take (s := 0) (q := 1) h (j := x.integerLength)
      (by rw [length_append, length_integerDigits h]; omega) (by simp)
    rw [take_left' (length_integerDigits h), Nat.div_one, Nat.mul_one] at htake
    have hlt : ∀ c ∈ x.integerDigits ++ [], c < base := by
      rw [append_nil]
      exact fun c hc => digits_lt h c (mem_append_left _ hc)
    exact h.rebuildDigits_spec hlt (by simp; omega) (by rw [append_nil, htake])
  · obtain ⟨ds, r, hds, hr, hres⟩ := h.rebuildDigits_decimal hs
    rw [if_pos hs, hds]
    exact ⟨r, hr, hres⟩

/-- **Rounding and truncating are exact.** For every canonical number and every scale, `round` gives
the number rounded half away from zero to a multiple of `10 ^ -scale`, if this is below `10 ^ 135`,
and `trunc` the number truncated towards zero, both in canonical form. -/
theorem round_trunc_exact {x : ObNumber} (hx : x.Canonical) {scale : ℤ} (hmin : minScale ≤ scale)
    (hmax : scale ≤ maxScale) :
    (|roundHalfAway ((10 : ℚ) ^ (-scale)) x.toRat| < (10 : ℚ) ^ (135 : ℤ) →
      ∃ r, x.round scale = .ok r ∧ r.Canonical ∧
        r.toRat = roundHalfAway ((10 : ℚ) ^ (-scale)) x.toRat) ∧
    ∃ r, x.trunc scale = .ok r ∧ r.Canonical ∧
      r.toRat = truncTo ((10 : ℚ) ^ (-scale)) x.toRat := by
  unfold ObNumber.round trunc
  rcases hx.cases with ⟨hzero, hval⟩ | h
  · rw [if_pos hzero, if_neg (by omega), if_pos hzero, hval]
    refine ⟨fun _ => ⟨x, rfl, hx, ?_⟩, x, rfl, hx, ?_⟩
    · rw [hval, roundHalfAway, sign_zero]
      simp
    · rw [hval, truncTo, sign_zero]
      simp
  · have hbuf := h.buffer
    have hpos := h.len_pos
    have hne : x.digits ≠ [] := ne_nil_of_length_pos (by omega)
    have hzero : ¬ x.isZero = true := by rw [h.isZero_eq]; decide
    rw [if_neg hzero, if_neg hne, if_neg (by omega), if_neg (by omega), if_neg hzero,
      if_neg (by simp [hne]; omega)]
    exact ⟨fun hroom => ⟨_, rfl, h.roundScaleV3_exact hroom⟩, h.truncScale_exact scale⟩

theorem toRat_sevenAndHalf : sevenAndHalf.toRat = 15 / 2 := by
  have hexp : sevenAndHalf.d.getDecodeExp = 0 := by decide
  have hdigits : ofDigitsBE base sevenAndHalf.used = 7500000000 := by decide
  rw [toRat, hexp, hdigits]
  norm_num [sevenAndHalf, Sign.toRat, base]

theorem round_trunc_exact_sevenAndHalf :
    sevenAndHalf.Canonical ∧ minScale ≤ 0 ∧ 0 ≤ maxScale ∧
      (∃ r, sevenAndHalf.round 0 = .ok r ∧ r.Canonical ∧ r.toRat = 8) ∧
      ∃ r, sevenAndHalf.trunc 0 = .ok r ∧ r.Canonical ∧ r.toRat = 7 := by
  have hround : roundHalfAway ((10 : ℚ) ^ (-(0 : ℤ))) sevenAndHalf.toRat = 8 := by
    rw [toRat_sevenAndHalf]
    norm_num [roundHalfAway]
  have htrunc : truncTo ((10 : ℚ) ^ (-(0 : ℤ))) sevenAndHalf.toRat = 7 := by
    rw [toRat_sevenAndHalf]
    norm_num [truncTo]
  have h := round_trunc_exact (.inr normal_sevenAndHalf) (show minScale ≤ 0 by decide)
    (show 0 ≤ maxScale by decide)
  rw [hround, htrunc] at h
  exact ⟨.inr normal_sevenAndHalf, by decide, by decide, h.1 (by norm_num), h.2⟩

end ObNumber

end Andl.Number
