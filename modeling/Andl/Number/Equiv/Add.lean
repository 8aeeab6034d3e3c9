import Andl.Number.Equiv.Rem
import Andl.Number.Equiv.Round

/-!
# Correctness of addition
-/

namespace Andl.Number.ObNumber

open List

/-! ### The loop -/

/-- The digit of the addend at index `i` of the sum: the first `k` digits of the addend start at
index `shift`. -/
def addendDigit (addend : List ℕ) (shift k i : ℕ) : ℕ :=
  if shift ≤ i ∧ i < shift + k then addend.getD (i - shift) 0 else 0

/-- The variables of the loop before cell `i`. -/
structure AddInv (sumExp : ℤ) (shift k i : ℕ) (s : AddState) : Prop where
  exp_eq : s.curExp = sumExp - i + 1
  id_eq : s.curAddendId = max (-1) (min ((k : ℤ) - 1) ((i : ℤ) - 1 - shift))
  addend_exp_eq : s.curAddendExp = sumExp - shift - s.curAddendId

variable {sumExp : ℤ} {shift k n : ℕ} {s : AddState} {addend : List ℕ} {y x : ObNumber} {v : ℚ}

/-- Whether a digit of the addend is added, and which. -/
theorem AddInv.take_iff {i : ℕ} (h : AddInv sumExp shift k (i + 1) s) :
    (s.curExp = s.curAddendExp ∧ s.curAddendId ≥ 0) ↔ shift ≤ i ∧ i < shift + k := by
  have h1 := h.exp_eq
  have h2 := h.id_eq
  have h3 := h.addend_exp_eq
  push_cast at h1 h2
  omega

theorem AddInv.step {sumExp : ℤ} {shift k i : ℕ} {s : AddState}
    (h : AddInv sumExp shift k (i + 1) s) (addend : List ℕ) :
    AddInv sumExp shift k i (addStep addend (i + 1) s) := by
  have h1 := h.exp_eq
  have h2 := h.id_eq
  have h3 := h.addend_exp_eq
  push_cast at h1 h2
  by_cases htake : shift ≤ i ∧ i < shift + k
  · have hcond := h.take_iff.mpr htake
    constructor
    · simp only [addStep]
      omega
    · simp only [addStep, hcond, and_self, decide_true, if_true]
      omega
    · simp only [addStep, hcond, and_self, decide_true, if_true]
      omega
  · have hcond : ¬ (s.curExp = s.curAddendExp ∧ s.curAddendId ≥ 0) :=
      fun hc => htake (h.take_iff.mp hc)
    constructor
    · simp only [addStep]
      omega
    · simp only [addStep, hcond, decide_false, Bool.false_eq_true, if_false]
      omega
    · simp only [addStep, hcond, decide_false, Bool.false_eq_true, if_false]
      omega

/-- One step of the loop, on the cells `as`, `a` and the ones after them. -/
theorem addStep_spec {z a : ℕ} {as bs : List ℕ} (h : AddInv sumExp shift k (as.length + 1) s)
    (hdigits : s.digits = z :: (as ++ a :: bs)) (ha : a < base) (hcarry : s.carry ≤ 1)
    (haddend : ∀ i < k, addend.getD i 0 < base) :
    ∃ t, t < base ∧ (addStep addend (as.length + 1) s).digits = z :: (as ++ t :: bs) ∧
      (addStep addend (as.length + 1) s).carry ≤ 1 ∧
      t + (addStep addend (as.length + 1) s).carry * base =
        a + s.carry + addendDigit addend shift k as.length ∧
      (addStep addend (as.length + 1) s).sumLen =
        (if s.checkSumLen = true ∧ t = 0 then s.sumLen - 1 else s.sumLen) ∧
      (addStep addend (as.length + 1) s).checkSumLen = (s.checkSumLen && t == 0) := by
  have hget : s.digits.getD (as.length + 1) 0 = a := by simp [hdigits]
  have hset (t : ℕ) : s.digits.set (as.length + 1) t = z :: (as ++ t :: bs) := by simp [hdigits]
  have hadd : (if (decide (s.curExp = s.curAddendExp ∧ s.curAddendId ≥ 0)) = true then
      addend.getD s.curAddendId.toNat 0 else 0) = addendDigit addend shift k as.length := by
    unfold addendDigit
    simp only [decide_eq_true_eq, h.take_iff]
    split_ifs with htake
    · have h2 := h.id_eq
      push_cast at h2
      congr 1
      omega
    · rfl
  have hdigit : addendDigit addend shift k as.length < base := by
    unfold addendDigit
    split_ifs
    · exact haddend _ (by omega)
    · decide
  unfold addStep
  simp only [hget, hset, hadd]
  generalize addendDigit addend shift k as.length = b at hdigit
  by_cases hge : a + s.carry + b ≥ base
  · simp only [hge, if_true]
    exact ⟨_, by omega, rfl, le_refl 1, by omega, rfl, rfl⟩
  · simp only [hge, if_false]
    exact ⟨_, by omega, rfl, by omega, by omega, rfl, rfl⟩

/-- The digits of the addend at the indices below `n`. -/
def addendDigits (addend : List ℕ) (shift k n : ℕ) : List ℕ :=
  (List.range n).map (addendDigit addend shift k)

/-- **The loop adds**, and counts the digits up to the last one that is not zero. -/
theorem addLoop_spec {z : ℕ} {as bs : List ℕ} (h : AddInv sumExp shift k as.length s)
    (hdigits : s.digits = z :: (as ++ bs)) (has : ∀ a ∈ as, a < base) (hcarry : s.carry ≤ 1)
    (haddend : ∀ i < k, addend.getD i 0 < base) :
    ∃ cs, cs.length = as.length ∧ (∀ c ∈ cs, c < base) ∧
      (addLoop addend as.length s).digits = z :: (cs ++ bs) ∧
      (addLoop addend as.length s).carry ≤ 1 ∧
      ofDigitsBE base cs + (addLoop addend as.length s).carry * base ^ as.length =
        ofDigitsBE base as + ofDigitsBE base (addendDigits addend shift k as.length) + s.carry ∧
      (s.checkSumLen = false → (addLoop addend as.length s).sumLen = s.sumLen) ∧
      (s.checkSumLen = true → s.sumLen = as.length →
        (addLoop addend as.length s).sumLen = (cs.rdropWhile (· == 0)).length) := by
  induction as using List.reverseRecOn generalizing s bs with
  | nil =>
    refine ⟨[], rfl, by simp, hdigits, hcarry, ?_, fun _ => rfl, fun _ hlen => hlen⟩
    simp [addLoop, addendDigits]
  | append_singleton as a ih =>
    rw [length_append, length_singleton] at h ⊢
    have hcells : s.digits = z :: (as ++ a :: bs) := by
      rw [hdigits]
      simp
    obtain ⟨t, ht, hdigits1, hcarry1, hval1, hlen1, hcheck1⟩ :=
      addStep_spec h hcells (has a (by simp)) hcarry haddend
    rw [addLoop]
    obtain ⟨cs, hcs, hcslt, hdigits', hcarry', hval', hlen', hcheck'⟩ :=
      ih (h.step addend) hdigits1 (fun c hc => has c (mem_append_left _ hc)) hcarry1
    refine ⟨cs ++ [t], by simp [hcs], ?_, ?_, hcarry', ?_, ?_, ?_⟩
    · intro c hc
      rcases mem_append.mp hc with hc | hc
      · exact hcslt c hc
      · rw [mem_singleton.mp hc]
        exact ht
    · rw [hdigits']
      simp
    · -- the digit of this step, and what it carries to the others
      have hsucc : addendDigits addend shift k (as.length + 1) =
          addendDigits addend shift k as.length ++ [addendDigit addend shift k as.length] := by
        simp [addendDigits, range_succ]
      rw [hsucc]
      simp only [ofDigitsBE_append, ofDigitsBE_singleton, length_singleton, pow_succ]
      linear_combination base * hval' + hval1
    · intro hcheck
      rw [hlen' (by rw [hcheck1, hcheck, Bool.false_and]), hlen1, hcheck]
      simp
    · intro hcheck hlen
      by_cases hzero : t = 0
      · rw [hcheck' (by simp [hcheck1, hcheck, hzero]) (by simp [hlen1, hcheck, hzero, hlen]),
          hzero, rdropWhile_concat_pos _ _ _ (by rfl)]
      · rw [hlen' (by simp [hcheck1, hzero]), hlen1, if_neg (fun hc => hzero hc.2), hlen,
          rdropWhile_concat_neg _ _ _ (by simpa using hzero)]
        simp [hcs]

/-! ### The digits of the addend -/

theorem addendDigits_eq (hk : k ≤ addend.length) (hn : shift + k ≤ n) :
    addendDigits addend shift k n =
      List.replicate shift 0 ++ (addend.take k ++ List.replicate (n - shift - k) 0) := by
  apply ext_getElem
  · simp [addendDigits]
    omega
  · intro i h1 h2
    simp only [addendDigits, getElem_map, getElem_range, addendDigit]
    by_cases hlow : i < shift
    · rw [if_neg (by omega), getElem_append_left (by simpa using hlow)]
      simp
    · by_cases hhigh : i < shift + k
      · rw [if_pos (by omega), getElem_append_right (by simp; omega),
          getElem_append_left (by simp; omega), getD_eq_getElem _ _ (by omega)]
        simp
      · rw [if_neg (by omega), getElem_append_right (by simp; omega),
          getElem_append_right (by simp; omega)]
        simp

theorem Normal.addendDigits_bounds (hy : y.Normal) (hexp : y.d.getDecodeExp = sumExp - shift)
    (hk : k ≤ y.d.len) (hn : shift + k ≤ n) (hcut : k < y.d.len → shift + k = n) :
    ofDigitsBE base (addendDigits y.digits shift k n) * (base : ℚ) ^ (sumExp - n + 1) ≤
        y.magnitude ∧
      y.magnitude < (ofDigitsBE base (addendDigits y.digits shift k n) + 1) *
        (base : ℚ) ^ (sumExp - n + 1) ∧
      (k = y.d.len → y.magnitude =
        ofDigitsBE base (addendDigits y.digits shift k n) * (base : ℚ) ^ (sumExp - n + 1)) := by
  have hbuf := hy.buffer
  have hlen := hy.length_used
  have hw : (0 : ℚ) < (base : ℚ) ^ (sumExp - n + 1) := zpow_pos base_pos _
  have htake : y.digits.take k = y.used.take k := by
    rw [used, take_take, Nat.min_eq_left hk]
  have hval : ofDigitsBE base (addendDigits y.digits shift k n) =
      ofDigitsBE base (y.used.take k) * base ^ (n - shift - k) := by
    rw [addendDigits_eq (hk.trans hbuf) hn, htake, ofDigitsBE_append, ofDigitsBE_append]
    simp
  have hdrop : (y.used.drop k).length = y.d.len - k := by rw [length_drop, hlen]
  have hused : ofDigitsBE base y.used =
      ofDigitsBE base (y.used.take k) * base ^ (y.d.len - k) + ofDigitsBE base (y.used.drop k) := by
    rw [← hdrop, ← ofDigitsBE_append, take_append_drop]
  rcases Nat.lt_or_ge k y.d.len with hlt | hge
  · have hn' := hcut hlt
    have hpow : (base : ℚ) ^ (sumExp - n + 1) =
        ((base ^ (y.d.len - k) : ℕ) : ℚ) * (base : ℚ) ^ (y.d.getDecodeExp - y.d.len + 1) := by
      push_cast
      rw [← zpow_natCast, ← zpow_add₀ base_pos.ne', hexp]
      congr 1
      omega
    have hzero : n - shift - k = 0 := by omega
    rw [hzero, pow_zero, mul_one] at hval
    have htail : ofDigitsBE base (y.used.drop k) < base ^ (y.d.len - k) := by
      rw [← hdrop]
      exact ofDigitsBE_lt (by decide) fun a ha => hy.digit_lt (mem_of_mem_drop ha)
    have hunit : (0 : ℚ) < (base : ℚ) ^ (y.d.getDecodeExp - y.d.len + 1) := zpow_pos base_pos _
    rw [hval, magnitude, hused, hpow]
    push_cast
    refine ⟨?_, ?_, fun h => absurd h hlt.ne⟩
    · rw [← mul_assoc]
      refine mul_le_mul_of_nonneg_right ?_ hunit.le
      linarith [(Nat.cast_nonneg (ofDigitsBE base (y.used.drop k)) : (0 : ℚ) ≤ _)]
    · rw [← mul_assoc]
      refine mul_lt_mul_of_pos_right ?_ hunit
      have : ((ofDigitsBE base (y.used.drop k) : ℕ) : ℚ) < (base : ℚ) ^ (y.d.len - k) := by
        exact_mod_cast htail
      linarith
  · obtain rfl : k = y.d.len := by omega
    have heq : y.magnitude =
        ofDigitsBE base (addendDigits y.digits shift y.d.len n) *
          (base : ℚ) ^ (sumExp - n + 1) := by
      rw [hval, take_of_length_le hlen.le, magnitude]
      push_cast
      rw [mul_assoc, ← zpow_natCast, ← zpow_add₀ base_pos.ne', hexp]
      congr 2
      omega
    refine ⟨heq.ge, ?_, fun _ => heq⟩
    rw [heq]
    exact mul_lt_mul_of_pos_right (by linarith) hw

/-! ### The sum -/

/-- Rounding digits without their trailing zeros. -/
theorem roundResult_trimmed {d : ObNumberDesc} {c z : ℕ} {cs ks : List ℕ} {e : ℤ} (hv : InRange v)
    (hsign : d.sign.toRat = (SignType.sign v : ℤ)) (hc : c ≠ 0)
    (hlast : (c :: ks).getLast (cons_ne_nil c ks) ≠ 0)
    (hcs : c :: ks ++ List.replicate z 0 = cs) (hlt : ∀ a ∈ cs, a < base)
    (hlen : cs.length = n + 1) (hn : n ≤ 9)
    (hfloor : ⌊|v| / (base : ℚ) ^ (e - n)⌋ = (ofDigitsBE base cs : ℤ))
    (hexact : n < 8 → |v| = (ofDigitsBE base cs : ℚ) * (base : ℚ) ^ (e - n)) :
    ∃ r, roundResult true
        (assignChecked (d.calcDescAndCheck e (c :: ks).length false) (c :: ks)) = .ok r ∧
      r.Canonical ∧ r.toRat = rounded v := by
  have hfirst : ⌊|v| / (base : ℚ) ^ (e - 8)⌋ = ofDigitsBE base (firstNine (c :: ks)) := by
    rw [← firstNine_append_zeros (cons_ne_nil c ks) z, hcs]
    exact floor_firstNine hlen hlt hfloor hexact
  refine roundResult_assign hv hc (fun a ha => hlt a ?_) ?_ (fun _ => hlast) hsign hfirst
  · rw [← hcs]
    exact mem_append_left _ ha
  · rw [← hcs, length_append] at hlen
    omega

/-- Digits of which the first is not zero, from the size of their value. -/
theorem exists_cons_rdropWhile {cs : List ℕ} (hlt : ∀ c ∈ cs, c < base)
    (hlow : base ^ (cs.length - 1) ≤ ofDigitsBE base cs) :
    ∃ c ks, cs.rdropWhile (· == 0) = c :: ks ∧ c ≠ 0 := by
  have hsplit := rdropWhile_append_zeros cs
  cases hjs : cs.rdropWhile (· == 0) with
  | nil =>
    rw [hjs, nil_append] at hsplit
    rw [← hsplit, ofDigitsBE_replicate_zero] at hlow
    exact absurd hlow (Nat.not_le.mpr (Nat.pow_pos (by decide)))
  | cons c ks =>
    refine ⟨c, ks, rfl, ?_⟩
    rintro rfl
    rw [hjs, cons_append] at hsplit
    rw [← hsplit, ofDigitsBE_cons, zero_mul, zero_add, length_cons, Nat.add_sub_cancel] at hlow
    refine absurd hlow (Nat.not_le.mpr (ofDigitsBE_lt (by decide) fun a ha => hlt a ?_))
    rw [← hsplit]
    exact mem_cons_of_mem _ ha

theorem roundResult_sum {d : ObNumberDesc} {cs rest : List ℕ} {carry sumLen : ℕ} {e : ℤ}
    (hv : InRange v) (hsign : d.sign.toRat = (SignType.sign v : ℤ)) (hlt : ∀ c ∈ cs, c < base)
    (hlen : cs.length = n) (hn : n ≤ 9) (hcarry : carry ≤ 1)
    (hsumLen : sumLen = (cs.rdropWhile (· == 0)).length)
    (hlow : base ^ (n - 1) ≤ ofDigitsBE base cs + carry * base ^ n)
    (hfloor : ⌊|v| / (base : ℚ) ^ (e - n + 1)⌋ = ((ofDigitsBE base cs + carry * base ^ n : ℕ) : ℤ))
    (hexact : n < 9 → |v| =
      ((ofDigitsBE base cs + carry * base ^ n : ℕ) : ℚ) * (base : ℚ) ^ (e - n + 1)) :
    ∃ r, roundResult true
        (if carry ≠ 0 then
          assignChecked (d.calcDescAndCheck (e + 1) (sumLen + 1) false)
            (((0 :: (cs ++ rest)).set 0 1).take (sumLen + 1))
        else
          assignChecked (d.calcDescAndCheck e sumLen false)
            (((0 :: (cs ++ rest)).drop 1).take sumLen)) = .ok r ∧
      r.Canonical ∧ r.toRat = rounded v := by
  have hsplit := rdropWhile_append_zeros cs
  set js := cs.rdropWhile (· == 0) with hjs
  have htake : (cs ++ rest).take sumLen = js := by
    conv_lhs => rw [← hsplit, append_assoc, hsumLen, take_left]
  by_cases hc : carry = 0
  · -- without a carry, the first digit is not zero
    subst hc
    rw [zero_mul, add_zero] at hlow hfloor hexact
    rw [← hlen] at hlow
    obtain ⟨c, ks, hcons, hc0⟩ := exists_cons_rdropWhile hlt hlow
    have hlast := getLast_rdropWhile_ne_zero (hcons ▸ cons_ne_nil c ks)
    have hpos : 0 < n := by
      rw [← hlen, ← hsplit, hjs, hcons]
      simp
    have hexp : e - ((n - 1 : ℕ) : ℤ) = e - n + 1 := by omega
    rw [if_neg (by simp), drop_one, tail_cons, htake, hsumLen]
    simp only [hjs, hcons] at hsplit hlast ⊢
    refine roundResult_trimmed (n := n - 1) hv hsign hc0 hlast hsplit hlt (by omega) (by omega)
      (by rw [hexp, hfloor]) fun hlt8 => ?_
    rw [hexp, hexact (by omega)]
  · obtain rfl : carry = 1 := by omega
    rw [one_mul] at hlow hfloor hexact
    have hone : ofDigitsBE base (1 :: cs) = ofDigitsBE base cs + base ^ n := by
      rw [ofDigitsBE_cons, one_mul, hlen, Nat.add_comm]
    have hexp : e + 1 - (n : ℤ) = e - n + 1 := by ring
    have hlast : (1 :: js).getLast (cons_ne_nil 1 js) ≠ 0 := by
      by_cases hjsne : js = []
      · simp [hjsne]
      · rw [getLast_cons hjsne]
        exact getLast_rdropWhile_ne_zero hjsne
    rw [if_pos (by decide), set_cons_zero, take_succ_cons, htake, hsumLen]
    have hcs : 1 :: js ++ List.replicate (cs.rtakeWhile (· == 0)).length 0 = 1 :: cs := by
      rw [cons_append, hsplit]
    refine roundResult_trimmed (n := n) hv hsign one_ne_zero hlast hcs
      (forall_mem_cons.mpr ⟨by decide, hlt⟩) (by rw [length_cons, hlen]) hn
      (by rw [hexp, hfloor, hone]) fun hlt8 => ?_
    rw [hexp, hexact (by omega), hone]

/-- How the digits of two numbers are aligned. -/
structure Alignment (x y : ObNumber) (sumLen movex shift k n : ℕ) : Prop where
  sumLen_eq : sumLen = (x.d.getDecodeExp -
    min (x.d.getDecodeExp - ((x.d.len : ℤ) - 1)) (y.d.getDecodeExp - ((y.d.len : ℤ) - 1)) + 1).toNat
  movex_eq : movex = sumLen - 9
  shift_eq : (shift : ℤ) = x.d.getDecodeExp - y.d.getDecodeExp
  count_eq : (k : ℤ) = (y.d.len : ℤ) - movex
  len_eq : n = sumLen - movex
  left_le : x.d.len ≤ n
  count_pos : 0 < k
  right_le : shift + k ≤ n
  n_le : n ≤ 9
  cut : k < y.d.len → n = 9 ∧ shift + k = n

theorem Normal.exists_alignment (hx : x.Normal) (hy : y.Normal)
    (hle : y.d.getDecodeExp ≤ x.d.getDecodeExp) (hgap : x.d.getDecodeExp < y.d.getDecodeExp + 9) :
    ∃ sumLen movex shift k n, Alignment x y sumLen movex shift k n := by
  have hlx : x.d.len ≤ 9 := hx.len_le
  have hlx0 := hx.len_pos
  have hly0 := hy.len_pos
  generalize hS : (x.d.getDecodeExp - min (x.d.getDecodeExp - ((x.d.len : ℤ) - 1))
    (y.d.getDecodeExp - ((y.d.len : ℤ) - 1)) + 1).toNat = S
  refine ⟨S, S - 9, (x.d.getDecodeExp - y.d.getDecodeExp).toNat, y.d.len - (S - 9), S - (S - 9),
    hS.symm, rfl, ?_, ?_, rfl, ?_, ?_, ?_, ?_, ?_⟩ <;> omega

/-- The cells of the sum before the loop: the digits of the augend, and zeros. -/
def augendCells (x : ObNumber) (n : ℕ) : List ℕ := x.used ++ List.replicate (n - x.d.len) 0

section

variable (hx : x.Normal)
include hx

theorem Normal.length_augendCells (hn : x.d.len ≤ n) : (augendCells x n).length = n := by
  rw [augendCells, length_append, hx.length_used, length_replicate]
  omega

theorem Normal.augendCells_lt : ∀ a ∈ augendCells x n, a < base := by
  intro a ha
  rcases mem_append.mp ha with ha | ha
  · exact hx.digit_lt ha
  · rw [eq_of_mem_replicate ha]
    decide

theorem Normal.pow_le_augendCells (hn : x.d.len ≤ n) :
    base ^ (n - 1) ≤ ofDigitsBE base (augendCells x n) := by
  obtain ⟨c, ks, hused, hc⟩ := hx.head_used
  have hlen := congrArg (· - 1) (hx.length_augendCells hn)
  simp only [augendCells, hused, cons_append, length_cons, Nat.add_sub_cancel] at hlen ⊢
  rw [← hlen]
  exact pow_le_ofDigitsBE hc

omit hx in
/-- The augend, in units of the last cell. -/
theorem magnitude_eq_augendCells (hn : x.d.len ≤ n) :
    x.magnitude =
      ofDigitsBE base (augendCells x n) * (base : ℚ) ^ (x.d.getDecodeExp - n + 1) := by
  rw [augendCells, ofDigitsBE_append, ofDigitsBE_replicate_zero, length_replicate, add_zero,
    magnitude]
  push_cast
  rw [mul_assoc, ← zpow_natCast, ← zpow_add₀ base_pos.ne']
  congr 2
  omega

theorem Normal.getD_digits_lt {i : ℕ} (hi : i < x.d.len) : x.digits.getD i 0 < base := by
  have hbuf := hx.buffer
  have hmem := hx.digit_lt (getElem_mem (n := i) (by rw [hx.length_used]; exact hi))
  rw [getD_eq_getElem _ _ (by omega)]
  simpa only [used, getElem_take] using hmem

end

/-- The state in which the loop of an addition starts. -/
def addStart (x y : ObNumber) (movex n : ℕ) : AddState :=
  { digits := 0 :: (augendCells x n ++ List.replicate (9 - n) 0)
    carry := 0
    curExp := min (x.d.getDecodeExp - ((x.d.len : ℤ) - 1))
      (y.d.getDecodeExp - ((y.d.len : ℤ) - 1)) + movex
    curAddendExp := y.d.getDecodeExp - ((y.d.len : ℤ) - 1) + movex
    curAddendId := (y.d.len : ℤ) - 1 - movex
    sumLen := n
    checkSumLen := true }

section

variable {S movex : ℕ} (hal : Alignment x y S movex shift k n)
include hal

theorem Alignment.addInv_start : AddInv x.d.getDecodeExp shift k n (addStart x y movex n) := by
  have hsumLen := hal.sumLen_eq
  have hmovex := hal.movex_eq
  have hshift := hal.shift_eq
  have hcount := hal.count_eq
  have hneq := hal.len_eq
  have hpos := hal.count_pos
  constructor <;> simp only [addStart] <;> omega

theorem Alignment.addAligned_eq (d : ObNumberDesc) (hx : x.Normal) :
    let s := addLoop y.digits n (addStart x y movex n)
    addAligned d x y =
      if s.carry ≠ 0 then
        assignChecked (d.calcDescAndCheck (x.d.getDecodeExp + 1) (s.sumLen + 1) false)
          ((s.digits.set 0 1).take (s.sumLen + 1))
      else
        assignChecked (d.calcDescAndCheck x.d.getDecodeExp s.sumLen false)
          ((s.digits.drop 1).take s.sumLen) := by
  have htake : x.digits.take (min x.d.len 9) = x.used := by
    rw [used, Nat.min_eq_left (show x.d.len ≤ 9 from hx.len_le)]
  have hcells : 0 :: x.used ++ List.replicate (9 - x.used.length) 0 =
      0 :: (augendCells x n ++ List.replicate (9 - n) 0) := by
    have hleft := hal.left_le
    have hn9 := hal.n_le
    rw [augendCells, append_assoc, replicate_append_replicate, hx.length_used, cons_append]
    congr 3
    omega
  unfold addAligned
  simp only [show maxDecimalDigit = 9 from rfl, htake, hcells, ← hal.sumLen_eq, ← hal.movex_eq,
    ← hal.len_eq]
  rfl

end

/-- **Adding** to the number of the larger exponent. -/
theorem addAligned_spec {d : ObNumberDesc} (hx : x.Normal) (hy : y.Normal)
    (hle : y.d.getDecodeExp ≤ x.d.getDecodeExp) (hgap : x.d.getDecodeExp < y.d.getDecodeExp + 9)
    (hv : InRange v) (habs : |v| = x.magnitude + y.magnitude)
    (hsign : d.sign.toRat = (SignType.sign v : ℤ)) :
    ∃ r, roundResult true (addAligned d x y) = .ok r ∧ r.Canonical ∧ r.toRat = rounded v := by
  obtain ⟨S, movex, shift, k, n, hal⟩ := hx.exists_alignment hy hle hgap
  have hcount := hal.count_eq
  have hk : k ≤ y.d.len := by omega
  have haslen := hx.length_augendCells hal.left_le
  obtain ⟨cs, hcslen, hcslt, hdigits, hcarry, hval, -, hlen⟩ :=
    addLoop_spec (s := addStart x y movex n) (by rw [haslen]; exact hal.addInv_start) rfl
      hx.augendCells_lt
      (Nat.zero_le 1) fun i hi => hy.getD_digits_lt (hi.trans_le hk)
  rw [haslen] at hcslen hdigits hcarry hval hlen
  replace hlen := hlen rfl rfl
  simp only [addStart, add_zero] at hval
  rw [← addStart] at hval
  -- the value, in units of the last cell
  set w := (base : ℚ) ^ (x.d.getDecodeExp - n + 1) with hw
  have hwpos : 0 < w := zpow_pos base_pos _
  have hxmag := magnitude_eq_augendCells hal.left_le
  have hshift := hal.shift_eq
  obtain ⟨hylow, hyhigh, hyexact⟩ := hy.addendDigits_bounds
    (show y.d.getDecodeExp = x.d.getDecodeExp - shift by omega) hk hal.right_le
    (fun hlt => (hal.cut hlt).2)
  rw [← hw] at hxmag hylow hyhigh hyexact
  have hsum : (((ofDigitsBE base cs +
      (addLoop y.digits n (addStart x y movex n)).carry * base ^ n : ℕ) : ℚ)) =
      ofDigitsBE base (augendCells x n) +
        ofDigitsBE base (addendDigits y.digits shift k n) := by
    exact_mod_cast hval
  rw [hal.addAligned_eq d hx, hdigits]
  refine roundResult_sum hv hsign hcslt hcslen hal.n_le hcarry hlen ?_ ?_ ?_
  · rw [hval]
    exact (hx.pow_le_augendCells hal.left_le).trans (Nat.le_add_right _ _)
  · rw [← hw, Int.floor_eq_iff, le_div_iff₀ hwpos, div_lt_iff₀ hwpos, habs, hxmag]
    rw [Int.cast_natCast, hsum]
    constructor <;> linarith
  · intro hn9
    have hall : k = y.d.len := by
      by_contra hne
      have := (hal.cut (by omega)).1
      omega
    rw [← hw, hsum, habs, hxmag, hyexact hall]
    ring

/-- A copy of a number that the rest of the sum is too small to change. -/
theorem Normal.roundResult_copy (hx : x.Normal) (hv : InRange v)
    (hsign : x.d.sign.toRat = (SignType.sign v : ℤ)) (hlow : x.magnitude ≤ |v|)
    (hhigh : |v| < x.magnitude + (base : ℚ) ^ (x.d.getDecodeExp - 8)) :
    ∃ r, roundResult true (.ok x.deepCopyV3) = .ok r ∧ r.Canonical ∧ r.toRat = rounded v := by
  have hpos := hx.len_pos
  have hlen9 : x.d.len ≤ 9 := hx.len_le
  have hlen := hx.length_used
  have heq : x.deepCopyV3 = ⟨x.d, x.used⟩ := if_neg (by omega)
  have hcopy : (⟨x.d, x.used⟩ : ObNumber).Normal := heq ▸ (deepCopyV3_spec hx).1
  have hused : used ⟨x.d, x.used⟩ = x.used := take_of_length_le hlen.le
  obtain ⟨c, cs, hcons, hc⟩ := hx.head_used
  have hlt : ∀ a ∈ c :: cs, a < base := by
    intro a ha
    exact hx.digit_lt (by rw [hcons]; exact ha)
  set w := (base : ℚ) ^ (x.d.getDecodeExp - 8) with hw
  have hwpos : 0 < w := zpow_pos base_pos _
  have hmag : x.magnitude = ofDigitsBE base (firstNine x.used) * w := by
    rw [magnitude, hw]
    rcases Nat.lt_or_ge x.d.len 9 with hlt9 | hge9
    · rw [firstNine_of_lt (by omega) (by omega), ofDigitsBE_append, ofDigitsBE_replicate_zero,
        length_replicate, add_zero, hlen]
      push_cast
      rw [mul_assoc, ← zpow_natCast, ← zpow_add₀ base_pos.ne']
      congr 2
      omega
    · rw [firstNine_of_le (by omega), take_of_length_le (by omega)]
      congr 2
      omega
  have hfloor : ⌊|v| / w⌋ = ofDigitsBE base (firstNine x.used) := by
    rw [Int.floor_eq_iff, le_div_iff₀ hwpos, div_lt_iff₀ hwpos, Int.cast_natCast, ← hmag]
    exact ⟨hlow, by linarith⟩
  obtain ⟨hbound, hbound'⟩ := firstNine_bounds hc hlt
  rw [← hcons] at hbound hbound'
  have hrange := hv.exp hfloor hbound hbound'
  have hlead : Leading ⟨x.d, x.used⟩ v :=
    { len_pos := hpos
      len_le := hlen9.trans (by decide)
      buffer := hlen.ge
      digit_lt := by
        rw [hused]
        exact fun a ha => hx.digit_lt ha
      first := hcopy.first
      last := fun _ => hcopy.last
      exp_lt := hx.exp_lt
      exp_range := by
        show -15 ≤ x.d.getDecodeExp ∧ x.d.getDecodeExp ≤ 13
        omega
      sign_eq := hsign
      floor_eq := by
        rw [hused]
        exact hfloor }
  rw [heq]
  exact hlead.roundResult_eq

theorem sign_toRat (hx : x.Normal) : x.d.sign.toRat = (SignType.sign x.toRat : ℤ) := by
  have hpos := hx.magnitude_pos
  rw [toRat_eq]
  cases x.d.sign with
  | positive => simp [Sign.toRat, hpos]
  | negative => simp [Sign.toRat, hpos]

/-- Numbers of one sign: the sign of the sum, and its magnitude. -/
theorem Normal.sum_same_sign (hx : x.Normal) (hy : y.Normal) (hs : x.d.sign = y.d.sign) :
    x.d.sign.toRat = (SignType.sign (x.toRat + y.toRat) : ℤ) ∧
      |x.toRat + y.toRat| = x.magnitude + y.magnitude := by
  have hxpos := hx.magnitude_pos
  have hypos := hy.magnitude_pos
  have hsum : x.toRat + y.toRat = x.d.sign.toRat * (x.magnitude + y.magnitude) := by
    rw [toRat_eq, toRat_eq, ← hs]
    ring
  have hpos : 0 < x.magnitude + y.magnitude := by linarith
  rw [hsum, abs_sign_mul _ hpos]
  refine ⟨?_, rfl⟩
  cases x.d.sign with
  | positive => simp [Sign.toRat, hpos]
  | negative => simp only [Sign.toRat, neg_one_mul, Left.sign_neg, sign_pos hpos]; simp

theorem Canonical.cases (hx : x.Canonical) : (x.isZero = true ∧ x.toRat = 0) ∨ x.Normal := by
  rcases hx with hx | hx
  · exact .inl ⟨by simp [isZero, hx], Canonical.toRat_of_zero hx⟩
  · exact .inr hx

/-- **Addition of numbers of one sign** is correctly rounded. -/
theorem addV3_same_sign (hx : x.Canonical) (hy : y.Canonical) (hsame : 0 ≤ x.toRat * y.toRat)
    (hv : InRange (x.toRat + y.toRat)) :
    ∃ r, addV3 true x y = .ok r ∧ r.Canonical ∧ r.toRat = rounded (x.toRat + y.toRat) := by
  unfold addV3
  have hne : x.toRat + y.toRat ≠ 0 := by
    intro hzero
    have hlow := hv.1
    rw [hzero, abs_zero] at hlow
    exact absurd hlow (not_le.mpr (by positivity))
  rcases hx.cases with ⟨hx0, hxval⟩ | hx
  · rcases hy.cases with ⟨-, hyval⟩ | hy
    · exact absurd (by rw [hxval, hyval, add_zero]) hne
    · rw [if_pos hx0]
      rw [hxval, zero_add] at hv ⊢
      refine hy.roundResult_copy hv (sign_toRat hy) (abs_toRat hy).ge ?_
      rw [abs_toRat hy]
      linarith [zpow_pos base_pos (y.d.getDecodeExp - 8)]
  rw [if_neg (by rw [hx.isZero_eq]; simp)]
  rcases hy.cases with ⟨hy0, hyval⟩ | hy
  · rw [if_pos hy0]
    rw [hyval, add_zero] at hv ⊢
    refine hx.roundResult_copy hv (sign_toRat hx) (abs_toRat hx).ge ?_
    rw [abs_toRat hx]
    linarith [zpow_pos base_pos (x.d.getDecodeExp - 8)]
  have hs : x.d.sign = y.d.sign := by
    have hxpos := hx.magnitude_pos
    have hypos := hy.magnitude_pos
    have hmul := mul_pos hxpos hypos
    rw [toRat_eq, toRat_eq] at hsame
    cases hsx : x.d.sign <;> cases hsy : y.d.sign <;> simp only [hsx, hsy, Sign.toRat] at hsame ⊢
    · nlinarith
    · nlinarith
  obtain ⟨hsign, habs⟩ := hx.sum_same_sign hy hs
  have hxbounds := hx.magnitude_bounds
  have hybounds := hy.magnitude_bounds
  rw [if_neg (by rw [hy.isZero_eq]; simp), if_pos hs]
  unfold addSameSign
  simp only [show ((maxDecimalDigit : ℕ) : ℤ) = 9 from rfl, ge_iff_le]
  split_ifs with hfar hfar' hswap
  · refine hx.roundResult_copy hv hsign (by rw [habs]; linarith [hy.magnitude_pos]) ?_
    have hpow : (base : ℚ) ^ (y.d.getDecodeExp + 1) ≤ (base : ℚ) ^ (x.d.getDecodeExp - 8) :=
      zpow_le_zpow_right₀ one_lt_base.le (by omega)
    rw [habs]
    linarith [hybounds.2]
  · refine hy.roundResult_copy hv (hs ▸ hsign) (by rw [habs]; linarith [hx.magnitude_pos]) ?_
    have hpow : (base : ℚ) ^ (x.d.getDecodeExp + 1) ≤ (base : ℚ) ^ (y.d.getDecodeExp - 8) :=
      zpow_le_zpow_right₀ one_lt_base.le (by omega)
    rw [habs]
    linarith [hxbounds.2]
  · exact addAligned_spec hy hx (by omega) (by omega) hv (by rw [habs, add_comm]) hsign
  · exact addAligned_spec hx hy (by omega) (by omega) hv habs hsign

end Andl.Number.ObNumber
