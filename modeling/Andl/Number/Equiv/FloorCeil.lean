import Andl.Number.Equiv.ObNumber

/-!
# Correctness of `floor` and `ceil`
-/

namespace Andl.Number

open List

namespace ObNumber

/-! ### The loops -/

theorem clearDigits_append (as bs cs : List ℕ) :
    clearDigits (as ++ (bs ++ cs)) as.length bs.length =
      as ++ (List.replicate bs.length 0 ++ cs) := by
  induction bs using List.reverseRecOn generalizing cs with
  | nil => rfl
  | append_singleton bs b ih =>
    rw [length_append, length_singleton, clearDigits, append_assoc, ih,
      ← append_assoc, singleton_append, set_append_right _ _ (by simp),
      replicate_succ']
    simp

theorem addOne_append (as bs : List ℕ) :
    (∃ ps c j, as = ps ++ c :: List.replicate j (base - 1) ∧ c ≠ base - 1 ∧
      addOne (as ++ bs) as.length = (ps ++ (c + 1) :: List.replicate j 0) ++ bs) ∨
    (as = List.replicate as.length (base - 1) ∧
      addOne (as ++ bs) as.length = List.replicate as.length 0 ++ bs) := by
  induction as using List.reverseRecOn generalizing bs with
  | nil => exact .inr ⟨rfl, rfl⟩
  | append_singleton as a ih =>
    have hget : (as ++ [a] ++ bs).getD as.length 0 = a := by simp
    have hset (v : ℕ) : (as ++ [a] ++ bs).set as.length v = as ++ v :: bs := by simp
    rw [length_append, length_singleton, addOne, hget, hset, hset]
    by_cases ha : a = base - 1
    · rw [if_neg (by simp [ha])]
      rcases ih (0 :: bs) with ⟨ps, c, j, has, hc, hadd⟩ | ⟨has, hadd⟩
      · refine .inl ⟨ps, c, j + 1, ?_, hc, ?_⟩
        · rw [ha, has, replicate_succ']
          simp
        · rw [hadd, replicate_succ']
          simp
      · right
        rw [hadd, replicate_succ', replicate_succ', ← has, ha]
        simp
    · rw [if_pos (Ne.symm ha)]
      exact .inl ⟨as, a, 0, by simp, ha, by simp⟩

theorem shiftDigits_append (a : ℕ) (as : List ℕ) (c : ℕ) (bs : List ℕ) :
    shiftDigits (a :: as ++ c :: bs) (as.length + 1) = a :: a :: as ++ bs := by
  induction as using List.reverseRecOn generalizing c bs with
  | nil => rfl
  | append_singleton as b ih =>
    have hget : (a :: (as ++ [b]) ++ c :: bs).getD (as.length + 1) 0 = b := by simp
    have hset (v : ℕ) : (a :: (as ++ [b]) ++ c :: bs).set (as.length + 1 + 1) v =
        a :: as ++ b :: v :: bs := by simp
    rw [length_append, length_singleton, shiftDigits, hget, hset, ih]
    simp

/-! ### Splitting at the point -/

theorem intLen_eq {d : ObNumberDesc} (hexp : d.exp < 128) :
    intLen d = if 0 ≤ d.getDecodeExp then d.getDecodeExp + 1 else -1 := by
  unfold intLen ObNumberDesc.se positiveExpBoundary negativeExpBoundary
  cases hs : d.sign with
  | positive =>
    rw [ObNumberDesc.getDecodeExp_positive hs]
    dsimp only
    split_ifs <;> omega
  | negative =>
    rw [ObNumberDesc.getDecodeExp_negative hs hexp]
    dsimp only
    split_ifs <;> omega

/-- The number has digits before and after the point. -/
def Mixed (x : ObNumber) : Prop :=
  0 ≤ x.d.getDecodeExp ∧ x.d.getDecodeExp + 1 < x.d.len

instance (x : ObNumber) : Decidable x.Mixed :=
  inferInstanceAs (Decidable (0 ≤ x.d.getDecodeExp ∧ x.d.getDecodeExp + 1 < x.d.len))

/-- The last digit before the point. -/
def unitsDigit (x : ObNumber) : ℕ := x.digits.getD x.d.getDecodeExp.toNat 0

/-- The buffer of a number with the digits `is` before and `fs` after the point. -/
structure Split (x : ObNumber) (is fs rest : List ℕ) : Prop where
  digits : x.digits = is ++ (fs ++ rest)
  used : x.used = is ++ fs
  int_length : (is.length : ℤ) = x.d.getDecodeExp + 1
  frac_length : 0 < fs.length

theorem Shaped.split {x : ObNumber} (hx : x.Shaped) (hm : x.Mixed) :
    ∃ is fs rest, x.Split is fs rest := by
  obtain ⟨hnonneg, hlt⟩ := hm
  have hbuf := hx.buffer
  set n := (x.d.getDecodeExp + 1).toNat
  have hused : x.used = x.digits.take n ++ x.used.drop n := by
    rw [ObNumber.used, ← take_append_drop n (x.digits.take x.d.len), take_take,
      Nat.min_eq_left (by omega), drop_append_of_le_length (by simp; omega)]
    simp
  refine ⟨x.digits.take n, x.used.drop n, x.digits.drop x.d.len, ?_, hused, ?_, ?_⟩
  · rw [← append_assoc, ← hused, ObNumber.used, take_append_drop]
  · rw [length_take]
    omega
  · rw [length_drop, hx.length_used]
    omega

namespace Split

variable {x : ObNumber} {is fs rest : List ℕ}

section

variable (h : x.Split is fs rest)
include h

theorem len_eq (hx : x.Shaped) : x.d.len = is.length + fs.length := by
  rw [← hx.length_used, h.used, length_append]

theorem int_pos (hm : x.Mixed) : 0 < is.length := by
  have hlen := h.int_length
  have hnonneg := hm.1
  omega

theorem int_digit_lt (hx : x.Shaped) : ∀ c ∈ is, c < base := by
  intro c hc
  apply hx.digit_lt
  rw [h.used]
  exact mem_append_left _ hc

theorem frac_digit_lt (hx : x.Shaped) : ∀ c ∈ fs, c < base := by
  intro c hc
  apply hx.digit_lt
  rw [h.used]
  exact mem_append_right _ hc

theorem int_first (hx : x.Shaped) (hm : x.Mixed) : is.getD 0 0 ≠ 0 := by
  have hfirst := hx.first
  rw [h.digits, getD_append _ _ _ _ (h.int_pos hm)] at hfirst
  exact hfirst

theorem unitsDigit_eq (hm : x.Mixed) : x.unitsDigit = is.getD (is.length - 1) 0 := by
  have hpos := h.int_pos hm
  have hlen := h.int_length
  rw [unitsDigit, h.digits, show x.d.getDecodeExp.toNat = is.length - 1 by omega,
    getD_append _ _ _ _ (by omega)]

theorem frac_pos (hx : x.Normal) : 0 < ofDigitsBE base fs := by
  have hne : fs ≠ [] := ne_nil_of_length_pos h.frac_length
  apply ofDigitsBE_pos_of_getLast hne
  have hlast := hx.getLast_used
  simp only [h.used] at hlast
  rwa [getLast_append_of_ne_nil _ hne] at hlast

theorem magnitude_eq (hx : x.Shaped) :
    x.magnitude = (ofDigitsBE base (is ++ fs) : ℚ) / (base : ℚ) ^ fs.length := by
  have hlen := h.len_eq hx
  have hint := h.int_length
  rw [magnitude, h.used, div_eq_mul_inv, ← zpow_natCast, ← zpow_neg]
  congr 2
  omega

theorem floor_magnitude (hx : x.Shaped) : ⌊x.magnitude⌋ = ofDigitsBE base is := by
  rw [h.magnitude_eq hx]
  exact floor_ofDigitsBE (by decide) (h.frac_digit_lt hx)

theorem ceil_magnitude (hx : x.Normal) : ⌈x.magnitude⌉ = ofDigitsBE base is + 1 := by
  rw [h.magnitude_eq hx.toShaped]
  exact ceil_ofDigitsBE (by decide) (h.frac_digit_lt hx.toShaped) (h.frac_pos hx)

theorem clearDigits_eq (hx : x.Shaped) :
    clearDigits x.digits is.length (x.d.len - is.length) =
      is ++ (List.replicate fs.length 0 ++ rest) := by
  rw [h.digits, h.len_eq hx, Nat.add_sub_cancel_left, clearDigits_append]

theorem intLen_eq (hx : x.Shaped) (hm : x.Mixed) : intLen x.d = is.length := by
  rw [ObNumber.intLen_eq hx.exp_lt, if_pos hm.1, h.int_length]

end

end Split

/-! ### Results -/

theorem getD_last_append_cons_replicate (ps : List ℕ) (c j v : ℕ) :
    (ps ++ c :: List.replicate j v).getD ((ps ++ c :: List.replicate j v).length - 1) 0 =
      if j = 0 then c else v := by
  cases j with
  | zero => simp
  | succ j =>
    rw [replicate_succ', ← cons_append, ← append_assoc]
    simp

theorem addOne_int {is : List ℕ} (bs : List ℕ) (hlt : ∀ c ∈ is, c < base)
    (hfirst : is.getD 0 0 ≠ 0) :
    (∃ js : List ℕ, addOne (is ++ bs) is.length = js ++ bs ∧ js.length = is.length ∧
      (∀ c ∈ js, c < base) ∧ js.getD 0 0 ≠ 0 ∧ ofDigitsBE base js = ofDigitsBE base is + 1 ∧
      (js.getD (js.length - 1) 0 = 0 ↔ is.getD (is.length - 1) 0 = base - 1)) ∨
    (is = List.replicate is.length (base - 1) ∧
      addOne (is ++ bs) is.length = List.replicate is.length 0 ++ bs) := by
  rcases addOne_append is bs with ⟨ps, c, j, his, hc, hadd⟩ | hall
  · refine .inl ⟨_, hadd, ?_, ?_, ?_, ?_, ?_⟩
    · simp [his]
    · intro a ha
      have hclt : c < base := hlt c (by simp [his])
      rcases mem_append.mp ha with ha | ha
      · exact hlt a (by simp [his, ha])
      · rcases mem_cons.mp ha with rfl | ha
        · omega
        · rw [eq_of_mem_replicate ha]
          decide
    · cases ps with
      | nil => simp
      | cons a ps => simpa [his] using hfirst
    · rw [his]
      exact ofDigitsBE_carry (by decide) ps c j
    · rw [his, getD_last_append_cons_replicate, getD_last_append_cons_replicate]
      by_cases hj : j = 0 <;> simp [hj, hc]
  · exact .inr hall

theorem shiftDigits_replicate (k : ℕ) (bs : List ℕ) :
    (shiftDigits (List.replicate (k + 1) 0 ++ 0 :: bs) (k + 1)).set 0 1 =
      1 :: List.replicate (k + 1) 0 ++ bs := by
  have hshift := shiftDigits_append 0 (List.replicate k 0) 0 bs
  rw [length_replicate] at hshift
  rw [replicate_succ, hshift]
  simp

theorem ofDigitsBE_one_cons (n : ℕ) : ofDigitsBE base (1 :: List.replicate n 0) = base ^ n := by
  simp [ofDigitsBE_cons]

/-! ### Rounding towards zero -/

namespace Split

variable {x : ObNumber} {is fs rest : List ℕ}

section

variable (h : x.Split is fs rest)
include h

theorem int_le (hx : x.Shaped) : is.length < maxStoreLen := by
  have hlen := h.len_eq hx
  have hle := hx.len_le
  have hpos := h.frac_length
  omega

theorem represents_int (hx : x.Shaped) (hm : x.Mixed) (tail : List ℕ) :
    Represents ⟨{ x.d with len := is.length }, is ++ tail⟩
      (x.d.sign.toRat * (⌊x.magnitude⌋ : ℤ)) ↔ x.unitsDigit ≠ 0 := by
  have hpos := h.int_pos hm
  have hshaped : Shaped ⟨{ x.d with len := is.length }, is ++ tail⟩ :=
    shaped_mk rfl hpos (h.int_le hx).le (h.int_digit_lt hx) (h.int_first hx hm) hx.exp_lt
      hx.exp_range
  rw [hshaped.represents_iff, last_mk rfl hpos, h.unitsDigit_eq hm]
  have hexp : ({ x.d with len := is.length } : ObNumberDesc).getDecodeExp - is.length + 1 = 0 := by
    show x.d.getDecodeExp - is.length + 1 = 0
    have hlen := h.int_length
    omega
  rw [toRat_mk rfl, hexp, zpow_zero, mul_one, h.floor_magnitude hx]
  simp

/-! ### Rounding away from zero -/

theorem represents_succ (hx : x.Normal) (hm : x.Mixed) {js : List ℕ} (hlen : js.length = is.length)
    (hlt : ∀ c ∈ js, c < base) (hfirst : js.getD 0 0 ≠ 0)
    (hval : ofDigitsBE base js = ofDigitsBE base is + 1)
    (hlast : js.getD (js.length - 1) 0 = 0 ↔ is.getD (is.length - 1) 0 = base - 1) (tail : List ℕ) :
    Represents ⟨{ x.d with len := is.length }, js ++ tail⟩
      (x.d.sign.toRat * (⌈x.magnitude⌉ : ℤ)) ↔ x.unitsDigit ≠ base - 1 := by
  have hpos := h.int_pos hm
  have hshaped : Shaped ⟨{ x.d with len := is.length }, js ++ tail⟩ :=
    shaped_mk hlen.symm (hlen ▸ hpos) (hlen ▸ (h.int_le hx.toShaped).le) hlt hfirst hx.exp_lt
      hx.exp_range
  rw [hshaped.represents_iff, last_mk hlen.symm (hlen ▸ hpos), h.unitsDigit_eq hm, ne_eq, hlast]
  have hexp : ({ x.d with len := is.length } : ObNumberDesc).getDecodeExp - js.length + 1 = 0 := by
    show x.d.getDecodeExp - js.length + 1 = 0
    have hint := h.int_length
    omega
  rw [toRat_mk hlen.symm, hexp, zpow_zero, mul_one, h.ceil_magnitude hx, hval]
  push_cast
  rfl

theorem ceil_magnitude_of_nines (hx : x.Normal) (hall : is = List.replicate is.length (base - 1)) :
    ⌈x.magnitude⌉ = ((base ^ is.length : ℕ) : ℤ) := by
  have hrep := ofDigitsBE_replicate_pred (b := base) (by decide) is.length
  rw [← hall] at hrep
  rw [h.ceil_magnitude hx, ← hrep]
  push_cast
  rfl

theorem unitsDigit_of_nines (hm : x.Mixed)
    (hall : is = List.replicate is.length (base - 1)) : x.unitsDigit = base - 1 := by
  have hpos := h.int_pos hm
  rw [h.unitsDigit_eq hm, hall, length_replicate, getD_replicate _ (by omega)]

theorem toRat_carry (hx : x.Normal) (hall : is = List.replicate is.length (base - 1))
    {d : ObNumberDesc} {n : ℕ} (hsign : d.sign = x.d.sign)
    (hexp : d.getDecodeExp = x.d.getDecodeExp + 1) (hlen : d.len = n + 1) (tail : List ℕ) :
    toRat ⟨d, 1 :: List.replicate n 0 ++ tail⟩ = x.d.sign.toRat * (⌈x.magnitude⌉ : ℤ) := by
  have hint := h.int_length
  rw [toRat_mk (by simp [hlen]), ofDigitsBE_one_cons, h.ceil_magnitude_of_nines hx hall, hsign,
    mul_assoc]
  push_cast
  rw [← zpow_natCast, ← zpow_natCast, ← zpow_add₀ base_pos.ne', hexp]
  congr 2
  simp only [length_cons, length_replicate]
  omega

theorem represents_carry (hx : x.Normal) (hall : is = List.replicate is.length (base - 1))
    {d : ObNumberDesc} {n : ℕ} (hsign : d.sign = x.d.sign)
    (hexp : d.getDecodeExp = x.d.getDecodeExp + 1) (hlen : d.len = n + 1) (hle : n < maxStoreLen)
    (hlt : d.exp < 128) (hmax : x.d.getDecodeExp ≤ 13) (tail : List ℕ) :
    Represents ⟨d, 1 :: List.replicate n 0 ++ tail⟩ (x.d.sign.toRat * (⌈x.magnitude⌉ : ℤ)) ↔
      n = 0 := by
  have hrange := hx.exp_range.1
  have hdlen : d.len = (1 :: List.replicate n 0).length := by simp [hlen]
  have hdigit : ∀ c ∈ 1 :: List.replicate n 0, c < base := by
    intro c hc
    rcases mem_cons.mp hc with rfl | hc
    · decide
    · rw [eq_of_mem_replicate hc]
      decide
  have hshaped : Shaped ⟨d, 1 :: List.replicate n 0 ++ tail⟩ :=
    shaped_mk hdlen (by simp) (by simpa using hle) hdigit (by simp) hlt (by omega)
  rw [hshaped.represents_iff (h.toRat_carry hx hall hsign hexp hlen tail),
    last_mk hdlen (by simp)]
  have hlast := getD_last_append_cons_replicate [] 1 n 0
  rw [nil_append] at hlast
  rw [hlast]
  by_cases hn : n = 0 <;> simp [hn]

end

end Split

/-! ### `floor` and `ceil` -/

variable {x : ObNumber}

/-- `floor` succeeds with the canonical number of the mathematical floor. -/
def FloorExact (x : ObNumber) : Prop :=
  ∃ r, x.floor 0 = .ok r ∧ r.Represents (⌊x.toRat⌋ : ℤ)

/-- `ceil` succeeds with the canonical number of the mathematical ceiling. -/
def CeilExact (x : ObNumber) : Prop :=
  ∃ r, x.ceil 0 = .ok r ∧ r.Represents (⌈x.toRat⌉ : ℤ)

theorem exists_ok_iff {o : ObResult ObNumber} {r : ObNumber} {v : ℚ} (h : o = .ok r) :
    (∃ r, o = .ok r ∧ r.Represents v) ↔ r.Represents v := by
  constructor
  · rintro ⟨r', hr', hrep⟩
    rw [h, Except.ok.injEq] at hr'
    exact hr' ▸ hrep
  · intro hrep
    exact ⟨r, h, hrep⟩

theorem toRat_positive (hs : x.d.sign = .positive) : x.toRat = x.magnitude := by
  rw [toRat_eq, hs, Sign.toRat, one_mul]

theorem toRat_negative (hs : x.d.sign = .negative) : x.toRat = -x.magnitude := by
  rw [toRat_eq, hs, Sign.toRat, neg_one_mul]

namespace Shaped

theorem digits_ne_nil (hx : x.Shaped) : x.digits ≠ [] := by
  apply ne_nil_of_length_pos
  have hpos := hx.len_pos
  have hbuf := hx.buffer
  omega

end Shaped

namespace Split

variable {is fs rest : List ℕ}

section

variable (h : x.Split is fs rest)
include h

theorem int_between (hx : x.Shaped) (hm : x.Mixed) :
    (0 : ℤ) < is.length ∧ (is.length : ℤ) < x.d.len := by
  have hpos := h.int_pos hm
  have hlen := h.len_eq hx
  have hfrac := h.frac_length
  omega

/-- What `floor` makes of a number with digits on both sides of the point. -/
theorem floor_eq (hx : x.Shaped) (hm : x.Mixed) :
    x.floor 0 = .ok
      (match x.d.sign with
      | .positive =>
        ⟨{ x.d with len := is.length }, is ++ (List.replicate fs.length 0 ++ rest)⟩
      | .negative =>
        let digits := addOne (is ++ (List.replicate fs.length 0 ++ rest)) is.length
        if digits.getD 0 0 = 0 then
          ⟨{ x.d.decExp with len := is.length }, (shiftDigits digits is.length).set 0 1⟩
        else ⟨{ x.d with len := is.length }, digits⟩) := by
  unfold floor
  rw [if_neg (by simp), hx.isZero_eq, if_neg (by simp), if_neg hx.digits_ne_nil]
  simp only [h.intLen_eq hx hm]
  rw [if_pos (h.int_between hx hm)]
  simp only [Int.toNat_natCast, h.clearDigits_eq hx, h.int_le hx, if_true]
  obtain ⟨⟨len, exp, sign⟩, digits⟩ := x
  cases sign with
  | positive => rfl
  | negative =>
    dsimp only
    split_ifs <;> rfl

/-- What `ceil` makes of a number with digits on both sides of the point. -/
theorem ceil_eq (hx : x.Shaped) (hm : x.Mixed) :
    x.ceil 0 = .ok
      (match x.d.sign with
      | .positive =>
        let digits := addOne (is ++ (List.replicate fs.length 0 ++ rest)) is.length
        if digits.getD 0 0 = 0 then
          ⟨{ x.d with len := is.length + 1 }.incExp, (shiftDigits digits is.length).set 0 1⟩
        else ⟨{ x.d with len := is.length }, digits⟩
      | .negative =>
        ⟨{ x.d with len := is.length }, is ++ (List.replicate fs.length 0 ++ rest)⟩) := by
  unfold ceil
  rw [if_neg (by simp), hx.isZero_eq, if_neg (by simp), if_neg hx.digits_ne_nil]
  simp only [h.intLen_eq hx hm]
  rw [if_pos (h.int_between hx hm)]
  simp only [Int.toNat_natCast, h.clearDigits_eq hx]
  obtain ⟨⟨len, exp, sign⟩, digits⟩ := x
  cases sign with
  | positive =>
    dsimp only
    split_ifs <;> rfl
  | negative => rfl

theorem floorExact_positive (hx : x.Shaped) (hm : x.Mixed)
    (hs : x.d.sign = .positive) : FloorExact x ↔ x.unitsDigit ≠ 0 := by
  have heq : x.floor 0 =
      .ok ⟨{ x.d with len := is.length }, is ++ (List.replicate fs.length 0 ++ rest)⟩ := by
    rw [h.floor_eq hx hm]
    split
    · rfl
    · next hneg => exact absurd (hs.symm.trans hneg) (by decide)
  have hint := h.represents_int hx hm (List.replicate fs.length 0 ++ rest)
  rw [hs, Sign.toRat, one_mul] at hint
  rw [FloorExact, exists_ok_iff heq, toRat_positive hs]
  exact hint

theorem ceilExact_negative (hx : x.Shaped) (hm : x.Mixed)
    (hs : x.d.sign = .negative) : CeilExact x ↔ x.unitsDigit ≠ 0 := by
  have heq : x.ceil 0 =
      .ok ⟨{ x.d with len := is.length }, is ++ (List.replicate fs.length 0 ++ rest)⟩ := by
    rw [h.ceil_eq hx hm]
    split
    · next hpos => exact absurd (hs.symm.trans hpos) (by decide)
    · rfl
  have hint := h.represents_int hx hm (List.replicate fs.length 0 ++ rest)
  rw [hs, Sign.toRat, neg_one_mul] at hint
  rw [CeilExact, exists_ok_iff heq, toRat_negative hs, Int.ceil_neg, Int.cast_neg]
  exact hint

/-- The digits after the point are cleared, so that a carry has room. -/
theorem cleared_tail : ∃ bs, List.replicate fs.length 0 ++ rest = 0 :: bs := by
  obtain ⟨n, hn⟩ := Nat.exists_eq_succ_of_ne_zero (Nat.ne_of_gt h.frac_length)
  exact ⟨List.replicate n 0 ++ rest, by rw [hn, replicate_succ, cons_append]⟩

theorem ceilExact_positive (hx : x.Normal) (hm : x.Mixed) (hs : x.d.sign = .positive)
    (hmax : x.d.getDecodeExp ≤ 13) : CeilExact x ↔ x.unitsDigit ≠ base - 1 := by
  have hceil : x.toRat = x.magnitude := toRat_positive hs
  have hfirst := h.int_first hx.toShaped hm
  have hlt := h.int_digit_lt hx.toShaped
  obtain ⟨bs, hbs⟩ := h.cleared_tail
  have heq := h.ceil_eq hx.toShaped hm
  rw [hbs] at heq
  rcases addOne_int (0 :: bs) hlt hfirst with
    ⟨js, hadd, hlen, hdigit, hjs, hval, hlast⟩ | ⟨hall, hadd⟩
  · -- the carry stops before the first digit
    have hr : x.ceil 0 = .ok ⟨{ x.d with len := is.length }, js ++ 0 :: bs⟩ := by
      rw [heq, hadd]
      split
      · rw [if_neg]
        rwa [getD_append _ _ _ _ (hlen ▸ h.int_pos hm)]
      · next hneg => exact absurd (hs.symm.trans hneg) (by decide)
    have hrep := h.represents_succ hx hm hlen hdigit hjs hval hlast (0 :: bs)
    rw [hs, Sign.toRat, one_mul] at hrep
    rw [CeilExact, exists_ok_iff hr, hceil]
    exact hrep
  · -- the carry is a new digit in front, and the last digit is zero
    obtain ⟨k, hk⟩ := Nat.exists_eq_succ_of_ne_zero (Nat.ne_of_gt (h.int_pos hm))
    have hr : x.ceil 0 = .ok ⟨{ x.d with len := is.length + 1 }.incExp,
        1 :: List.replicate (k + 1) 0 ++ bs⟩ := by
      rw [heq, hadd]
      split
      · rw [hk, if_pos (by simp), shiftDigits_replicate]
      · next hneg => exact absurd (hs.symm.trans hneg) (by decide)
    have hle := h.int_le hx.toShaped
    have hexp : x.d.exp < 127 := by
      rw [ObNumberDesc.getDecodeExp_positive hs] at hmax
      omega
    have hrep := h.represents_carry hx hall (d := { x.d with len := is.length + 1 }.incExp)
      (n := k + 1) rfl (ObNumberDesc.getDecodeExp_incExp hs hexp)
      (by show is.length + 1 = k + 1 + 1; omega) (by omega) (ObNumberDesc.incExp_exp_lt _)
      hmax bs
    rw [hs, Sign.toRat, one_mul] at hrep
    rw [CeilExact, exists_ok_iff hr, hceil, hrep, h.unitsDigit_of_nines hm hall]
    simp

theorem floorExact_negative (hx : x.Normal) (hm : x.Mixed)
    (hs : x.d.sign = .negative) (hmax : x.d.getDecodeExp ≤ 13) :
    FloorExact x ↔ x.unitsDigit ≠ base - 1 ∨ x.d.getDecodeExp = 0 := by
  have hfloor : ((⌊x.toRat⌋ : ℤ) : ℚ) = -((⌈x.magnitude⌉ : ℤ) : ℚ) := by
    rw [toRat_negative hs, Int.floor_neg, Int.cast_neg]
  have hfirst := h.int_first hx.toShaped hm
  have hlt := h.int_digit_lt hx.toShaped
  have hint := h.int_length
  obtain ⟨bs, hbs⟩ := h.cleared_tail
  have heq := h.floor_eq hx.toShaped hm
  rw [hbs] at heq
  rcases addOne_int (0 :: bs) hlt hfirst with
    ⟨js, hadd, hlen, hdigit, hjs, hval, hlast⟩ | ⟨hall, hadd⟩
  · have hr : x.floor 0 = .ok ⟨{ x.d with len := is.length }, js ++ 0 :: bs⟩ := by
      rw [heq, hadd]
      split
      · next hpos => exact absurd (hs.symm.trans hpos) (by decide)
      · rw [if_neg]
        rwa [getD_append _ _ _ _ (hlen ▸ h.int_pos hm)]
    have hrep := h.represents_succ hx hm hlen hdigit hjs hval hlast (0 :: bs)
    rw [hs, Sign.toRat, neg_one_mul] at hrep
    rw [FloorExact, exists_ok_iff hr, hfloor, hrep]
    constructor
    · exact Or.inl
    · rintro (hunits | hzero)
      · exact hunits
      · -- a single digit that took no carry over was not the largest one
        have hone : is.length = 1 := by omega
        rw [h.unitsDigit_eq hm, ne_eq, ← hlast, hlen, hone]
        exact hjs
  · obtain ⟨k, hk⟩ := Nat.exists_eq_succ_of_ne_zero (Nat.ne_of_gt (h.int_pos hm))
    have hr : x.floor 0 = .ok ⟨{ x.d.decExp with len := is.length },
        1 :: List.replicate k 0 ++ 0 :: bs⟩ := by
      rw [heq, hadd]
      split
      · next hpos => exact absurd (hs.symm.trans hpos) (by decide)
      · rw [hk, if_pos (by simp), shiftDigits_replicate, replicate_succ']
        simp
    have hle := h.int_le hx.toShaped
    have hexp : 0 < x.d.exp := by
      rw [ObNumberDesc.getDecodeExp_negative hs hx.exp_lt] at hmax
      omega
    have hrep := h.represents_carry hx hall (d := { x.d.decExp with len := is.length })
      (n := k) rfl (ObNumberDesc.getDecodeExp_decExp hs hexp hx.exp_lt)
      hk (by omega) x.d.decExp_exp_lt hmax (0 :: bs)
    rw [hs, Sign.toRat, neg_one_mul] at hrep
    rw [FloorExact, exists_ok_iff hr, hfloor, hrep, h.unitsDigit_of_nines hm hall]
    simp only [ne_eq, not_true_eq_false, false_or]
    omega

end

end Split

/-! ### Numbers without digits on one side of the point -/

theorem represents_zero {r : ObNumber} (h : r.d = { len := 0, exp := 0, sign := .positive }) :
    r.Represents 0 := by
  have hrep := Canonical.represents (Or.inl h)
  rwa [Canonical.toRat_of_zero h] at hrep

theorem represents_one {d : ObNumberDesc} (hlen : d.len = 1) (hexp : d.getDecodeExp = 0)
    (hlt : d.exp < 128) (tail : List ℕ) : Represents ⟨d, [1] ++ tail⟩ d.sign.toRat := by
  have hshaped : Shaped ⟨d, [1] ++ tail⟩ :=
    shaped_mk (by simpa using hlen) (by simp) (by decide) (by simp [base]) (by simp) hlt
      (by omega)
  have hval : toRat ⟨d, [1] ++ tail⟩ = d.sign.toRat := by
    rw [toRat_mk (by simpa using hlen), hexp]
    simp
  rw [hshaped.represents_iff hval, last_mk (by simpa using hlen) (by simp)]
  simp

namespace Normal

theorem clearDigits_zero (hx : x.Normal) :
    ∃ tail, (clearDigits x.digits 0 x.d.len).set 0 1 = [1] ++ tail := by
  have hclear := clearDigits_append [] x.used (x.digits.drop x.d.len)
  rw [hx.length_used, nil_append, used, take_append_drop, length_nil] at hclear
  obtain ⟨n, hn⟩ := Nat.exists_eq_succ_of_ne_zero (Nat.ne_of_gt hx.len_pos)
  rw [hclear, hn, replicate_succ]
  exact ⟨_, rfl⟩

theorem magnitude_lt_one (hx : x.Normal) (hneg : x.d.getDecodeExp < 0) : x.magnitude < 1 := by
  calc x.magnitude < (base : ℚ) ^ (x.d.getDecodeExp + 1) := hx.magnitude_bounds.2
    _ ≤ (base : ℚ) ^ (0 : ℤ) := zpow_le_zpow_right₀ one_lt_base.le (by omega)
    _ = 1 := zpow_zero _

theorem intLen_of_neg (hx : x.Normal) (hneg : x.d.getDecodeExp < 0) : intLen x.d = -1 := by
  rw [intLen_eq hx.exp_lt, if_neg (by omega)]

/-- Between -1 and 1. -/
theorem floorExact_of_neg (hx : x.Normal) (hneg : x.d.getDecodeExp < 0) : FloorExact x := by
  have hpos := hx.magnitude_pos
  have hlt := hx.magnitude_lt_one hneg
  unfold FloorExact floor
  rw [if_neg (by simp), hx.isZero_eq, if_neg (by simp), if_neg hx.digits_ne_nil]
  simp only [hx.intLen_of_neg hneg]
  rw [if_neg (by omega), if_pos trivial]
  cases hs : x.d.sign with
  | positive =>
    refine ⟨_, rfl, ?_⟩
    rw [toRat_positive hs, Int.floor_eq_zero_iff.mpr ⟨hpos.le, hlt⟩, Int.cast_zero]
    exact represents_zero rfl
  | negative =>
    obtain ⟨tail, htail⟩ := hx.clearDigits_zero
    refine ⟨_, rfl, ?_⟩
    have hfloor : ⌊x.toRat⌋ = -1 := by
      rw [toRat_negative hs, Int.floor_eq_iff]
      push_cast
      constructor <;> linarith
    rw [hfloor, htail]
    have hone := represents_one (d := { x.d.setSe 0x40 with len := 1 }) rfl rfl
      (Nat.mod_lt _ (by decide)) tail
    simpa [Sign.toRat, ObNumberDesc.setSe] using hone

theorem ceilExact_of_neg (hx : x.Normal) (hneg : x.d.getDecodeExp < 0) : CeilExact x := by
  have hpos := hx.magnitude_pos
  have hlt := hx.magnitude_lt_one hneg
  unfold CeilExact ceil
  rw [if_neg (by simp), hx.isZero_eq, if_neg (by simp), if_neg hx.digits_ne_nil]
  simp only [hx.intLen_of_neg hneg]
  rw [if_neg (by omega), if_pos (by omega)]
  cases hs : x.d.sign with
  | positive =>
    obtain ⟨tail, htail⟩ := hx.clearDigits_zero
    refine ⟨_, rfl, ?_⟩
    have hceil : ⌈x.toRat⌉ = 1 := by
      rw [toRat_positive hs, Int.ceil_eq_iff]
      push_cast
      constructor <;> linarith
    rw [hceil, htail]
    have hone := represents_one (d := { x.d.setSe 0xc0 with len := 1 }) rfl rfl
      (Nat.mod_lt _ (by decide)) tail
    simpa [Sign.toRat, ObNumberDesc.setSe] using hone
  | negative =>
    refine ⟨_, rfl, ?_⟩
    rw [toRat_negative hs, Int.ceil_neg, Int.floor_eq_zero_iff.mpr ⟨hpos.le, hlt⟩]
    simpa using represents_zero (r := setZero ⟨x.d, clearDigits x.digits 0 x.d.len⟩) rfl

/-- Without digits after the point the number is an integer. -/
theorem exists_int (hlen : (x.d.len : ℤ) ≤ x.d.getDecodeExp + 1) :
    ∃ z : ℤ, x.toRat = z := by
  obtain ⟨k, hk⟩ := Int.eq_ofNat_of_zero_le (show 0 ≤ x.d.getDecodeExp - x.d.len + 1 by omega)
  have hmag : x.magnitude = ((ofDigitsBE base x.used * base ^ k : ℕ) : ℚ) := by
    rw [magnitude, hk]
    push_cast
    rw [← zpow_natCast]
  cases hs : x.d.sign with
  | positive =>
    refine ⟨(ofDigitsBE base x.used * base ^ k : ℕ), ?_⟩
    rw [toRat_positive hs, hmag, Int.cast_natCast]
  | negative =>
    refine ⟨-(ofDigitsBE base x.used * base ^ k : ℕ), ?_⟩
    rw [toRat_negative hs, hmag, Int.cast_neg, Int.cast_natCast]

end Normal

theorem Canonical.exact_of_int (hx : x.Canonical) {z : ℤ} (hz : x.toRat = z)
    (hfloor : x.floor 0 = .ok x) (hceil : x.ceil 0 = .ok x) : FloorExact x ∧ CeilExact x := by
  have hrep := hx.represents
  rw [hz] at hrep
  constructor
  · rw [FloorExact, exists_ok_iff hfloor, hz, Int.floor_intCast]
    exact hrep
  · rw [CeilExact, exists_ok_iff hceil, hz, Int.ceil_intCast]
    exact hrep

theorem Normal.exact_of_not_mixed (hx : x.Normal) (hm : ¬ x.Mixed) :
    FloorExact x ∧ CeilExact x := by
  by_cases hneg : x.d.getDecodeExp < 0
  · exact ⟨hx.floorExact_of_neg hneg, hx.ceilExact_of_neg hneg⟩
  · have hlen : (x.d.len : ℤ) ≤ x.d.getDecodeExp + 1 := by
      unfold Mixed at hm
      omega
    have hint : intLen x.d = x.d.getDecodeExp + 1 := by
      rw [intLen_eq hx.exp_lt, if_pos (by omega)]
    obtain ⟨z, hz⟩ := Normal.exists_int hlen
    refine Canonical.exact_of_int (.inr hx) hz ?_ ?_
    · unfold floor
      rw [if_neg (by simp), hx.isZero_eq, if_neg (by simp), if_neg hx.digits_ne_nil]
      simp only [hint]
      rw [if_neg (by omega), if_neg (by omega)]
    · unfold ceil
      rw [if_neg (by simp), hx.isZero_eq, if_neg (by simp), if_neg hx.digits_ne_nil]
      simp only [hint]
      rw [if_neg (by omega), if_neg (by omega)]

theorem exact_of_zero (hx : x.d = { len := 0, exp := 0, sign := .positive }) :
    FloorExact x ∧ CeilExact x := by
  have hzero : x.isZero = true := by simp [isZero, hx]
  refine Canonical.exact_of_int (.inl hx) (z := 0) ?_ ?_ ?_
  · rw [Canonical.toRat_of_zero hx, Int.cast_zero]
  · simp [floor, hzero]
  · simp [ceil, hzero]

/-! ### The whole -/

/-- The last digit before the point stays non-zero when the number is cut there, and when one is
added. -/
def KeepsUnits (x : ObNumber) : Prop :=
  x.unitsDigit ≠ 0 ∧
    (x.unitsDigit ≠ base - 1 ∨ x.d.sign = .negative ∧ x.d.getDecodeExp = 0)

/-- **`floor` and `ceil` give the canonical number** of the rounded value if and only if the last
digit before the point does not become zero. -/
theorem floor_ceil_exact_iff (hx : x.Canonical) (hmax : x.d.getDecodeExp ≤ 13) :
    FloorExact x ∧ CeilExact x ↔ (x.Mixed → x.KeepsUnits) := by
  rcases hx with hzero | hx
  · have hm : ¬ x.Mixed := by
      rw [Mixed, hzero]
      decide
    exact iff_of_true (exact_of_zero hzero) fun h => absurd h hm
  · by_cases hm : x.Mixed
    · obtain ⟨is, fs, rest, h⟩ := hx.split hm
      unfold KeepsUnits
      cases hs : x.d.sign with
      | positive =>
        rw [h.floorExact_positive hx.toShaped hm hs, h.ceilExact_positive hx hm hs hmax]
        simp [hm]
      | negative =>
        rw [h.floorExact_negative hx hm hs hmax, h.ceilExact_negative hx.toShaped hm hs]
        simp [hm, and_comm]
    · exact iff_of_true (hx.exact_of_not_mixed hm) fun h => absurd h hm

/-- The number 1.5. -/
def oneAndHalf : ObNumber := ⟨{ len := 2, exp := 64, sign := .positive }, [1, 500000000]⟩

theorem normal_oneAndHalf : oneAndHalf.Normal where
  len_pos := by decide
  len_le := by decide
  buffer := by decide
  digit_lt := by simp [used, oneAndHalf, base]
  first := by decide
  exp_lt := by decide
  exp_range := by decide
  last := by decide

theorem floor_ceil_exact_iff_oneAndHalf :
    (FloorExact oneAndHalf ∧ CeilExact oneAndHalf) ∧ oneAndHalf.Mixed := by
  refine ⟨(floor_ceil_exact_iff (.inr normal_oneAndHalf) (by decide)).mpr ?_, by decide⟩
  intro _
  exact ⟨by decide, .inl (by decide)⟩

/-- The number 1000000000.5. -/
def billionAndHalf : ObNumber := ⟨{ len := 3, exp := 65, sign := .positive }, [1, 0, 500000000]⟩

/-- The number 1000000000 in normal form. -/
def billion : ObNumber := ⟨{ len := 1, exp := 65, sign := .positive }, [1]⟩

theorem normal_billionAndHalf : billionAndHalf.Normal where
  len_pos := by decide
  len_le := by decide
  buffer := by decide
  digit_lt := by simp [used, billionAndHalf, base]
  first := by decide
  exp_lt := by decide
  exp_range := by decide
  last := by decide

theorem normal_billion : billion.Normal where
  len_pos := by decide
  len_le := by decide
  buffer := by decide
  digit_lt := by simp [used, billion, base]
  first := by decide
  exp_lt := by decide
  exp_range := by decide
  last := by decide

theorem toRat_billion : billion.toRat = 1000000000 := by
  rw [toRat, show billion.used = [1] from rfl, show billion.d.getDecodeExp = 1 by decide]
  norm_num [billion, Sign.toRat, base]

theorem toRat_billionAndHalf : billionAndHalf.toRat = 1000000000 + 1 / 2 := by
  rw [toRat, show billionAndHalf.used = [1, 0, 500000000] from rfl,
    show billionAndHalf.d.getDecodeExp = 1 by decide]
  norm_num [billionAndHalf, Sign.toRat, base, ofDigitsBE, Nat.ofDigits]

/-- The floor of a billion and a half keeps a digit of zero. -/
theorem floor_billionAndHalf :
    billionAndHalf.Canonical ∧ billionAndHalf.d.getDecodeExp ≤ 13 ∧
      billionAndHalf.floor 0 =
        .ok ⟨{ len := 2, exp := 65, sign := .positive }, [1, 0, 0]⟩ ∧
      billion.Canonical ∧ billion.toRat = (⌊billionAndHalf.toRat⌋ : ℤ) ∧
      isEqual ⟨{ len := 2, exp := 65, sign := .positive }, [1, 0, 0]⟩ billion = false ∧
      compare ⟨{ len := 2, exp := 65, sign := .positive }, [1, 0, 0]⟩ billion = 1 ∧
      ¬ FloorExact billionAndHalf := by
  have hfloor : billionAndHalf.floor 0 =
      .ok ⟨{ len := 2, exp := 65, sign := .positive }, [1, 0, 0]⟩ := rfl
  have hval : billion.toRat = (⌊billionAndHalf.toRat⌋ : ℤ) := by
    rw [toRat_billion, toRat_billionAndHalf]
    norm_num
  have hne : isEqual ⟨{ len := 2, exp := 65, sign := .positive }, [1, 0, 0]⟩ billion = false := by
    decide
  refine ⟨.inr normal_billionAndHalf, by decide, hfloor, .inr normal_billion, hval, hne,
    by decide, ?_⟩
  rw [FloorExact, exists_ok_iff hfloor]
  rintro ⟨-, hall⟩
  have heq := (hall billion (.inr normal_billion) hval).1
  rw [hne] at heq
  exact absurd heq (by decide)

end ObNumber

end Andl.Number
