import Andl.Number.Equiv.Compare
import Andl.Number.Equiv.Desc
import Andl.Number.Equiv.KnuthDiv
import Andl.Number.Rem

/-!
# Correctness of the remainder
-/

namespace Andl.Number.ObNumber

open List

open ObDivArray (fromDigits)

/-! ### Digits as cells -/

/-- The digits of a number as cells, least significant first. -/
theorem evalLE_reverse_map (ds : List ℕ) :
    evalLE base (ds.map Int.ofNat).reverse = (ofDigitsBE base ds : ℤ) := by
  induction ds with
  | nil => rfl
  | cons d ds ih =>
    rw [map_cons, reverse_cons, evalLE_append, ih, ofDigitsBE_cons]
    simp only [evalLE_cons, evalLE_nil, length_reverse, length_map, mul_zero, add_zero]
    push_cast
    rw [mul_comm]
    simp [add_comm]

theorem isDigits_map {ds : List ℕ} (h : ∀ c ∈ ds, c < base) : IsDigits base (ds.map Int.ofNat) := by
  intro d hd
  obtain ⟨c, hc, rfl⟩ := mem_map.mp hd
  have := h c hc
  simp only [Int.ofNat_eq_natCast]
  omega

namespace Normal

variable {x y : ObNumber}

/-- The cells of a number, with `n` zeros below. -/
theorem fromDigits_spec (hx : x.Normal) (n : ℕ) (hroom : x.d.len + n ≤ remBufferSize) :
    ∃ cells, fromDigits x.digits x.d.len (x.d.len - 1 + n + 1) = some cells ∧
      cells.length = x.d.len + n ∧ ObDivArray.IsDivisor cells ∧
      evalLE base cells = ((ofDigitsBE base x.used * base ^ n : ℕ) : ℤ) := by
  have hpos := hx.len_pos
  have hlen := hx.length_used
  set cells := List.replicate n (0 : ℤ) ++ (x.used.map Int.ofNat).reverse with hcells
  have hcellslen : cells.length = x.d.len + n := by
    simp [hcells, hlen, Nat.add_comm]
  refine ⟨cells, ?_, hcellslen, ⟨?_, ?_⟩, ?_⟩
  · unfold fromDigits
    have hsize : max (x.d.len - 1 + n + 1) x.d.len - x.d.len = n := by omega
    simp only [hsize]
    exact ObDivArray.inBuffer_eq_some (hcellslen ▸ hroom)
  · rw [hcells, IsDigits.append_iff]
    refine ⟨.replicate_zero ObDivArray.base_pos n, ?_⟩
    intro d hd
    exact isDigits_map (fun _ => hx.digit_lt) d (mem_reverse.mp hd)
  · obtain ⟨c, cs, hused, hc⟩ := hx.head_used
    have hcs : cs.length + 1 = x.d.len := by rw [← hlen, hused, length_cons]
    rw [hcellslen, hcells, hused, map_cons, reverse_cons, ← append_assoc,
      getD_append_right _ _ _ _ (by simp; omega)]
    simp only [length_append, length_replicate, length_reverse, length_map]
    rw [show x.d.len + n - 1 - (n + cs.length) = 0 by omega, getD_cons_zero]
    simp only [Int.ofNat_eq_natCast]
    omega
  · rw [hcells, evalLE_append, evalLE_replicate_zero, evalLE_reverse_map, length_replicate]
    push_cast
    ring

end Normal

/-! ### The number of a remainder -/

variable {r : List ℤ}

/-- Cells as digits. -/
theorem exists_digits (hr : IsDigits base r) :
    (∀ c ∈ r.reverse.map Int.toNat, c < base) ∧ (r.reverse.map Int.toNat).length = r.length ∧
      (ofDigitsBE base (r.reverse.map Int.toNat) : ℤ) = evalLE base r := by
  refine ⟨?_, by simp, ?_⟩
  · intro c hc
    obtain ⟨d, hd, rfl⟩ := mem_map.mp hc
    have := hr d (mem_reverse.mp hd)
    omega
  · rw [← evalLE_reverse_map, map_map]
    congr 1
    rw [← map_reverse, reverse_reverse]
    conv_rhs => rw [← map_id r]
    apply map_congr_left
    intro d hd
    simp [(hr d hd).1]

/-- Digits without zeros on either end, at the exponent `e`. -/
theorem magnitude_of_digits {c : ℕ} {cs : List ℕ} (hc : c ≠ 0) (hlt : ∀ a ∈ c :: cs, a < base)
    (e : ℤ) :
    (base : ℚ) ^ e ≤ ofDigitsBE base (c :: cs) * (base : ℚ) ^ (e - cs.length) ∧
      ofDigitsBE base (c :: cs) * (base : ℚ) ^ (e - cs.length) < (base : ℚ) ^ (e + 1) := by
  have hpow : (0 : ℚ) < (base : ℚ) ^ (e - cs.length) := zpow_pos base_pos _
  have hsplit (n : ℕ) : (base : ℚ) ^ (e - cs.length + n) =
      ((base ^ n : ℕ) : ℚ) * (base : ℚ) ^ (e - cs.length) := by
    push_cast
    rw [← zpow_natCast, ← zpow_add₀ base_pos.ne']
    congr 1
    ring
  constructor
  · have hlow := hsplit cs.length
    rw [sub_add_cancel] at hlow
    rw [hlow]
    gcongr
    exact pow_le_ofDigitsBE hc
  · have hhigh := hsplit (cs.length + 1)
    rw [show e - cs.length + ((cs.length + 1 : ℕ) : ℤ) = e + 1 by push_cast; ring] at hhigh
    rw [hhigh]
    gcongr
    exact ofDigitsBE_lt (by decide) hlt

theorem normal_of_digits (d : ObNumberDesc) {c : ℕ} {cs : List ℕ} {e : ℤ} (hc : c ≠ 0)
    (hlast : (c :: cs).getLast (cons_ne_nil c cs) ≠ 0) (hlt : ∀ a ∈ c :: cs, a < base)
    (hlen : (c :: cs).length ≤ maxStoreLen) (hlow : -15 ≤ e) (hhigh : e ≤ 14) :
    Normal ⟨d.calcDesc e (c :: cs).length, c :: cs⟩ ∧
      toRat ⟨d.calcDesc e (c :: cs).length, c :: cs⟩ =
        d.sign.toRat * (ofDigitsBE base (c :: cs) * (base : ℚ) ^ (e - cs.length)) := by
  have hexp : (d.calcDesc e (c :: cs).length).getDecodeExp = e :=
    ObNumberDesc.getDecodeExp_calcDesc (by omega) (by omega)
  have hused : used ⟨d.calcDesc e (c :: cs).length, c :: cs⟩ = c :: cs :=
    take_of_length_le (le_refl _)
  constructor
  · exact
      { len_pos := Nat.succ_pos _
        len_le := hlen
        buffer := le_refl _
        digit_lt := by rw [hused]; exact fun ha => hlt _ ha
        first := hc
        exp_lt := ObNumberDesc.calcDesc_exp_lt _ _ _
        exp_range := by
          show -15 ≤ (d.calcDesc e (c :: cs).length).getDecodeExp ∧ _
          rw [hexp]
          exact ⟨hlow, hhigh⟩
        last := by
          show (c :: cs).getD ((c :: cs).length - 1) 0 ≠ 0
          rw [getD_eq_getElem _ _ (by simp)]
          rwa [getLast_eq_getElem] at hlast }
  · rw [toRat, hused]
    show d.sign.toRat * _ * (base : ℚ) ^ ((d.calcDesc e (c :: cs).length).getDecodeExp -
      ((c :: cs).length : ℕ) + 1) = _
    rw [hexp, mul_assoc, length_cons]
    congr 3
    push_cast
    ring

/-- The outcome for the exact remainder `ρ`: it is stored, unless it is too small for an exponent,
or too large where the largest exponent is `limited` to 13. -/
def RemOutcome (limited : Prop) (ρ : ℚ) (res : ObResult ObNumber) : Prop :=
  (ρ ≠ 0 ∧ |ρ| < (base : ℚ) ^ (-15 : ℤ) ∧ res = .ok zero) ∨
    (limited ∧ (base : ℚ) ^ (14 : ℤ) ≤ |ρ| ∧ res = .error .integerPrecisionOverflow) ∨
    ((ρ = 0 ∨ (base : ℚ) ^ (-15 : ℤ) ≤ |ρ|) ∧ (limited → |ρ| < (base : ℚ) ^ (14 : ℤ)) ∧
      ∃ r, res = .ok r ∧ r.Canonical ∧ r.toRat = ρ)

theorem abs_sign_mul (s : Sign) {m : ℚ} (hm : 0 < m) : |s.toRat * m| = m := by
  cases s <;> simp [Sign.toRat, abs_of_pos hm]

theorem sign_mul_ne_zero (s : Sign) {m : ℚ} (hm : 0 < m) : s.toRat * m ≠ 0 := by
  cases s <;> simp [Sign.toRat, hm.ne']

/-- The digits that `remResult` keeps. -/
theorem remResult_eq (isOracleMode : Bool) (x y : ObNumber) (hlen : r.length ≤ maxStoreLen) :
    remResult isOracleMode x y r =
      assignChecked
        ((x.d.expRem y.d).calcDescAndCheck
          (y.d.getDecodeExp - ((r.reverse.map Int.toNat).takeWhile (· == 0)).length)
          (((r.reverse.map Int.toNat).dropWhile (· == 0)).rdropWhile (· == 0)).length
          isOracleMode)
        (((r.reverse.map Int.toNat).dropWhile (· == 0)).rdropWhile (· == 0)) := by
  set L := r.reverse.map Int.toNat with hL
  have hLlen : L.length = r.length := by simp [hL]
  have hsplit : L.takeWhile (· == 0) ++ L.dropWhile (· == 0) = L := takeWhile_append_dropWhile
  have hdrop : L.drop (L.takeWhile (· == 0)).length = L.dropWhile (· == 0) := by
    conv_lhs => rw [← hsplit]
    rw [drop_left' (by rw [hsplit])]
  have hparts := congrArg List.length hsplit
  rw [length_append] at hparts
  have htake : (L.dropWhile (· == 0)).take
      (min (r.length - (L.takeWhile (· == 0)).length) maxStoreLen) = L.dropWhile (· == 0) :=
    take_of_length_le (by omega)
  unfold remResult
  simp only [← hL, hdrop, htake]

/-- What becomes of the cells of a remainder that is not zero. -/
theorem remResult_spec (isOracleMode : Bool) {x y : ObNumber} (hr : IsDigits base r)
    (hlen : r.length ≤ maxStoreLen) (hne : evalLE base r ≠ 0) (hlow : -15 ≤ y.d.getDecodeExp)
    (hhigh : y.d.getDecodeExp ≤ 14) :
    RemOutcome (isOracleMode = true)
      (x.d.sign.toRat *
        (evalLE base r * (base : ℚ) ^ (y.d.getDecodeExp - r.length + 1)))
      (remResult isOracleMode x y r) := by
  obtain ⟨hLlt, hLlen, hLval⟩ := exists_digits hr
  rw [remResult_eq isOracleMode x y hlen]
  set L := r.reverse.map Int.toNat
  have hne' : ofDigitsBE base L ≠ 0 := by
    intro hzero
    rw [hzero] at hLval
    exact hne hLval.symm
  obtain ⟨c, cs, n, hstrip, hc, hlast, hsplit⟩ := exists_strip hne'
  set off := (L.takeWhile (· == 0)).length
  have hparts := congrArg List.length hsplit
  simp only [length_append, length_replicate, length_cons, hLlen] at hparts
  have hdigit : ∀ a ∈ c :: cs, a < base := by
    intro a ha
    apply hLlt
    rw [hsplit]
    exact mem_append_right _ (mem_append_left _ ha)
  have hvalue : ofDigitsBE base L = ofDigitsBE base (c :: cs) * base ^ n := by
    rw [hsplit, ofDigitsBE_append, ofDigitsBE_append]
    simp
  set e := y.d.getDecodeExp - off
  -- the zeros at the end move into the exponent
  have hm : (evalLE base r : ℚ) * (base : ℚ) ^ (y.d.getDecodeExp - r.length + 1) =
      ofDigitsBE base (c :: cs) * (base : ℚ) ^ (e - cs.length) := by
    rw [← hLval, hvalue]
    push_cast
    rw [mul_assoc, ← zpow_natCast, ← zpow_add₀ base_pos.ne']
    congr 2
    omega
  obtain ⟨hmlow, hmhigh⟩ := magnitude_of_digits hc hdigit e
  rw [hm]
  set m := (ofDigitsBE base (c :: cs) : ℚ) * (base : ℚ) ^ (e - cs.length)
  have hmpos : 0 < m := (zpow_pos base_pos _).trans_le hmlow
  unfold RemOutcome
  have hlow' : -64 < e := by
    unfold maxStoreLen at hlen
    omega
  rw [abs_sign_mul _ hmpos, hstrip, ObNumberDesc.calcDescAndCheck_eq hlow' (by omega)]
  by_cases hsmall : e < -15
  · -- too small: the remainder is below the smallest number with an exponent in range
    refine .inl ⟨sign_mul_ne_zero _ hmpos, ?_, ?_⟩
    · exact hmhigh.trans_le (zpow_le_zpow_right₀ one_lt_base.le (by omega))
    · rw [if_neg (by omega), if_pos hsmall]
      rfl
  · have hge : (base : ℚ) ^ (-15 : ℤ) ≤ m :=
      (zpow_le_zpow_right₀ one_lt_base.le (by omega)).trans hmlow
    by_cases hlarge : isOracleMode = true ∧ 14 ≤ e
    · refine .inr (.inl ⟨hlarge.1, ?_, ?_⟩)
      · exact (zpow_le_zpow_right₀ one_lt_base.le hlarge.2).trans hmlow
      · rw [hlarge.1, if_pos (by simp; omega)]
        rfl
    · obtain ⟨hnormal, hrat⟩ :=
        normal_of_digits (x.d.expRem y.d) (e := e) hc hlast hdigit (by simp; omega) (by omega)
          (by omega)
      refine .inr (.inr ⟨.inr hge, ?_, _, ?_, .inr hnormal, hrat⟩)
      · intro horacle
        exact hmhigh.trans_le (zpow_le_zpow_right₀ one_lt_base.le (by
          have : ¬ 14 ≤ e := fun h => hlarge ⟨horacle, h⟩
          omega))
      · rw [if_neg, if_neg hsmall]
        · rfl
        · cases isOracleMode
          · simp
            omega
          · simp at hlarge ⊢
            omega

/-! ### The common exponent -/

/-- The magnitude as an integer at a smaller exponent. -/
theorem magnitude_scaled (x : ObNumber) (n : ℕ) :
    x.magnitude = ((ofDigitsBE base x.used * base ^ n : ℕ) : ℚ) *
      (base : ℚ) ^ (x.d.getDecodeExp - x.d.len + 1 - n) := by
  rw [magnitude]
  push_cast
  rw [mul_assoc, ← zpow_natCast, ← zpow_add₀ base_pos.ne']
  congr 2
  ring

/-- The numbers of zeros that scale two numbers to a common exponent. -/
structure Scaling (x y : ObNumber) (nx ny : ℕ) : Prop where
  zeros_left : nx = (x.d.getDecodeExp - (x.d.len - 1) - (y.d.getDecodeExp - (y.d.len - 1))).toNat
  zeros_right : ny = (y.d.getDecodeExp - (y.d.len - 1) - (x.d.getDecodeExp - (x.d.len - 1))).toNat

namespace Scaling

variable {x y : ObNumber} {nx ny : ℕ}

theorem common_exp (h : Scaling x y nx ny) :
    x.d.getDecodeExp - x.d.len + 1 - nx = y.d.getDecodeExp - y.d.len + 1 - ny := by
  have h1 := h.zeros_left
  have h2 := h.zeros_right
  omega

theorem length_left (h : Scaling x y nx ny) (hx : x.Normal)
    (hroom : x.d.getDecodeExp - y.d.getDecodeExp + y.d.len ≤ 30) : x.d.len + nx ≤ 30 := by
  have h1 := h.zeros_left
  have hle := hx.len_le
  unfold maxStoreLen at hle
  omega

theorem length_right (h : Scaling x y nx ny) (hx : x.Normal) (hy : y.Normal)
    (hexp : y.d.getDecodeExp ≤ x.d.getDecodeExp) : y.d.len + ny ≤ maxStoreLen := by
  have h2 := h.zeros_right
  have hlx := hx.len_le
  have hly := hy.len_le
  omega

theorem length_le (h : Scaling x y nx ny) (hexp : y.d.getDecodeExp ≤ x.d.getDecodeExp) :
    y.d.len + ny ≤ x.d.len + nx := by
  have hcommon := h.common_exp
  omega

end Scaling

/-- Dividing magnitudes with a common exponent, with signs. -/
theorem signed_division (sx sy : Sign) {a b : ℤ} (hb : 0 < b) (ha : 0 ≤ a) {p : ℚ} (hp : 0 < p) :
    ∃ k : ℤ, sx.toRat * (a * p) = k * (sy.toRat * (b * p)) + sx.toRat * ((a % b : ℤ) * p) ∧
      |sx.toRat * (((a % b : ℤ) : ℚ) * p)| < |sy.toRat * (b * p)| ∧
      (sx.toRat * (((a % b : ℤ) : ℚ) * p) = 0 ∨
        (0 < a ∧ 0 < sx.toRat * (((a % b : ℤ) : ℚ) * p) * (sx.toRat * (a * p)))) := by
  have hbq : (0 : ℚ) < b := by exact_mod_cast hb
  have hbp : 0 < (b : ℚ) * p := mul_pos hbq hp
  have hdiv : (a : ℚ) = b * ((a / b : ℤ) : ℚ) + ((a % b : ℤ) : ℚ) := by
    exact_mod_cast (Int.mul_ediv_add_emod a b).symm
  have hmod0 : (0 : ℚ) ≤ ((a % b : ℤ) : ℚ) := by exact_mod_cast Int.emod_nonneg a hb.ne'
  have hmodlt : ((a % b : ℤ) : ℚ) < b := by exact_mod_cast Int.emod_lt_of_pos a hb
  have hsx : sx.toRat * sx.toRat = 1 := by cases sx <;> norm_num [Sign.toRat]
  refine ⟨if sx = sy then a / b else -(a / b), ?_, ?_, ?_⟩
  · have hk : ((if sx = sy then a / b else -(a / b) : ℤ) : ℚ) * sy.toRat =
        sx.toRat * ((a / b : ℤ) : ℚ) := by
      cases sx <;> cases sy <;> simp [Sign.toRat]
    linear_combination sx.toRat * p * hdiv - b * p * hk
  · have hsy : |sy.toRat * (b * p)| = b * p := abs_sign_mul sy hbp
    rw [hsy, abs_mul, abs_of_nonneg (mul_nonneg hmod0 hp.le)]
    have habs : |sx.toRat| = 1 := by cases sx <;> norm_num [Sign.toRat]
    rw [habs, one_mul]
    exact mul_lt_mul_of_pos_right hmodlt hp
  · rcases hmod0.eq_or_lt with hzero | hpos
    · left
      rw [← hzero]
      ring
    · right
      have hapos : 0 < a := by
        rcases ha.eq_or_lt with hzero | hapos
        · rw [← hzero, Int.zero_emod] at hpos
          simp at hpos
        · exact hapos
      have haq : (0 : ℚ) < a := by exact_mod_cast hapos
      refine ⟨hapos, ?_⟩
      have hprod := mul_pos (mul_pos hpos hp) (mul_pos haq hp)
      calc (0 : ℚ) < ((a % b : ℤ) : ℚ) * p * (a * p) := hprod
        _ = sx.toRat * sx.toRat * (((a % b : ℤ) : ℚ) * p * (a * p)) := by rw [hsx, one_mul]
        _ = _ := by ring

/-! ### The whole -/

theorem deepCopyV3_spec {x : ObNumber} (hx : x.Normal) :
    x.deepCopyV3.Normal ∧ x.deepCopyV3.toRat = x.toRat := by
  have hpos := hx.len_pos
  have heq : x.deepCopyV3 = ⟨x.d, x.used⟩ := if_neg (by omega)
  have hused : used ⟨x.d, x.used⟩ = x.used := take_of_length_le hx.length_used.le
  rw [heq]
  constructor
  · exact
      { len_pos := hpos
        len_le := hx.len_le
        buffer := hx.length_used.ge
        digit_lt := by rw [hused]; exact hx.digit_lt
        first := by
          obtain ⟨c, cs, hcs, hc⟩ := hx.head_used
          show x.used.getD 0 0 ≠ 0
          rw [hcs]
          exact hc
        exp_lt := hx.exp_lt
        exp_range := hx.exp_range
        last := by
          have hlast := hx.getLast_used
          show x.used.getD (x.d.len - 1) 0 ≠ 0
          rw [getLast_eq_getElem] at hlast
          rw [← hx.length_used, getD_eq_getElem _ _ (by have := hx.length_used; omega)]
          exact hlast }
  · rw [toRat, toRat, hused]

theorem canonical_zero : zero.Canonical := .inl rfl

theorem toRat_zero : zero.toRat = 0 := Canonical.toRat_of_zero rfl

/-- The cells of both numbers, and what `rem` makes of them. -/
theorem Normal.rem_cells {x y : ObNumber} {nx ny : ℕ} (hx : x.Normal) (hy : y.Normal)
    (h : Scaling x y nx ny) (hexp : y.d.getDecodeExp ≤ x.d.getDecodeExp)
    (hroom : x.d.getDecodeExp - y.d.getDecodeExp + y.d.len ≤ 30) :
    ∃ cx cy r, fromDigits x.digits x.d.len (x.d.len - 1 + nx + 1) = some cx ∧
      fromDigits y.digits y.d.len (y.d.len - 1 + ny + 1) = some cy ∧
      ObDivArray.rem cx cy = some r ∧ r.length = y.d.len + ny ∧ IsDigits base r ∧
      evalLE base r = ((ofDigitsBE base x.used * base ^ nx : ℕ) : ℤ) %
        ((ofDigitsBE base y.used * base ^ ny : ℕ) : ℤ) := by
  have hleft := h.length_left hx hroom
  have hle := h.length_le hexp
  obtain ⟨cx, hcx, hcxlen, hcxdig, hcxval⟩ :=
    hx.fromDigits_spec nx (by unfold remBufferSize; omega)
  obtain ⟨cy, hcy, hcylen, hcydig, hcyval⟩ :=
    hy.fromDigits_spec ny (by unfold remBufferSize; omega)
  obtain ⟨r, hr, hrlen, hrdig, hrval⟩ := ObDivArray.rem_spec hcydig hcxdig.digits (by omega)
    (by unfold remBufferSize; omega)
  exact ⟨cx, cy, r, hcx, hcy, hr, by omega, hrdig, by rw [hrval, hcxval, hcyval]⟩

theorem isZero_iff (hr : IsDigits base r) : ObDivArray.isZero r = true ↔ evalLE base r = 0 := by
  constructor
  · intro h
    have hall : r = List.replicate r.length 0 := by
      rw [eq_replicate_iff]
      refine ⟨rfl, ?_⟩
      intro d hd
      simpa using all_eq_true.mp h d hd
    rw [hall]
    simp
  · intro h
    rw [hr.eq_replicate_zero ObDivArray.base_pos h]
    simp [ObDivArray.isZero]

theorem abs_toRat {x : ObNumber} (hx : x.Normal) : |x.toRat| = x.magnitude := by
  rw [toRat_eq, abs_sign_mul _ hx.magnitude_pos]

theorem toRat_mul_self_pos {x : ObNumber} (hx : x.Normal) : 0 < x.toRat * x.toRat :=
  mul_self_pos.mpr hx.toRat_ne_zero

/-- The branch of `remV3` for a dividend larger than the divisor. -/
theorem Normal.remV3_of_gt (isOracleMode : Bool) {x y : ObNumber} {nx ny : ℕ} (hx : x.Normal)
    (hy : y.Normal) (h : Scaling x y nx ny) (hgt : y.magnitude < x.magnitude) :
    remV3 isOracleMode x y = (do
      let dividend ← fromDigits x.digits x.d.len (x.d.len - 1 + nx + 1)
      let divisor ← fromDigits y.digits y.d.len (y.d.len - 1 + ny + 1)
      let rem ← ObDivArray.rem dividend divisor
      if ObDivArray.isZero rem then return .ok zero
      else return remResult isOracleMode x y rem) := by
  have hcmp : absCompare x y = 1 := by rw [hx.absCompare_eq hy, cmpSign_of_gt hgt]
  unfold remV3
  rw [hy.isZero_eq, hx.isZero_eq, hcmp, if_neg (by simp), if_neg (by simp), if_neg (by decide),
    if_neg (by decide), h.zeros_left, h.zeros_right]

/-- The remainder by a smaller divisor. -/
theorem Normal.remV3_spec_of_gt (isOracleMode : Bool) {x y : ObNumber} (hx : x.Normal)
    (hy : y.Normal) (hgt : y.magnitude < x.magnitude)
    (hroom : x.d.getDecodeExp - y.d.getDecodeExp + y.d.len ≤ 30) :
    ∃ (res : ObResult ObNumber) (k : ℤ) (ρ : ℚ), remV3 isOracleMode x y = some res ∧
      x.toRat = k * y.toRat + ρ ∧ |ρ| < |y.toRat| ∧ (ρ = 0 ∨ 0 < ρ * x.toRat) ∧
      RemOutcome (isOracleMode = true) ρ res := by
  have hexp : y.d.getDecodeExp ≤ x.d.getDecodeExp := by
    by_contra hlt
    exact lt_asymm hgt (hx.magnitude_lt_of_exp_lt hy (by omega))
  have hscale : Scaling x y _ _ := ⟨rfl, rfl⟩
  generalize (x.d.getDecodeExp - (x.d.len - 1) - (y.d.getDecodeExp - (y.d.len - 1))).toNat = nx
    at hscale
  generalize (y.d.getDecodeExp - (y.d.len - 1) - (x.d.getDecodeExp - (x.d.len - 1))).toNat = ny
    at hscale
  obtain ⟨cx, cy, r, hcx, hcy, hr, hrlen, hrdig, hrval⟩ := hx.rem_cells hy hscale hexp hroom
  set a : ℕ := ofDigitsBE base x.used * base ^ nx
  set b : ℕ := ofDigitsBE base y.used * base ^ ny
  have hbpos : (0 : ℤ) < (b : ℤ) := by
    have := Nat.mul_pos hy.pos (Nat.pow_pos (n := ny) (show 0 < base by decide))
    exact_mod_cast this
  -- both magnitudes at the common exponent
  set p : ℚ := (base : ℚ) ^ (y.d.getDecodeExp - y.d.len + 1 - ny) with hp
  have hppos : 0 < p := zpow_pos base_pos _
  have hxmag : x.magnitude = ((a : ℤ) : ℚ) * p := by
    rw [magnitude_scaled x nx, hscale.common_exp, Int.cast_natCast]
  have hymag : y.magnitude = ((b : ℤ) : ℚ) * p := by
    rw [magnitude_scaled y ny, Int.cast_natCast]
  obtain ⟨k, hk, hlt, hsign⟩ :=
    signed_division x.d.sign y.d.sign hbpos (Int.natCast_nonneg a) hppos
  rw [← hxmag, ← hymag, ← toRat_eq, ← toRat_eq] at hk
  rw [← hymag, ← toRat_eq] at hlt
  rw [← hxmag, ← toRat_eq] at hsign
  have hpexp : p = (base : ℚ) ^ (y.d.getDecodeExp - r.length + 1) := by
    rw [hp, hrlen]
    congr 1
    push_cast
    ring
  rw [hx.remV3_of_gt isOracleMode hy hscale hgt, hcx, hcy]
  simp only [Option.bind_eq_bind, Option.bind_some, hr]
  by_cases hzero : evalLE base r = 0
  · rw [if_pos ((isZero_iff hrdig).mpr hzero)]
    rw [hrval] at hzero
    refine ⟨_, k, _, rfl, hk, hlt, hsign.imp_right And.right, .inr (.inr ⟨.inl ?_, ?_, ?_⟩)⟩
    · rw [hzero]
      simp
    · intro _
      rw [hzero]
      simpa using zpow_pos base_pos 14
    · refine ⟨zero, rfl, canonical_zero, ?_⟩
      rw [toRat_zero, hzero]
      simp
  · rw [if_neg (by rw [isZero_iff hrdig]; exact hzero)]
    have hlen9 : r.length ≤ maxStoreLen := by
      have := hscale.length_right hx hy hexp
      omega
    have houtcome := remResult_spec isOracleMode (x := x) (y := y) hrdig hlen9 hzero
      hy.exp_range.1 hy.exp_range.2
    rw [← hpexp, hrval] at houtcome
    exact ⟨_, k, _, rfl, hk, hlt, hsign.imp_right And.right, houtcome⟩

/-- **`remV3` is the exact remainder** where there is room for the division, except that a remainder
too small for an exponent becomes zero, and that in Oracle mode a remainder too large for an
exponent is an error. -/
theorem remV3_spec (isOracleMode : Bool) {x y : ObNumber} (hx : x.Canonical) (hy : y.Canonical)
    (hy0 : y.isZero = false) (hroom : x.d.getDecodeExp - y.d.getDecodeExp + y.d.len ≤ 30) :
    ∃ (res : ObResult ObNumber) (k : ℤ) (ρ : ℚ), remV3 isOracleMode x y = some res ∧
      x.toRat = k * y.toRat + ρ ∧ |ρ| < |y.toRat| ∧ (ρ = 0 ∨ 0 < ρ * x.toRat) ∧
      RemOutcome (isOracleMode = true ∧ |y.toRat| < |x.toRat|) ρ res := by
  have hy : y.Normal := by
    rcases hy with hy | hy
    · simp [isZero, hy] at hy0
    · exact hy
  have hypos := hy.magnitude_pos
  have hyabs := abs_toRat hy
  have hpow : (0 : ℚ) < (base : ℚ) ^ (14 : ℤ) := zpow_pos base_pos _
  rcases hx with hx | hx
  · -- zero
    have hxzero : x.isZero = true := by simp [isZero, hx]
    have hxval := Canonical.toRat_of_zero hx
    refine ⟨.ok zero, 0, 0, ?_, by simp [hxval], by rwa [hyabs, abs_zero], .inl rfl, ?_⟩
    · simp [remV3, hy0, hxzero]
    · exact .inr (.inr ⟨.inl rfl, fun _ => by rwa [abs_zero],
        zero, rfl, canonical_zero, toRat_zero⟩)
  · have hxabs := abs_toRat hx
    have hcmp := hx.absCompare_eq hy
    rcases lt_trichotomy x.magnitude y.magnitude with hlt | heq | hgt
    · -- the dividend is the remainder
      obtain ⟨hnormal, hval⟩ := deepCopyV3_spec hx
      rw [cmpSign_of_lt hlt] at hcmp
      refine ⟨.ok x.deepCopyV3, 0, x.toRat, ?_, by simp, by rwa [hxabs, hyabs],
        .inr (toRat_mul_self_pos hx), .inr (.inr ⟨.inr ?_, ?_, _, rfl, .inr hnormal, hval⟩)⟩
      · simp [remV3, hy0, hx.isZero_eq, hcmp]
      · rw [hxabs]
        exact (zpow_le_zpow_right₀ one_lt_base.le hx.exp_range.1).trans hx.magnitude_bounds.1
      · rintro ⟨-, hlt'⟩
        rw [hxabs, hyabs] at hlt'
        exact absurd hlt' hlt.not_gt
    · -- equal magnitudes
      rw [heq, cmpSign_self] at hcmp
      obtain ⟨k, hk⟩ : ∃ k : ℤ, x.toRat = k * y.toRat := by
        rw [toRat_eq, toRat_eq, heq]
        refine ⟨if x.d.sign = y.d.sign then 1 else -1, ?_⟩
        cases x.d.sign <;> cases y.d.sign <;> simp [Sign.toRat]
      refine ⟨.ok zero, k, 0, ?_, by rw [hk, add_zero], by rwa [hyabs, abs_zero], .inl rfl, ?_⟩
      · simp [remV3, hy0, hx.isZero_eq, hcmp]
      · exact .inr (.inr ⟨.inl rfl, fun _ => by rwa [abs_zero],
          zero, rfl, canonical_zero, toRat_zero⟩)
    · obtain ⟨res, k, ρ, hrem, hk, hlt, hsign, houtcome⟩ :=
        hx.remV3_spec_of_gt isOracleMode hy hgt hroom
      refine ⟨res, k, ρ, hrem, hk, hlt, hsign, ?_⟩
      have hlimited : (isOracleMode = true ∧ |y.toRat| < |x.toRat|) ↔ isOracleMode = true := by
        rw [hxabs, hyabs]
        simp [hgt]
      unfold RemOutcome at houtcome ⊢
      simpa only [hlimited] using houtcome

theorem Shaped.length_fromDigits {x : ObNumber} (hx : x.Shaped) {n : ℕ} {cells : List ℤ}
    (h : fromDigits x.digits x.d.len (x.d.len - 1 + n + 1) = some cells) :
    cells.length = x.d.len + n := by
  have hpos := hx.len_pos
  have hlen := hx.length_used
  unfold fromDigits ObDivArray.inBuffer at h
  dsimp only at h
  split_ifs at h
  rw [← Option.some.inj h, length_append, length_replicate, length_reverse,
    length_map, ← used, hlen]
  omega

/-- Otherwise the division writes a cell outside of its arrays. -/
theorem Normal.remV3_eq_none (isOracleMode : Bool) {x y : ObNumber} (hx : x.Normal)
    (hy : y.Normal) (hroom : 30 < x.d.getDecodeExp - y.d.getDecodeExp + y.d.len) :
    remV3 isOracleMode x y = none := by
  have hlx := hx.len_le
  have hly := hy.len_le
  unfold maxStoreLen at hlx hly
  have hscale : Scaling x y _ _ := ⟨rfl, rfl⟩
  rw [hx.remV3_of_gt isOracleMode hy hscale (hy.magnitude_lt_of_exp_lt hx (by omega))]
  -- the dividend has more than 30 digits
  cases hcx : fromDigits x.digits x.d.len (x.d.len - 1 +
      (x.d.getDecodeExp - (x.d.len - 1) - (y.d.getDecodeExp - (y.d.len - 1))).toNat + 1) with
  | none => rfl
  | some cx =>
    cases hcy : fromDigits y.digits y.d.len (y.d.len - 1 +
        (y.d.getDecodeExp - (y.d.len - 1) - (x.d.getDecodeExp - (x.d.len - 1))).toNat + 1) with
    | none => rfl
    | some cy =>
      have hcxlen := hx.length_fromDigits hcx
      have hcylen := hy.length_fromDigits hcy
      simp only [Option.bind_eq_bind, Option.bind_some]
      rw [ObDivArray.rem_eq_none (by omega) (by unfold remBufferSize; omega), Option.bind_none]

/-- The number 7.5. -/
def sevenAndHalf : ObNumber := ⟨{ len := 2, exp := 64, sign := .positive }, [7, 500000000]⟩

/-- The number 2. -/
def two : ObNumber := ⟨{ len := 1, exp := 64, sign := .positive }, [2]⟩

theorem normal_sevenAndHalf : sevenAndHalf.Normal where
  len_pos := by decide
  len_le := by decide
  buffer := by decide
  digit_lt := by simp [used, sevenAndHalf, base]
  first := by decide
  exp_lt := by decide
  exp_range := by decide
  last := by decide

theorem normal_two : two.Normal where
  len_pos := by decide
  len_le := by decide
  buffer := by decide
  digit_lt := by simp [used, two, base]
  first := by decide
  exp_lt := by decide
  exp_range := by decide
  last := by decide

theorem remV3_spec_sevenAndHalf :
    remV3 false sevenAndHalf two =
        some (.ok ⟨{ len := 2, exp := 64, sign := .positive }, [1, 500000000]⟩) ∧
      ∃ (res : ObResult ObNumber) (k : ℤ) (ρ : ℚ), remV3 false sevenAndHalf two = some res ∧
        sevenAndHalf.toRat = k * two.toRat + ρ ∧ |ρ| < |two.toRat| ∧
        (ρ = 0 ∨ 0 < ρ * sevenAndHalf.toRat) ∧
        RemOutcome (false = true ∧ |two.toRat| < |sevenAndHalf.toRat|) ρ res :=
  ⟨by rfl, remV3_spec false (.inr normal_sevenAndHalf) (.inr normal_two) (by decide)
    (by decide)⟩

/-- Two at the smallest exponent. -/
def twoSmallest : ObNumber := ⟨{ len := 1, exp := 49, sign := .positive }, [2]⟩

/-- The number with two digits one, at the smallest exponent. -/
def elevenSmallest : ObNumber := ⟨{ len := 2, exp := 49, sign := .positive }, [1, 1]⟩

theorem normal_twoSmallest : twoSmallest.Normal where
  len_pos := by decide
  len_le := by decide
  buffer := by decide
  digit_lt := by simp [used, twoSmallest, base]
  first := by decide
  exp_lt := by decide
  exp_range := by decide
  last := by decide

theorem normal_elevenSmallest : elevenSmallest.Normal where
  len_pos := by decide
  len_le := by decide
  buffer := by decide
  digit_lt := by simp [used, elevenSmallest, base]
  first := by decide
  exp_lt := by decide
  exp_range := by decide
  last := by decide

theorem toRat_twoSmallest : twoSmallest.toRat = (2 * base : ℤ) * (base : ℚ) ^ (-16 : ℤ) := by
  rw [toRat, show twoSmallest.used = [2] from rfl,
    show twoSmallest.d.getDecodeExp = -15 by decide]
  norm_num [twoSmallest, Sign.toRat, base]

theorem toRat_elevenSmallest : elevenSmallest.toRat = (base + 1 : ℤ) * (base : ℚ) ^ (-16 : ℤ) := by
  rw [toRat, show elevenSmallest.used = [1, 1] from rfl,
    show elevenSmallest.d.getDecodeExp = -15 by decide]
  norm_num [elevenSmallest, Sign.toRat, base, ofDigitsBE, Nat.ofDigits]

/-- A remainder below the smallest exponent becomes zero. -/
theorem remV3_twoSmallest :
    twoSmallest.Canonical ∧ elevenSmallest.Canonical ∧ elevenSmallest.isZero = false ∧
      remV3 false twoSmallest elevenSmallest = some (.ok zero) ∧
      ¬ ∃ r, remV3 false twoSmallest elevenSmallest = some (.ok r) ∧
        ∃ k : ℤ, twoSmallest.toRat = k * elevenSmallest.toRat + r.toRat := by
  have hrem : remV3 false twoSmallest elevenSmallest = some (.ok zero) := rfl
  refine ⟨.inr normal_twoSmallest, .inr normal_elevenSmallest, by decide, hrem, ?_⟩
  rintro ⟨r, hr, k, hk⟩
  rw [hrem, Option.some.injEq, Except.ok.injEq] at hr
  rw [← hr, toRat_zero, add_zero, toRat_twoSmallest, toRat_elevenSmallest, ← mul_assoc] at hk
  have hcancel := mul_right_cancel₀ (zpow_ne_zero (-16) base_pos.ne') hk
  have hint : (2 * base : ℤ) = k * (base + 1) := by exact_mod_cast hcancel
  have hbase : (base : ℤ) = 1000000000 := rfl
  rw [hbase] at hint
  omega

/-- The number 1 at the largest exponent. -/
def oneLargest : ObNumber := ⟨{ len := 1, exp := 78, sign := .positive }, [1]⟩

example : remV3 false oneLargest twoSmallest = some (.ok zero) := rfl

/-- The remainder needs a digit beyond the buffer. -/
theorem remV3_eq_none_oneLargest : remV3 false oneLargest elevenSmallest = none :=
  Normal.remV3_eq_none false ⟨⟨by decide, by decide, by decide, by simp [used, oneLargest, base],
    by decide, by decide, by decide⟩, by decide⟩ normal_elevenSmallest (by decide)

end Andl.Number.ObNumber
