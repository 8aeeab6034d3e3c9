import Andl.Number.Equiv.DivArray

/-!
# Correctness of long division
-/

namespace Andl.Number.ObDivArray

open List

/-! ### Normalising -/

/-- The digits of a divisor: the first one is not zero. -/
structure IsDivisor (b : List ℤ) : Prop where
  digits : IsDigits base b
  top : 0 < b.getD (b.length - 1) 0

namespace IsDivisor

variable {b : List ℤ}

theorem length_pos (h : IsDivisor b) : 0 < b.length := by
  have htop := h.top
  cases b with
  | nil => simp at htop
  | cons d b => simp

theorem exists_top (h : IsDivisor b) :
    ∃ (bs : List ℤ) (v : ℤ), b = bs ++ [v] ∧ 0 < v ∧ v < base := by
  obtain ⟨bs, v, rfl⟩ := exists_concat h.length_pos
  have htop := h.top
  have hdigits := h.digits
  rw [IsDigits.append_iff, IsDigits.cons_iff] at hdigits
  exact ⟨bs, v, rfl, by simpa using htop, hdigits.2.1.2⟩

theorem pow_le (h : IsDivisor b) : (base : ℤ) ^ (b.length - 1) ≤ evalLE base b := by
  obtain ⟨bs, v, rfl, hv, -⟩ := h.exists_top
  have hbs := (IsDigits.append_iff.mp h.digits).1.evalLE_nonneg base_pos
  have hpow : (0 : ℤ) < base ^ bs.length := pow_pos base_pos _
  have hmul := mul_le_mul_of_nonneg_left (show 1 ≤ v by omega) hpow.le
  rw [evalLE_append, evalLE_cons, evalLE_nil, length_append, length_singleton,
    Nat.add_sub_cancel]
  linarith

theorem evalLE_pos (h : IsDivisor b) : 0 < evalLE base b :=
  (pow_pos base_pos _).trans_le h.pow_le

theorem normalizer_append (bs : List ℤ) {v : ℤ} :
    normalizer (bs ++ [v]) = (base : ℤ) / (v + 1) := by
  unfold normalizer
  rw [Int.tdiv_eq_ediv_of_nonneg base_pos.le]
  simp

theorem normalizer_pos (h : IsDivisor b) : 0 < normalizer b := by
  obtain ⟨bs, v, rfl, hv, hvb⟩ := h.exists_top
  rw [normalizer_append]
  apply Int.lt_iff_add_one_le.mpr
  rw [Int.le_ediv_iff_mul_le (by omega)]
  omega

theorem two_normalizer_le (h : IsDivisor b) : 2 * normalizer b ≤ base := by
  have hpos := h.normalizer_pos
  obtain ⟨bs, v, rfl, hv, hvb⟩ := h.exists_top
  rw [normalizer_append] at hpos ⊢
  have hmul := Int.ediv_mul_le (base : ℤ) (show v + 1 ≠ 0 by omega)
  have htwo := mul_le_mul_of_nonneg_left (show 2 ≤ v + 1 by omega) hpos.le
  linarith

/-- The product has no more digits than the divisor. -/
theorem mul_normalizer_lt (h : IsDivisor b) : evalLE base b * normalizer b < base ^ b.length := by
  have hpos := h.normalizer_pos
  obtain ⟨bs, v, rfl, hv, hvb⟩ := h.exists_top
  have hbs := (IsDigits.append_iff.mp h.digits).1.evalLE_lt base_pos
  have hpow : (0 : ℤ) < base ^ bs.length := pow_pos base_pos _
  rw [normalizer_append] at hpos ⊢
  have hmul := Int.ediv_mul_le (base : ℤ) (show v + 1 ≠ 0 by omega)
  rw [evalLE_append, evalLE_cons, evalLE_nil, mul_zero, add_zero, length_append,
    length_singleton, pow_succ]
  calc (evalLE base bs + base ^ bs.length * v) * (base / (v + 1))
      < (base ^ bs.length + base ^ bs.length * v) * (base / (v + 1)) :=
        mul_lt_mul_of_pos_right (by linarith) hpos
    _ = base ^ bs.length * (base / (v + 1) * (v + 1)) := by ring
    _ ≤ base ^ bs.length * base := mul_le_mul_of_nonneg_left hmul hpow.le

/-- Multiplied by the normalizer, a first digit is at least half the base. -/
theorem base_le_two_mul {v : ℤ} (hv : 0 < v) (hvb : v < base) :
    (base : ℤ) ≤ 2 * (v * (base / (v + 1))) := by
  set d := (base : ℤ) / (v + 1) with hd
  have hd1 : 1 ≤ d := by
    rw [hd, Int.le_ediv_iff_mul_le (by omega)]
    omega
  have hlt : (base : ℤ) < (d + 1) * (v + 1) := Int.lt_ediv_add_one_mul_self _ (by omega)
  by_cases hhalf : (base : ℤ) ≤ 2 * v
  · have := mul_le_mul_of_nonneg_left hd1 hv.le
    linarith
  · -- otherwise `2 v d ≤ base - 2`, the base being even, and this contradicts the choice of `d`
    push Not at hhalf
    by_contra hcon
    push Not at hcon
    have heven : 2 * (v * d) ≤ base - 2 := by
      have : (base : ℤ) = 2 * 500000000 := by decide
      omega
    have h1 := mul_le_mul_of_nonneg_right heven (show 0 ≤ v + 1 by omega)
    have h2 := mul_le_mul_of_nonneg_left (show base - v ≤ d * (v + 1) by linarith) hv.le
    have h3 := mul_nonneg (show 0 ≤ v - 1 by omega) (show 0 ≤ base - 2 * v by linarith)
    nlinarith only [h1, h2, h3]

/-- `c` is the divisor `b`, multiplied by `normalizer b`. -/
structure IsNormalizedOf (b c : List ℤ) : Prop where
  digits : IsDigits base c
  length_eq : c.length = b.length
  eval_eq : evalLE base c = evalLE base b * normalizer b
  normalized : Normalized c

/-- **Normalising** keeps the number of digits. -/
theorem mul_normalizer (h : IsDivisor b) (hlen : b.length < remBufferSize) :
    ∃ c, mul b (normalizer b) = some c ∧ IsNormalizedOf b c := by
  have hpos := h.normalizer_pos
  have hle := h.two_normalizer_le
  obtain ⟨c, hmul, hc, hval, hcases⟩ := mul_eq_some h.digits hpos.le (by linarith) hlen
  have hlt := h.mul_normalizer_lt
  have hclen : c.length = b.length := by
    rcases hcases with hcases | ⟨-, hcases⟩
    · exact hcases
    · linarith
  refine ⟨c, hmul, hc, hclen, hval, ?_⟩
  obtain ⟨bs, v, rfl, hv, hvb⟩ := h.exists_top
  obtain ⟨cs, v1, rfl⟩ := exists_concat (l := c) (by rw [hclen]; exact h.length_pos)
  have hlen' : cs.length = bs.length := by simpa using hclen
  have hbs := (IsDigits.append_iff.mp h.digits).1.evalLE_nonneg base_pos
  have hcs := (IsDigits.append_iff.mp hc).1.evalLE_lt base_pos
  have hpow : (0 : ℤ) < base ^ bs.length := pow_pos base_pos _
  have hhalf := base_le_two_mul hv hvb
  rw [normalizer_append] at hpos hval
  rw [evalLE_append, evalLE_append] at hval
  simp only [evalLE_cons, evalLE_nil, mul_zero, add_zero] at hval
  rw [hlen'] at hval hcs
  -- compare the first digits of both sides
  have hfirst : v * (base / (v + 1)) < v1 + 1 := by
    have h1 := mul_nonneg hbs hpos.le
    have h2 : base ^ bs.length * (v * (base / (v + 1))) < base ^ bs.length * (v1 + 1) := by
      linarith
    exact lt_of_mul_lt_mul_left h2 hpow.le
  unfold Normalized
  simp only [length_append, length_singleton, Nat.add_sub_cancel]
  rw [getD_append_right _ _ _ _ (le_refl _), Nat.sub_self]
  simp only [getD_cons_zero]
  linarith

end IsDivisor

open IsDivisor (IsNormalizedOf)

theorem estimate_eq_zero {a b : List ℤ} {n j : ℕ} (ha : IsDigits base a) (h0 : a.getD (j + n) 0 = 0)
    (h1 : a.getD (j + n - 1) 0 < b.getD (n - 1) 0) : estimate a b n j = 0 := by
  have hu1 := ha.getD_nonneg (j + n - 1)
  have hu2 := ha.getD_nonneg (j + n - 2)
  unfold estimate
  rw [h0, zero_mul, zero_add]
  dsimp only
  rw [Int.tdiv_eq_zero_of_lt hu1 h1, Int.tmod_eq_of_lt hu1 h1, if_neg]
  rintro (h | ⟨-, h⟩)
  · exact absurd h base_pos.ne
  · have := mul_nonneg base_pos.le hu1
    rw [zero_mul] at h
    linarith

/-! The topmost step: the cells have one more digit than the quotient, which is zero. -/

section Top

variable {a b c : List ℤ} (hb : IsDivisor b)
include hb

/-- The topmost cell is zero. -/
theorem exists_cells_concat_zero {cells : List ℤ} (ha : IsDigits base a)
    (hcells : IsDigits base cells) (hcellslen : cells.length = a.length + 2)
    (hval : evalLE base cells = evalLE base a * normalizer b) :
    ∃ xs, cells = xs ++ [0] ∧ xs.length = a.length + 1 ∧
      evalLE base xs = evalLE base a * normalizer b := by
  have hpow : (0 : ℤ) < base ^ a.length := pow_pos base_pos _
  have had := mul_lt_mul_of_pos_right (ha.evalLE_lt base_pos) hb.normalizer_pos
  obtain ⟨xs, t, rfl⟩ := exists_concat (l := cells) (by omega)
  have hxs : xs.length = a.length + 1 := by simpa using hcellslen
  have ht : t = 0 := by
    apply top_eq_zero hcells
    rw [hval, hxs, pow_succ]
    have := mul_lt_mul_of_pos_left
      (show normalizer b < base by linarith [hb.two_normalizer_le, hb.normalizer_pos]) hpow
    linarith
  subst ht
  refine ⟨xs, rfl, hxs, ?_⟩
  rw [← hval, evalLE_append]
  simp

variable (ha : IsDigits base a) (hle : b.length ≤ a.length) (hc : IsNormalizedOf b c)
  {xs : List ℤ} (hxs : xs.length = a.length + 1) (hxsdig : IsDigits base xs)
include hle hc hxs hxsdig

/-- Below the topmost cell stand the cells of a rest and `m` cells that are to be divided. -/
theorem exists_cells_parts : ∃ (lo : List ℤ) (u : ℤ) (us : List ℤ), xs = lo ++ (u :: us) ∧
    lo.length = a.length + 1 - b.length ∧ IsDigits base lo ∧ (0 ≤ u ∧ u < base) ∧
      IsRest c (us ++ [0]) := by
  have hbpos := hb.length_pos
  obtain ⟨u, us, hdrop⟩ : ∃ u us, xs.drop (a.length + 1 - b.length) = u :: us := by
    apply exists_cons_of_length_pos
    rw [length_drop]
    omega
  have hus : us.length = b.length - 1 := by
    have := congrArg List.length hdrop
    rw [length_drop, length_cons] at this
    omega
  have hsplit : xs = xs.take (a.length + 1 - b.length) ++ (u :: us) := by
    rw [← hdrop, take_append_drop]
  rw [hsplit, IsDigits.append_iff, IsDigits.cons_iff] at hxsdig
  obtain ⟨hlodig, hu, husdig⟩ := hxsdig
  refine ⟨_, u, us, hsplit, by rw [length_take]; omega, hlodig, hu, ?_, ?_, ?_⟩
  · rw [length_append, length_singleton, hc.length_eq]
    omega
  · rw [IsDigits.append_iff]
    exact ⟨husdig, .replicate_zero base_pos 1⟩
  · have h1 := husdig.evalLE_lt base_pos
    have h2 := mul_le_mul_of_nonneg_left
      (show 1 ≤ normalizer b from hb.normalizer_pos) hb.evalLE_pos.le
    have h3 := hb.pow_le
    rw [hus] at h1
    rw [evalLE_append, evalLE_cons, evalLE_nil, hc.eval_eq]
    linarith

variable (hxsval : evalLE base xs = evalLE base a * normalizer b)
include ha hxsval

/-- The second cell from the top is less than the first digit of the divisor. -/
theorem estimate_top_eq_zero :
    estimate (xs ++ [0]) c c.length (a.length + 1 - b.length) = 0 := by
  have hpow : (0 : ℤ) < base ^ a.length := pow_pos base_pos _
  have had := mul_lt_mul_of_pos_right (ha.evalLE_lt base_pos) hb.normalizer_pos
  have hsum : a.length + 1 - b.length + b.length = xs.length := by omega
  have hzero : IsDigits base [0] := .replicate_zero base_pos 1
  apply estimate_eq_zero (IsDigits.append_iff.mpr ⟨hxsdig, hzero⟩)
  · rw [hc.length_eq, hsum, getD_append_right _ _ _ _ (le_refl _)]
    simp
  · obtain ⟨ys, u1, rfl⟩ := exists_concat (l := xs) (by omega)
    have hys : ys.length = a.length := by simpa using hxs
    have hys0 := (IsDigits.append_iff.mp hxsdig).1.evalLE_nonneg base_pos
    rw [evalLE_append, evalLE_cons, evalLE_nil, mul_zero, add_zero, hys] at hxsval
    have hmul : (base : ℤ) ^ a.length * u1 < base ^ a.length * normalizer b := by linarith
    have hu1 : u1 < normalizer b := lt_of_mul_lt_mul_left hmul hpow.le
    have hcnorm : (base : ℤ) ≤ 2 * c.getD (c.length - 1) 0 := hc.normalized
    have hget : (ys ++ [u1] ++ [0]).getD (a.length + 1 - b.length + c.length - 1) 0 = u1 := by
      rw [hc.length_eq, hsum, length_append, length_singleton,
        Nat.add_sub_cancel, append_assoc, getD_append_right _ _ _ _ (le_refl _)]
      simp
    rw [hget]
    linarith [hb.two_normalizer_le]

omit hxs hxsdig in
/-- The topmost cells are less than the divisor. -/
theorem top_lt_divisor {lo : List ℤ} {w : ℤ} (hlodig : IsDigits base lo)
    (hwhole : evalLE base xs = evalLE base lo + base ^ (a.length + 1 - b.length) * w) :
    w < evalLE base c := by
  have hbpos := hb.length_pos
  have hpowm : (0 : ℤ) < base ^ (a.length + 1 - b.length) := pow_pos base_pos _
  have had := mul_lt_mul_of_pos_right (ha.evalLE_lt base_pos) hb.normalizer_pos
  apply lt_of_mul_lt_mul_left _ hpowm.le
  have h1 := hlodig.evalLE_nonneg base_pos
  have h2 : (base : ℤ) ^ a.length ≤ base ^ (a.length + 1 - b.length) * evalLE base b := by
    calc (base : ℤ) ^ a.length
        = base ^ (a.length + 1 - b.length) * base ^ (b.length - 1) := by
          rw [← pow_add]
          congr 1
          omega
      _ ≤ _ := mul_le_mul_of_nonneg_left hb.pow_le hpowm.le
  have h3 := mul_le_mul_of_nonneg_right h2 hb.normalizer_pos.le
  rw [hc.eval_eq]
  linarith

end Top

theorem knuthLoop_top {a b c cells : List ℤ} {step : ℕ → List ℤ → List ℤ → Option (List ℤ × List ℤ)}
    (hb : IsDivisor b) (ha : IsDigits base a) (hle : b.length ≤ a.length)
    (hlen : a.length + 2 ≤ remBufferSize) (hc : IsNormalizedOf b c) (hstep : StepDivides c step)
    (hcells : IsDigits base cells) (hcellslen : cells.length = a.length + 2)
    (hval : evalLE base cells = evalLE base a * normalizer b) :
    ∃ r qs, knuthLoop step (a.length + 1 - b.length + 1) cells
        (List.replicate (a.length + 1 - b.length + 1) 0) =
          some (r ++ List.replicate (a.length + 1 - b.length + 1) 0, qs ++ [0]) ∧
      r.length = b.length ∧ IsDigits base r ∧
      evalLE base r = evalLE base a % evalLE base b * normalizer b ∧
      qs.length = a.length + 1 - b.length ∧ IsDigits base qs ∧
      evalLE base qs = evalLE base a / evalLE base b := by
  have hdpos := hb.normalizer_pos
  obtain ⟨xs, rfl, hxs, hxsval⟩ := exists_cells_concat_zero hb ha hcells hcellslen hval
  have hxsdig := (IsDigits.append_iff.mp hcells).1
  have hestimate := estimate_top_eq_zero hb ha hle hc hxs hxsdig hxsval
  obtain ⟨lo, u, us, rfl, hlo, hlodig, hu, hrest⟩ := exists_cells_parts hb hle hc hxs hxsdig
  rw [← hlo] at hestimate ⊢
  have hcellsEq : lo ++ (u :: us) ++ [0] = lo ++ (u :: (us ++ [0]) ++ List.replicate 0 0) := by
    simp
  obtain ⟨rs1, hrs1, hrs1val, hstep1⟩ := hstep lo u (us ++ [0]) 0
    (List.replicate (lo.length + 1) 0) hu.1 hu.2 hrest
    (by rw [← hcellsEq, hcellslen]; exact hlen) (.inr (by rw [← hcellsEq]; exact hestimate))
  -- the topmost step leaves its cells as they are
  have hw0 : 0 ≤ evalLE base (u :: (us ++ [0])) := by
    apply IsDigits.evalLE_nonneg base_pos
    rw [IsDigits.cons_iff]
    exact ⟨hu, hrest.digits⟩
  have hwhole : evalLE base (lo ++ (u :: us)) =
      evalLE base lo + base ^ lo.length * evalLE base (u :: (us ++ [0])) := by
    simp [evalLE_append]
  have hwlt := top_lt_divisor hb ha hle hc hxsval hlodig (by rw [← hlo]; exact hwhole)
  rw [Int.emod_eq_of_lt hw0 hwlt] at hrs1val
  rw [Int.ediv_eq_zero_of_lt hw0 hwlt, set_replicate_self] at hstep1
  -- the loop below it divides
  obtain ⟨r, qs, hloop, hr, hrval, hqs, hqsdig, hqsval⟩ :=
    knuthLoop_spec hstep hlodig hrs1 (k := 1) (q := List.replicate (lo.length + 1) 0) (by omega)
      (by rw [length_replicate]; omega) (by
        rw [length_append, length_append, hrs1.length_eq, hc.length_eq, length_replicate]
        omega)
  have hparts : evalLE base (lo ++ rs1) = evalLE base a * normalizer b := by
    rw [evalLE_append, hrs1val, ← hwhole, hxsval]
  rw [hparts, hc.eval_eq, mul_comm _ (normalizer b), mul_comm _ (normalizer b)] at hrval hqsval
  rw [Int.mul_emod_mul_of_pos _ _ hdpos] at hrval
  rw [Int.mul_ediv_mul_of_pos _ _ hdpos] at hqsval
  refine ⟨r, qs, ?_, ?_, hr.digits, by rw [hrval, mul_comm], hqs, hqsdig, hqsval⟩
  · rw [knuthLoop, hcellsEq, hstep1]
    simp only [Option.bind_eq_bind, Option.bind_some]
    rw [hloop]
    simp [Nat.add_comm]
  · rw [hr.length_eq, hc.length_eq]

theorem exists_dividend {a : List ℤ} {d : ℤ} (ha : IsDigits base a) (hd0 : 0 ≤ d) (hd : d ≤ base)
    (hlen : a.length + 2 ≤ remBufferSize) :
    ∃ c, mul a d = some c ∧ c.length ≤ a.length + 1 ∧
      IsDigits base (c ++ List.replicate (a.length + 2 - c.length) 0) ∧
      evalLE base (c ++ List.replicate (a.length + 2 - c.length) 0) = evalLE base a * d := by
  obtain ⟨c, hmul, hc, hval, hcases⟩ := mul_eq_some ha hd0 hd (by omega)
  refine ⟨c, hmul, by omega, ?_, ?_⟩
  · rw [IsDigits.append_iff]
    exact ⟨hc, .replicate_zero base_pos _⟩
  · rw [evalLE_append, evalLE_replicate_zero, mul_zero, add_zero, hval]

/-- The loop of both divisions, on the normalised numbers. -/
theorem exists_knuthLoop {a b : List ℤ}
    {step : List ℤ → ℕ → List ℤ → List ℤ → Option (List ℤ × List ℤ)} (hb : IsDivisor b)
    (ha : IsDigits base a) (hle : b.length ≤ a.length) (hlen : a.length + 2 ≤ remBufferSize)
    (hstep : ∀ c, IsNormalizedOf b c → StepDivides c (step c)) :
    ∃ a' c cells r q, mul a (normalizer b) = some a' ∧ mul b (normalizer b) = some c ∧
      inBuffer (a' ++ List.replicate (a.length + 1 - b.length + b.length + 1 - a'.length) 0) =
        some cells ∧
      knuthLoop (step c) (a.length + 1 - b.length + 1) cells
        (List.replicate (a.length + 1 - b.length + 1) 0) =
          some (r ++ List.replicate (a.length + 1 - b.length + 1) 0, q ++ [0]) ∧
      r.length = b.length ∧ IsDigits base r ∧
      evalLE base r = evalLE base a % evalLE base b * normalizer b ∧
      q.length = a.length + 1 - b.length ∧ IsDigits base q ∧
      evalLE base q = evalLE base a / evalLE base b := by
  have hd := hb.two_normalizer_le
  obtain ⟨c, hmulb, hc⟩ := hb.mul_normalizer (by omega)
  obtain ⟨a', hmula, hlen', hdig, hval⟩ :=
    exists_dividend ha hb.normalizer_pos.le (by linarith) hlen
  have hcells : (a' ++ List.replicate (a.length + 2 - a'.length) 0).length = a.length + 2 := by
    rw [length_append, length_replicate]
    omega
  have hpad : a.length + 1 - b.length + b.length + 1 - a'.length = a.length + 2 - a'.length := by
    omega
  obtain ⟨r, q, hloop, hspec⟩ := knuthLoop_top hb ha hle hlen hc (hstep c hc) hdig hcells hval
  refine ⟨a', c, _, r, q, hmula, hmulb, ?_, hloop, hspec⟩
  rw [hpad, inBuffer_eq_some (by rw [hcells]; exact hlen)]

/-- **`knuth_div` divides**, if there is room for two cells above the dividend. -/
theorem knuthDiv_spec {a b : List ℤ} (hb : IsDivisor b) (ha : IsDigits base a)
    (hle : b.length ≤ a.length) (hlen : a.length + 2 ≤ remBufferSize) :
    ∃ q r, knuthDiv a b = some (q, r) ∧ r.length = b.length ∧ IsDigits base r ∧
      evalLE base r = evalLE base a % evalLE base b * normalizer b ∧
      q.length = a.length + 1 - b.length ∧ IsDigits base q ∧
      evalLE base q = evalLE base a / evalLE base b := by
  have hstep (c : List ℤ) (hc : IsNormalizedOf b c) : StepDivides c (knuthStep c b.length) := by
    rw [← hc.length_eq]
    exact knuthStep_divides (hc.length_eq ▸ hb.length_pos) hc.digits hc.normalized
  obtain ⟨a', c, cells, r, q, hmula, hmulb, hbuf, hloop, hr, hrdig, hrval, hq, hqdig, hqval⟩ :=
    exists_knuthLoop hb ha hle hlen hstep
  refine ⟨q, r, ?_, hr, hrdig, hrval, hq, hqdig, hqval⟩
  unfold knuthDiv
  simp only [hmula, hmulb, hbuf, Option.bind_eq_bind, Option.bind_some, hloop, pure,
    Option.some.injEq, Prod.mk.injEq]
  exact ⟨by rw [← hq, take_left], by rw [← hr, take_left]⟩

theorem knuthDiv_eq_none {a b : List ℤ} (hle : b.length ≤ a.length)
    (hlen : remBufferSize < a.length + 2) : knuthDiv a b = none := by
  unfold knuthDiv
  cases hmula : mul a (normalizer b) with
  | none => simp [hmula]
  | some a' =>
    cases hmulb : mul b (normalizer b) with
    | none => simp [hmula, hmulb]
    | some c =>
      simp only [hmula, hmulb, Option.bind_eq_bind, Option.bind_some]
      rw [inBuffer, if_neg, Option.bind_none]
      rw [length_append, length_replicate]
      omega

/-! ### The remainder -/

/-- Dividing by a single digit, from the top. -/
theorem divLoop_spec {b r : ℤ} {ds : List ℤ} (hb : 0 < b) (hr0 : 0 ≤ r) (hr : r < b)
    (hds : IsDigits base ds) :
    (divLoop b r ds).length = ds.length ∧ IsDigits base (divLoop b r ds) ∧
      evalLE base (divLoop b r ds).reverse =
        (r * base ^ ds.length + evalLE base ds.reverse) / b := by
  induction ds generalizing r with
  | nil =>
    refine ⟨rfl, by simp [divLoop], ?_⟩
    simp [divLoop, Int.ediv_eq_zero_of_lt hr0 hr]
  | cons d ds ih =>
    obtain ⟨⟨hd0, hd⟩, hds⟩ := IsDigits.cons_iff.mp hds
    have htemp0 : 0 ≤ r * base + d := by
      have := mul_nonneg hr0 base_pos.le
      linarith
    have hcell : r * base + d < base * b := by
      have := mul_le_mul_of_nonneg_right (show r ≤ b - 1 by omega) base_pos.le
      linarith
    have hstep : divLoop b r (d :: ds) =
        (r * base + d) / b :: divLoop b ((r * base + d) % b) ds := by
      rw [divLoop, Int.tdiv_eq_ediv_of_nonneg htemp0, mul_comm (_ / _), ← Int.emod_def]
    obtain ⟨hlen, hdig, hval⟩ :=
      ih (Int.emod_nonneg (r * base + d) hb.ne') (Int.emod_lt_of_pos _ hb) hds
    rw [hstep]
    refine ⟨by simp [hlen], ?_, ?_⟩
    · rw [IsDigits.cons_iff]
      exact ⟨⟨Int.ediv_nonneg htemp0 hb.le, Int.ediv_lt_of_lt_mul hb hcell⟩, hdig⟩
    · have hdiv := Int.emod_add_mul_ediv (r * base + d) b
      have hwhole : r * base ^ (ds.length + 1) + (evalLE base ds.reverse + base ^ ds.length * d) =
          (r * base + d) % b * base ^ ds.length + evalLE base ds.reverse +
            b * (base ^ ds.length * ((r * base + d) / b)) := by
        linear_combination -(base : ℤ) ^ ds.length * hdiv
      simp only [reverse_cons, evalLE_append, evalLE_cons, evalLE_nil, mul_zero, add_zero,
        length_reverse, length_cons, hval, hlen]
      rw [hwhole, Int.add_mul_ediv_left _ _ hb.ne']

theorem divDigit_spec {a : List ℤ} {b : ℤ} (hb : 0 < b) (ha : IsDigits base a) :
    (divDigit a b).length = a.length ∧ IsDigits base (divDigit a b) ∧
      evalLE base (divDigit a b) = evalLE base a / b := by
  have hrev : IsDigits base a.reverse := fun d hd => ha d (mem_reverse.mp hd)
  obtain ⟨hlen, hdig, hval⟩ := divLoop_spec hb (le_refl 0) hb hrev
  refine ⟨by simp [divDigit, hlen], ?_, ?_⟩
  · intro d hd
    exact hdig d (mem_reverse.mp hd)
  · rw [divDigit, hval]
    simp

/-- **`rem`** is the remainder, if there is room for two cells above the dividend. -/
theorem rem_spec {a b : List ℤ} (hb : IsDivisor b) (ha : IsDigits base a)
    (hle : b.length ≤ a.length) (hlen : a.length + 2 ≤ remBufferSize) :
    ∃ r, rem a b = some r ∧ r.length = b.length ∧ IsDigits base r ∧
      evalLE base r = evalLE base a % evalLE base b := by
  obtain ⟨q, r, hdiv, hr, hrdig, hrval, -, -, -⟩ := knuthDiv_spec hb ha hle hlen
  have hdpos := hb.normalizer_pos
  obtain ⟨hlen', hdig, hval⟩ := divDigit_spec hdpos hrdig
  refine ⟨divDigit r (normalizer b), ?_, by rw [hlen', hr], hdig, ?_⟩
  · rw [rem, hdiv]
    rfl
  · rw [hval, hrval, Int.mul_ediv_cancel _ hdpos.ne']

theorem rem_eq_none {a b : List ℤ} (hle : b.length ≤ a.length)
    (hlen : remBufferSize < a.length + 2) : rem a b = none := by
  rw [rem, knuthDiv_eq_none hle hlen]
  rfl

end Andl.Number.ObDivArray
