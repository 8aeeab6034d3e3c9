import Andl.Number.Equiv.KnuthDiv

/-!
# Correctness of long division in place
-/

namespace Andl.Number.ObDivArray

open List

theorem d4Sub_cons {qq borrow x y : ℤ} (cells : List (ℤ × ℤ)) (hqq : 0 ≤ qq) (hborrow : borrow ≤ 0)
    (hx : x < base) (hy : 0 ≤ y) :
    ∃ c borrow' : ℤ, (0 ≤ c ∧ c < base) ∧ borrow' ≤ 0 ∧
      d4Sub qq borrow ((x, y) :: cells) =
        (c :: (d4Sub qq borrow' cells).1, (d4Sub qq borrow' cells).2) ∧
      c + base * borrow' = x - y * qq + borrow := by
  have hmul := mul_nonneg hy hqq
  have hlt : x - y * qq + borrow < base := by linarith
  rw [d4Sub]
  by_cases hneg : x - y * qq + borrow < 0
  · -- rounding towards zero and subtracting one rounds down
    obtain ⟨n, hn⟩ : ∃ n, x - y * qq + borrow = -n - 1 := ⟨-(x - y * qq + borrow) - 1, by ring⟩
    have hn0 : 0 ≤ n := by omega
    have hdiv : (-n - 1 + 1).tdiv base = -(n / base) := by
      rw [sub_add_cancel, Int.neg_tdiv, Int.tdiv_eq_ediv_of_nonneg hn0]
    have hmod := Int.emod_add_mul_ediv n base
    have hmod0 := Int.emod_nonneg n base_pos.ne'
    have hmodlt := Int.emod_lt_of_pos n base_pos
    have hq := Int.ediv_nonneg hn0 base_pos.le
    rw [hn] at hneg ⊢
    simp only [hneg, true_or, if_true, hdiv]
    exact ⟨_, -(n / base) - 1, ⟨by linarith, by linarith⟩, by omega, rfl, by ring⟩
  · refine ⟨x - y * qq + borrow, 0, ⟨by omega, hlt⟩, le_refl 0, ?_, by ring⟩
    rw [if_neg (by omega)]

/-- Subtracting `qq` times the divisor leaves digits in range and the borrow. -/
theorem d4Sub_spec {qq borrow : ℤ} {cells : List (ℤ × ℤ)} (hqq : 0 ≤ qq) (hborrow : borrow ≤ 0)
    (hx : IsDigits base (cells.map Prod.fst)) (hy : IsDigits base (cells.map Prod.snd)) :
    ∃ cs borrow', d4Sub qq borrow cells = (cs, borrow') ∧ IsDigits base cs ∧
      cs.length = cells.length ∧ borrow' ≤ 0 ∧
      evalLE base cs + base ^ cells.length * borrow' =
        evalLE base (cells.map Prod.fst) - evalLE base (cells.map Prod.snd) * qq + borrow := by
  induction cells generalizing borrow with
  | nil => exact ⟨[], borrow, rfl, by simp, rfl, hborrow, by simp⟩
  | cons cell cells ih =>
    obtain ⟨x, y⟩ := cell
    simp only [map_cons, IsDigits.cons_iff] at hx hy
    obtain ⟨c, borrow1, hc, hborrow1, hstep, hcell⟩ :=
      d4Sub_cons cells hqq hborrow hx.1.2 hy.1.1
    obtain ⟨cs, borrow', hloop, hcs, hlen, hborrow', hval⟩ := ih hborrow1 hx.2 hy.2
    refine ⟨c :: cs, borrow', ?_, IsDigits.cons_iff.mpr ⟨hc, hcs⟩, by simp [hlen], hborrow', ?_⟩
    · rw [hstep, hloop]
    · simp only [map_cons, evalLE_cons, length_cons, pow_succ]
      linear_combination (base : ℤ) * hval + hcell

/-- Adding back is adding, without a cell for the last carry. -/
theorem d4AddBack_eq_take (carry : ℤ) (cells : List (ℤ × ℤ)) :
    d4AddBack carry cells = (addLoop carry cells).take cells.length := by
  induction cells generalizing carry with
  | nil => rfl
  | cons cell cells ih =>
    obtain ⟨x, y⟩ := cell
    have hsum : x + (y + carry) = carry + x + y := by ring
    rw [d4AddBack, addLoop, hsum]
    split_ifs <;> simp [ih]

theorem d4AddBack_spec {cs b : List ℤ} {t : ℤ} (hcs : IsDigits base cs) (hb : IsDigits base b)
    (hlen : cs.length = b.length)
    (hnonneg : 0 ≤ evalLE base cs + base ^ cs.length * (t - base) + evalLE base b)
    (hlt : evalLE base cs + base ^ cs.length * (t - base) + evalLE base b < base ^ cs.length) :
    ∃ rs, d4AddBack 0 ((cs ++ [t - base]).zip (b ++ [0])) = rs ++ [0] ∧ rs.length = cs.length ∧
      IsDigits base rs ∧
      evalLE base rs = evalLE base cs + base ^ cs.length * (t - base) + evalLE base b := by
  have hzip : (cs ++ [t - base]).zip (b ++ [0]) = cs.zip b ++ [(t - base, 0)] := by
    rw [zip_append hlen]
    rfl
  have hfst : (cs.zip b).map Prod.fst = cs := map_fst_zip hlen.le
  have hsnd : (cs.zip b).map Prod.snd = b := map_snd_zip hlen.ge
  have hziplen : (cs.zip b).length = cs.length := by simp [hlen]
  obtain ⟨rs, carry, hrs, hrslen, hcarry, hloop, hval⟩ :=
    addLoop_append [(t - base, 0)] (.inl rfl) (hfst.symm ▸ hcs) (hsnd.symm ▸ hb)
  rw [hfst, hsnd, hziplen, add_zero] at hval
  rw [hziplen] at hrslen
  -- the sum fits into the cells below the topmost one, which is therefore zero
  have hpow : (0 : ℤ) < base ^ cs.length := pow_pos base_pos _
  have hrs0 := hrs.evalLE_nonneg base_pos
  have hrslt : evalLE base rs < base ^ cs.length := hrslen ▸ hrs.evalLE_lt base_pos
  have htop : t - base + carry = 0 := by
    rcases lt_trichotomy (t - base + carry) 0 with hneg | hzero | hpos
    · have := mul_le_mul_of_nonneg_left (show t - base + carry ≤ -1 by omega) hpow.le
      linarith
    · exact hzero
    · have := mul_le_mul_of_nonneg_left (show 1 ≤ t - base + carry by omega) hpow.le
      linarith
  refine ⟨rs, ?_, hrslen, hrs, ?_⟩
  · have hlast : addLoop carry [(t - base, 0)] = [0] := by
      rw [addLoop, show carry + (t - base) + 0 = 0 by linarith, if_neg (by decide), addLoop,
        carryOut_of_lt (le_refl 0) base_pos, if_pos rfl]
    rw [d4AddBack_eq_take, hzip, hloop, hlast, take_of_length_le]
    simp [hziplen, hrslen]
  · linear_combination hval - (base : ℤ) ^ cs.length * htop

/-- **A call of `knuth_d4`**, with an estimate that is right or one too large. -/
theorem knuthD4_spec {b cells : List ℤ} {qq : ℤ} (hb : IsDigits base b)
    (hcells : IsDigits base cells) (hlen : cells.length = b.length + 1) (hqq : 0 ≤ qq)
    (hV : 0 < evalLE base b) (hlow : (qq - 1) * evalLE base b ≤ evalLE base cells)
    (hhigh : evalLE base cells < (qq + 1) * evalLE base b) :
    ∃ rs, IsRest b rs ∧ evalLE base rs = evalLE base cells % evalLE base b ∧
      knuthD4 cells (b ++ [0]) qq = (rs ++ [0], evalLE base cells / evalLE base b) := by
  set V := evalLE base b with hVdef
  set W := evalLE base cells with hW
  have hb' : IsDigits base (b ++ [0]) := by
    rw [IsDigits.append_iff]
    exact ⟨hb, .replicate_zero base_pos 1⟩
  have hfst : (cells.zip (b ++ [0])).map Prod.fst = cells := map_fst_zip (by simp [hlen])
  have hsnd : (cells.zip (b ++ [0])).map Prod.snd = b ++ [0] := map_snd_zip (by simp [hlen])
  have hziplen : (cells.zip (b ++ [0])).length = b.length + 1 := by simp [hlen]
  obtain ⟨cs, borrow, hsub, hcs, hcslen, hborrow, hval⟩ :=
    d4Sub_spec hqq (le_refl 0) (hfst.symm ▸ hcells) (hsnd.symm ▸ hb')
  have hbval : evalLE base (b ++ [0]) = V := by simp [evalLE_append, hVdef]
  rw [hfst, hsnd, hziplen, hbval, add_zero, ← hW] at hval
  rw [hziplen] at hcslen
  have hcs0 := hcs.evalLE_nonneg base_pos
  have hcslt : evalLE base cs < base ^ (b.length + 1) := hcslen ▸ hcs.evalLE_lt base_pos
  have hpow : (0 : ℤ) < base ^ (b.length + 1) := pow_pos base_pos _
  have hVlt : V < base ^ (b.length + 1) := by
    refine (hb.evalLE_lt base_pos).trans_le ?_
    exact pow_le_pow_right₀ (show (1 : ℤ) ≤ base by decide) (Nat.le_succ b.length)
  unfold knuthD4
  simp only [hsub]
  by_cases hneg : borrow < 0
  · -- the estimate was one too large
    have hone : borrow = -1 := by
      by_contra hne
      have := mul_le_mul_of_nonneg_left (show borrow ≤ -2 by omega) hpow.le
      linarith
    subst hone
    obtain ⟨cs, t, rfl⟩ := exists_concat (l := cs) (by omega)
    have hlen' : cs.length = b.length := by simpa using hcslen
    rw [evalLE_append, evalLE_cons, evalLE_nil, mul_zero, add_zero] at hval hcslt hcs0
    rw [IsDigits.append_iff] at hcs
    have hdiff : evalLE base cs + base ^ cs.length * (t - base) + V = W - (qq - 1) * V := by
      rw [pow_succ, ← hlen'] at hval
      linear_combination hval
    obtain ⟨rs, hback, hrslen, hrs, hrsval⟩ := d4AddBack_spec (t := t) hcs.1 hb hlen'
      (by rw [hdiff]; linarith) (by rw [hdiff, hlen']; linarith [hb.evalLE_lt base_pos])
    rw [hdiff] at hrsval
    have hdiv : W / V = qq - 1 ∧ W % V = evalLE base rs := by
      rw [Int.ediv_emod_unique hV]
      exact ⟨by linarith, hrs.evalLE_nonneg base_pos, by linarith⟩
    refine ⟨rs, ⟨by rw [hrslen, hlen'], hrs, by linarith⟩, hdiv.2.symm, ?_⟩
    have hset : (cs ++ [t]).set ((cs ++ [t]).length - 1)
        ((cs ++ [t]).getD ((cs ++ [t]).length - 1) 0 + -1 * base) = cs ++ [t - base] := by
      simp [sub_eq_add_neg]
    rw [if_pos hneg, hset, hback, hdiv.1]
  · have hzero : borrow = 0 := by omega
    subst hzero
    have hdiv : W / V = qq ∧ W % V = evalLE base cs := by
      rw [Int.ediv_emod_unique hV]
      exact ⟨by linarith, hcs0, by linarith⟩
    obtain ⟨rs, rfl, hrest, hrsval⟩ := exists_rest hb hcs hcslen (by
      rw [← hdiv.2]
      exact Int.emod_lt_of_pos W hV)
    exact ⟨rs, hrest, by rw [hrsval, hdiv.2], by rw [if_neg hneg, hdiv.1]⟩

/-- **A step of `knuth_div_v2`** divides. -/
theorem knuthStepV2_divides {b : List ℤ} (hpos : 0 < b.length) (hb : IsDigits base b)
    (hnorm : Normalized b) : StepDivides b (knuthStepV2 b b.length) := by
  intro lo c rs k q hc0 hc hrs hlen hroom
  have hws : IsDigits base (c :: rs) := IsDigits.cons_iff.mpr ⟨⟨hc0, hc⟩, hrs.digits⟩
  have hwslen : (c :: rs).length = b.length + 1 := by simp [hrs.length_eq]
  have hVpos : 0 < evalLE base b := by
    have := hrs.digits.evalLE_nonneg base_pos
    linarith [hrs.lt]
  obtain ⟨hq0, hlow, hhigh⟩ :=
    estimate_spec lo (List.replicate k 0) hwslen hpos hws hb hnorm (hrs.window_lt hc)
  set qq := estimate (lo ++ (c :: rs ++ List.replicate k 0)) b b.length lo.length with hqq
  have hct : ((lo ++ (c :: rs ++ List.replicate k 0)).drop lo.length).take (b.length + 1) =
      c :: rs := by
    rw [drop_left, ← hwslen, take_left]
  unfold knuthStepV2
  simp only [← hqq, hct]
  by_cases hzero : qq = 0
  · -- the window is less than the divisor, and stays as it is
    rw [hzero, zero_add, one_mul] at hhigh
    have hw0 := hws.evalLE_nonneg base_pos
    obtain ⟨rs', hcells, hrest, hrsval⟩ := exists_rest hb hws hwslen hhigh
    refine ⟨rs', hrest, by rw [hrsval, Int.emod_eq_of_lt hw0 hhigh], ?_⟩
    rw [if_neg (not_not.mpr hzero), Int.ediv_eq_zero_of_lt hw0 hhigh, hzero, hcells]
    simp [replicate_succ]
  · obtain ⟨rs', hrest, hrsval, hd4⟩ := knuthD4_spec hb hws hwslen hq0 hVpos hlow hhigh
    refine ⟨rs', hrest, hrsval, ?_⟩
    rw [if_pos hzero, hd4]
    have hlen' : (rs' ++ [0]).length = (c :: rs).length := by simp [hrest.length_eq, hrs.length_eq]
    have hcopy := copy_from_cells lo (c :: rs) (List.replicate k 0) (rs' ++ [0]) hlen'
    rw [hlen', hwslen] at hcopy
    simp only [hcopy, pure]
    simp [replicate_succ]

/-- **`knuth_div_v2` divides**, if there is room for two cells above the dividend. -/
theorem knuthDivV2_spec {a b : List ℤ} (hb : IsDivisor b) (ha : IsDigits base a)
    (hle : b.length ≤ a.length) (hlen : a.length + 2 ≤ remBufferSize) :
    ∃ q, knuthDivV2 a b = some q ∧ q.length = a.length + 1 - b.length ∧ IsDigits base q ∧
      evalLE base q = evalLE base a / evalLE base b := by
  have hstep (c : List ℤ) (hc : IsDivisor.IsNormalizedOf b c) :
      StepDivides c (knuthStepV2 c b.length) := by
    rw [← hc.length_eq]
    exact knuthStepV2_divides (hc.length_eq ▸ hb.length_pos) hc.digits hc.normalized
  obtain ⟨a', c, cells, r, q, hmula, hmulb, hbuf, hloop, -, -, -, hq, hqdig, hqval⟩ :=
    exists_knuthLoop hb ha hle hlen hstep
  refine ⟨q, ?_, hq, hqdig, hqval⟩
  unfold knuthDivV2
  simp only [hmula, hmulb, hbuf, Option.bind_eq_bind, Option.bind_some, hloop, pure,
    Option.some.injEq]
  rw [← hq, take_left]

end Andl.Number.ObDivArray
