import Andl.Lib.LongDiv
import Andl.Number.DivArray

/-!
# Correctness of the steps of long division
-/

namespace Andl.Number.ObDivArray

open List

theorem base_pos : (0 : ℤ) < base := by decide

/-! ### The loops -/

theorem inBuffer_eq_some {cells : List ℤ} (h : cells.length ≤ remBufferSize) :
    inBuffer cells = some cells := if_pos h

variable {c carry x : ℤ} {b cs rs : List ℤ}

theorem carryOut_of_lt (h0 : 0 ≤ c) (h : c < base) : carryOut 3 c = if c = 0 then [] else [c] := by
  have hdiv : c.tdiv base = 0 := Int.tdiv_eq_zero_of_lt h0 h
  unfold carryOut
  split_ifs with hc
  · rfl
  · rw [hdiv]
    simp [carryOut]

/-- Multiplying by a digit: a carry that is left over is a new cell. -/
theorem mulLoop_spec {b : ℤ} {ds : List ℤ} (hb0 : 0 ≤ b) (hb : b ≤ base) (hds : IsDigits base ds)
    (hc0 : 0 ≤ carry) (hc : carry < base) :
    IsDigits base (mulLoop b carry ds) ∧
      evalLE base (mulLoop b carry ds) = evalLE base ds * b + carry ∧
      ((mulLoop b carry ds).length = ds.length ∨
        (mulLoop b carry ds).length = ds.length + 1 ∧
          (base : ℤ) ^ ds.length ≤ evalLE base ds * b + carry) := by
  induction ds generalizing carry with
  | nil =>
    rw [mulLoop, carryOut_of_lt hc0 hc]
    split_ifs with hzero
    · simp [hzero]
    · refine ⟨by simp [hc0, hc], by simp, .inr ⟨rfl, ?_⟩⟩
      simp only [length_nil, pow_zero, evalLE_nil, zero_mul, zero_add]
      omega
  | cons d ds ih =>
    obtain ⟨⟨hd0, hd⟩, hds⟩ := IsDigits.cons_iff.mp hds
    have hmul0 : 0 ≤ d * b := mul_nonneg hd0 hb0
    have htemp0 : 0 ≤ d * b + carry := by linarith
    -- both branches put `temp % base` in the cell and carry `temp / base`
    have hcarry0 : 0 ≤ (d * b + carry) / base := Int.ediv_nonneg htemp0 base_pos.le
    have hcarry : (d * b + carry) / base < base := by
      apply Int.ediv_lt_of_lt_mul base_pos
      have hle : d * b ≤ (base - 1) * base :=
        mul_le_mul (by linarith) hb hb0 (by linarith [base_pos])
      linarith
    have hstep : mulLoop b carry (d :: ds) =
        (d * b + carry) % base :: mulLoop b ((d * b + carry) / base) ds := by
      rw [mulLoop]
      split_ifs with hge
      · rw [Int.tdiv_eq_ediv_of_nonneg htemp0, mul_comm (_ / _), ← Int.emod_def]
      · push Not at hge
        rw [Int.emod_eq_of_lt htemp0 hge, Int.ediv_eq_zero_of_lt htemp0 hge]
    obtain ⟨hdig, hval, hlen⟩ := ih hds hcarry0 hcarry
    have hsum := Int.emod_add_mul_ediv (d * b + carry) base
    have heval : evalLE base (mulLoop b carry (d :: ds)) = evalLE base (d :: ds) * b + carry := by
      rw [hstep, evalLE_cons, hval, evalLE_cons]
      linear_combination hsum
    refine ⟨?_, heval, ?_⟩
    · rw [hstep, IsDigits.cons_iff]
      exact ⟨⟨Int.emod_nonneg _ base_pos.ne', Int.emod_lt_of_pos _ base_pos⟩, hdig⟩
    · rw [hstep]
      rcases hlen with hlen | ⟨hlen, hge⟩
      · exact .inl (by simp [hlen])
      · refine .inr ⟨by simp [hlen], ?_⟩
        have hmod0 := Int.emod_nonneg (d * b + carry) base_pos.ne'
        have hmulge := mul_le_mul_of_nonneg_left hge base_pos.le
        rw [evalLE_cons, length_cons, pow_succ]
        linarith

theorem subLoop_cons {borrow y : ℤ} (cells : List (ℤ × ℤ)) (hborrow : borrow = 0 ∨ borrow = -1)
    (hx0 : 0 ≤ x) (hx : x < base) (hy0 : 0 ≤ y) (hy : y < base) :
    ∃ c borrow' : ℤ, (0 ≤ c ∧ c < base) ∧ (borrow' = 0 ∨ borrow' = -1) ∧
      subLoop borrow ((x, y) :: cells) = c :: subLoop borrow' cells ∧
      c + base * borrow' = x - y + borrow := by
  rw [subLoop]
  by_cases hneg : borrow + x - y < 0
  · refine ⟨borrow + x - y + base, -1, ⟨by omega, by omega⟩, .inr rfl, ?_, by ring⟩
    rw [if_pos hneg]
  · refine ⟨borrow + x - y, 0, ⟨by omega, by omega⟩, .inl rfl, ?_, by ring⟩
    rw [if_neg hneg]

/-- Subtracting: a borrow that is left over is a cell `-1`. -/
theorem subLoop_spec {borrow : ℤ} {cells : List (ℤ × ℤ)} (hborrow : borrow = 0 ∨ borrow = -1)
    (hx : IsDigits base (cells.map Prod.fst)) (hy : IsDigits base (cells.map Prod.snd)) :
    ∃ cs borrow', IsDigits base cs ∧ cs.length = cells.length ∧ (borrow' = 0 ∨ borrow' = -1) ∧
      subLoop borrow cells = cs ++ subLoop borrow' [] ∧
      evalLE base cs + base ^ cells.length * borrow' =
        evalLE base (cells.map Prod.fst) - evalLE base (cells.map Prod.snd) + borrow := by
  induction cells generalizing borrow with
  | nil => exact ⟨[], borrow, by simp, rfl, hborrow, rfl, by simp⟩
  | cons cell cells ih =>
    obtain ⟨x, y⟩ := cell
    simp only [map_cons, IsDigits.cons_iff] at hx hy
    obtain ⟨c, borrow1, hc, hborrow1, hstep, hcell⟩ :=
      subLoop_cons cells hborrow hx.1.1 hx.1.2 hy.1.1 hy.1.2
    obtain ⟨cs, borrow', hcs, hlen, hborrow', hloop, hval⟩ := ih hborrow1 hx.2 hy.2
    refine ⟨c :: cs, borrow', IsDigits.cons_iff.mpr ⟨hc, hcs⟩, by simp [hlen], hborrow', ?_, ?_⟩
    · rw [hstep, hloop, cons_append]
    · simp only [map_cons, evalLE_cons, length_cons, pow_succ]
      linear_combination (base : ℤ) * hval + hcell

theorem addLoop_cons {y : ℤ} (cells : List (ℤ × ℤ)) (hcarry : carry = 0 ∨ carry = 1) (hx0 : 0 ≤ x)
    (hx : x < base) (hy0 : 0 ≤ y) (hy : y < base) :
    ∃ c carry' : ℤ, (0 ≤ c ∧ c < base) ∧ (carry' = 0 ∨ carry' = 1) ∧
      addLoop carry ((x, y) :: cells) = c :: addLoop carry' cells ∧
      c + base * carry' = x + y + carry := by
  rw [addLoop]
  by_cases hge : carry + x + y ≥ base
  · -- the sum of two digits and a carry is less than twice the base
    have hdiv : (carry + x + y).tdiv base = 1 := by
      rw [Int.tdiv_eq_ediv_of_nonneg (by omega), Int.ediv_eq_iff_of_pos base_pos]
      omega
    refine ⟨carry + x + y - 1 * base, 1, ⟨by omega, by omega⟩, .inr rfl, ?_, by ring⟩
    rw [if_pos hge, hdiv]
  · refine ⟨carry + x + y, 0, ⟨by omega, by omega⟩, .inl rfl, ?_, by ring⟩
    rw [if_neg hge]

/-- Adding, up to cells that are still to come. -/
theorem addLoop_append {cells : List (ℤ × ℤ)} (rest : List (ℤ × ℤ)) (hcarry : carry = 0 ∨ carry = 1)
    (hx : IsDigits base (cells.map Prod.fst)) (hy : IsDigits base (cells.map Prod.snd)) :
    ∃ cs carry', IsDigits base cs ∧ cs.length = cells.length ∧ (carry' = 0 ∨ carry' = 1) ∧
      addLoop carry (cells ++ rest) = cs ++ addLoop carry' rest ∧
      evalLE base cs + base ^ cells.length * carry' =
        evalLE base (cells.map Prod.fst) + evalLE base (cells.map Prod.snd) + carry := by
  induction cells generalizing carry with
  | nil => exact ⟨[], carry, by simp, rfl, hcarry, rfl, by simp⟩
  | cons cell cells ih =>
    obtain ⟨x, y⟩ := cell
    simp only [map_cons, IsDigits.cons_iff] at hx hy
    obtain ⟨c, carry1, hc, hcarry1, hstep, hcell⟩ :=
      addLoop_cons (cells ++ rest) hcarry hx.1.1 hx.1.2 hy.1.1 hy.1.2
    obtain ⟨cs, carry', hcs, hlen, hcarry', hloop, hval⟩ := ih hcarry1 hx.2 hy.2
    refine ⟨c :: cs, carry', IsDigits.cons_iff.mpr ⟨hc, hcs⟩, by simp [hlen], hcarry', ?_, ?_⟩
    · rw [cons_append, hstep, hloop, cons_append]
    · simp only [map_cons, evalLE_cons, length_cons, pow_succ]
      linear_combination (base : ℤ) * hval + hcell

/-! ### Signs -/

theorem isNeg_of_isDigits (h : IsDigits base cs) : isNeg cs = false := by
  unfold isNeg
  cases hfind : cs.reverse.find? (· ≠ 0) with
  | none => rfl
  | some d =>
    have hmem := mem_reverse.mp (mem_of_find?_eq_some hfind)
    simpa using (h d hmem).1

theorem isNeg_append_neg (cs : List ℤ) : isNeg (cs ++ [-1]) = true := by
  simp [isNeg]

/-! ### Cells side by side -/

theorem length_zipCells (a b : List ℤ) : (zipCells a b).length = max a.length b.length := by
  simp [zipCells]

theorem map_fst_zipCells (a b : List ℤ) :
    (zipCells a b).map Prod.fst = a ++ List.replicate (max a.length b.length - a.length) 0 := by
  rw [zipCells, map_fst_zip]
  simp

theorem map_snd_zipCells (a b : List ℤ) :
    (zipCells a b).map Prod.snd = b ++ List.replicate (max a.length b.length - b.length) 0 := by
  rw [zipCells, map_snd_zip]
  simp

/-! ### The estimate -/

/-- The first digit is at least half the base. -/
def Normalized (b : List ℤ) : Prop := (base : ℤ) ≤ 2 * b.getD (b.length - 1) 0

theorem evalLE_top_three (ws : List ℤ) (u2 u1 u0 : ℤ) :
    evalLE base (ws ++ [u2, u1, u0]) =
      ((u0 * base + u1) * base + u2) * base ^ ws.length + evalLE base ws := by
  rw [evalLE_append]
  simp only [evalLE_cons, evalLE_nil]
  ring

theorem evalLE_top_two (bs : List ℤ) (v2 v1 : ℤ) :
    evalLE base (bs ++ [v2, v1]) = (v1 * base + v2) * base ^ bs.length + evalLE base bs := by
  rw [evalLE_append]
  simp only [evalLE_cons, evalLE_nil]
  ring

theorem exists_concat {l : List ℤ} (h : 0 < l.length) : ∃ xs x, l = xs ++ [x] := by
  rcases eq_nil_or_concat' l with rfl | hconcat
  · simp at h
  · exact hconcat

/-- With two digits or more, the estimate looks at three cells and two digits. -/
theorem estimate_of_two (lo ws hi bs : List ℤ) (u2 u1 u0 v2 v1 : ℤ)
    (hlen : ws.length = bs.length) (ht : 0 ≤ u0 * base + u1) :
    estimate (lo ++ (ws ++ [u2, u1, u0] ++ hi)) (bs ++ [v2, v1]) (bs.length + 2) lo.length =
      correctedEstimate base (u0 * base + u1) v1 v2 u2 := by
  have h0 : (lo ++ (ws ++ [u2, u1, u0] ++ hi)).getD (lo.length + (bs.length + 2)) 0 = u0 := by
    simp [← hlen]
  have h1 : (lo ++ (ws ++ [u2, u1, u0] ++ hi)).getD (lo.length + (bs.length + 2) - 1) 0 = u1 := by
    rw [show lo.length + (bs.length + 2) - 1 = lo.length + (ws.length + 1) by omega]
    simp
  have h2 : (lo ++ (ws ++ [u2, u1, u0] ++ hi)).getD (lo.length + (bs.length + 2) - 2) 0 = u2 := by
    rw [show lo.length + (bs.length + 2) - 2 = lo.length + (ws.length + 0) by omega]
    simp
  have g1 : (bs ++ [v2, v1]).getD (bs.length + 2 - 1) 0 = v1 := by simp
  have g2 : (bs ++ [v2, v1]).getD (bs.length + 2 - 2) 0 = v2 := by simp
  unfold estimate correctedEstimate
  rw [h0, h1, h2, g1, g2]
  dsimp only
  rw [Int.tdiv_eq_ediv_of_nonneg ht, Int.tmod_eq_emod_of_nonneg ht]
  simp

/-- With a divisor of one digit the estimate is the quotient. -/
theorem estimate_of_one (lo hi : List ℤ) (u1 u0 v1 : ℤ) (ht : 0 ≤ u0 * base + u1) (hv1 : 0 < v1)
    (hlt : u0 * base + u1 < base * v1) :
    estimate (lo ++ ([u1, u0] ++ hi)) [v1] 1 lo.length = (u0 * base + u1) / v1 := by
  have h0 : (lo ++ ([u1, u0] ++ hi)).getD (lo.length + 1) 0 = u0 := by simp
  have h1 : (lo ++ ([u1, u0] ++ hi)).getD (lo.length + 1 - 1) 0 = u1 := by simp
  have g1 : ([v1] : List ℤ).getD (1 - 1) 0 = v1 := rfl
  have hq : (u0 * base + u1) / v1 ≠ base := (Int.ediv_lt_of_lt_mul hv1 hlt).ne
  unfold estimate
  rw [h0, h1, g1]
  dsimp only
  rw [Int.tdiv_eq_ediv_of_nonneg ht, if_neg]
  rintro (h | ⟨h, -⟩)
  · exact hq h
  · omega

/-- **The estimate** of a digit of the quotient is right, or one too large. -/
theorem estimate_spec (lo hi : List ℤ) {ws : List ℤ} (hlen : ws.length = b.length + 1)
    (hpos : 0 < b.length) (hws : IsDigits base ws) (hb : IsDigits base b) (hnorm : Normalized b)
    (hlt : evalLE base ws < base * evalLE base b) :
    0 ≤ estimate (lo ++ (ws ++ hi)) b b.length lo.length ∧
      (estimate (lo ++ (ws ++ hi)) b b.length lo.length - 1) * evalLE base b ≤ evalLE base ws ∧
      evalLE base ws <
        (estimate (lo ++ (ws ++ hi)) b b.length lo.length + 1) * evalLE base b := by
  rcases (show b.length = 1 ∨ 2 ≤ b.length by omega) with hone | htwo
  · obtain ⟨v1, rfl⟩ := length_eq_one_iff.mp hone
    obtain ⟨u1, u0, rfl⟩ := length_eq_two.mp hlen
    simp only [IsDigits.cons_iff] at hws hb
    simp only [evalLE_cons, evalLE_nil, mul_zero, add_zero] at hlt ⊢
    have hv1 : 0 < v1 := by
      have : (base : ℤ) ≤ 2 * v1 := hnorm
      linarith [base_pos]
    have ht : 0 ≤ u0 * base + u1 := by
      have := mul_nonneg hws.2.1.1 base_pos.le
      linarith [hws.1.1]
    rw [length_singleton, estimate_of_one lo hi u1 u0 v1 ht hv1 (by linarith)]
    have h1 := Int.ediv_mul_le (u0 * base + u1) hv1.ne'
    have h2 := Int.lt_ediv_add_one_mul_self (u0 * base + u1) hv1
    refine ⟨Int.ediv_nonneg ht hv1.le, by linarith, by linarith⟩
  · -- split off the cells that the estimate looks at
    obtain ⟨b, v1, rfl⟩ := exists_concat hpos
    obtain ⟨bs, v2, rfl⟩ := exists_concat (l := b) (by simp at htwo; omega)
    obtain ⟨ws, u0, rfl⟩ := exists_concat (l := ws) (by omega)
    obtain ⟨ws, u1, rfl⟩ := exists_concat (l := ws) (by simp at hlen; omega)
    obtain ⟨wl, u2, rfl⟩ := exists_concat (l := ws) (by simp at hlen; omega)
    simp only [append_assoc, cons_append, nil_append] at hlen hws hb hnorm hlt ⊢
    have hlen' : wl.length = bs.length := by simpa using hlen
    simp only [IsDigits.append_iff, IsDigits.cons_iff] at hws hb
    obtain ⟨hwl, hu2, hu1, hu0, -⟩ := hws
    obtain ⟨hbs, hv2, hv1, -⟩ := hb
    have hnorm' : (base : ℤ) ≤ 2 * v1 := by simpa [Normalized] using hnorm
    have ht : 0 ≤ u0 * base + u1 := by
      have := mul_nonneg hu0.1 base_pos.le
      linarith [hu1.1]
    have hest := estimate_of_two lo wl hi bs u2 u1 u0 v2 v1 hlen' ht
    simp only [append_assoc, cons_append, nil_append] at hest
    rw [show (bs ++ [v2, v1]).length = bs.length + 2 by simp, hest]
    rw [evalLE_top_three, evalLE_top_two, hlen'] at hlt
    rw [evalLE_top_three, evalLE_top_two, hlen']
    have hw : (0 : ℤ) < base ^ bs.length := pow_pos base_pos _
    refine ⟨correctedEstimate_nonneg base_pos (by linarith [base_pos]) ht hu2.1, ?_⟩
    exact estimate_bounds (by decide) hw hnorm' hv2.1 hv2.2 (hbs.evalLE_nonneg base_pos)
      (hbs.evalLE_lt base_pos) ht hu2.1 hu2.2 (hwl.evalLE_nonneg base_pos)
      (hlen' ▸ hwl.evalLE_lt base_pos) hlt

/-! ### One step -/

/-- The cells of a remainder by `b`. -/
structure IsRest (b rs : List ℤ) : Prop where
  length_eq : rs.length = b.length
  digits : IsDigits base rs
  lt : evalLE base rs < evalLE base b

/-- A number that needs one digit less has a zero on top. -/
theorem top_eq_zero {xs : List ℤ} (h : IsDigits base (xs ++ [x]))
    (hlt : evalLE base (xs ++ [x]) < base ^ xs.length) : x = 0 := by
  rw [IsDigits.append_iff, IsDigits.cons_iff] at h
  obtain ⟨hxs, hx, -⟩ := h
  have hnonneg := hxs.evalLE_nonneg base_pos
  have hpow : (0 : ℤ) < base ^ xs.length := pow_pos base_pos _
  rw [evalLE_append, evalLE_cons, evalLE_nil, mul_zero, add_zero] at hlt
  by_contra hne
  have hone : 1 ≤ x := by omega
  have hmul := mul_le_mul_of_nonneg_left hone hpow.le
  linarith

/-- The difference that a step leaves, without the cell above the divisor. -/
theorem exists_rest (hb : IsDigits base b) (hcs : IsDigits base cs)
    (hlen : cs.length = b.length + 1) (hlt : evalLE base cs < evalLE base b) :
    ∃ rs, cs = rs ++ [0] ∧ IsRest b rs ∧ evalLE base rs = evalLE base cs := by
  obtain ⟨rs, x, rfl⟩ := exists_concat (l := cs) (by omega)
  have hrs : rs.length = b.length := by simpa using hlen
  have hx : x = 0 := top_eq_zero hcs (hrs ▸ hlt.trans (hb.evalLE_lt base_pos))
  subst hx
  have hval : evalLE base (rs ++ [0]) = evalLE base rs := by simp [evalLE_append]
  rw [hval] at hlt
  exact ⟨rs, rfl, ⟨hrs, (IsDigits.append_iff.mp hcs).1, hlt⟩, hval.symm⟩

theorem mul_eq_some {a : List ℤ} {b : ℤ} (ha : IsDigits base a) (hb0 : 0 ≤ b) (hb : b ≤ base)
    (hlen : a.length < remBufferSize) :
    ∃ c, mul a b = some c ∧ IsDigits base c ∧ evalLE base c = evalLE base a * b ∧
      (c.length = a.length ∨
        c.length = a.length + 1 ∧ (base : ℤ) ^ a.length ≤ evalLE base a * b) := by
  obtain ⟨hdig, hval, hcases⟩ := mulLoop_spec hb0 hb ha (le_refl 0) base_pos
  rw [add_zero] at hval hcases
  refine ⟨_, ?_, hdig, hval, hcases⟩
  rw [mul, inBuffer_eq_some]
  omega

/-- Subtracting a number of at most as many digits. -/
theorem sub_eq {a : List ℤ} (ha : IsDigits base a) (hb : IsDigits base b)
    (hlen : b.length ≤ a.length) :
    ∃ cs borrow, IsDigits base cs ∧ cs.length = a.length ∧ (borrow = 0 ∨ borrow = -1) ∧
      sub a b = inBuffer (cs ++ subLoop borrow []) ∧
      evalLE base cs + base ^ a.length * borrow = evalLE base a - evalLE base b := by
  have hmax : max a.length b.length = a.length := Nat.max_eq_left hlen
  have hfst : IsDigits base ((zipCells a b).map Prod.fst) := by
    rw [map_fst_zipCells, IsDigits.append_iff]
    exact ⟨ha, .replicate_zero base_pos _⟩
  have hsnd : IsDigits base ((zipCells a b).map Prod.snd) := by
    rw [map_snd_zipCells, IsDigits.append_iff]
    exact ⟨hb, .replicate_zero base_pos _⟩
  obtain ⟨cs, borrow, hcs, hcslen, hborrow, hloop, hval⟩ := subLoop_spec (.inl rfl) hfst hsnd
  rw [length_zipCells, hmax] at hcslen hval
  refine ⟨cs, borrow, hcs, hcslen, hborrow, by rw [sub, hloop], ?_⟩
  rw [hval, map_fst_zipCells, map_snd_zipCells, evalLE_append, evalLE_append]
  simp

/-- Adding the divisor back to a negative difference. -/
theorem add_back (hcs : IsDigits base cs) (hb : IsDigits base b) (hlen : cs.length = b.length + 1) :
    ∃ ds carry, IsDigits base ds ∧ ds.length = cs.length ∧ (carry = 0 ∨ carry = 1) ∧
      add (cs ++ [-1]) b = inBuffer (ds ++ [carry - 1]) ∧
      evalLE base ds + base ^ cs.length * carry = evalLE base cs + evalLE base b := by
  have hzip : zipCells (cs ++ [-1]) b = cs.zip (b ++ [0]) ++ [(-1, 0)] := by
    have hmax : max (cs ++ [(-1 : ℤ)]).length b.length = b.length + 2 := by
      rw [length_append, length_singleton, hlen]
      omega
    unfold zipCells
    rw [hmax]
    simp only [length_append, length_singleton, hlen, Nat.sub_self,
      List.replicate_zero, append_nil, Nat.add_sub_cancel_left]
    rw [show List.replicate 2 (0 : ℤ) = [0] ++ [0] from rfl, ← append_assoc,
      zip_append (by simp [hlen])]
    rfl
  have hfst : (cs.zip (b ++ [0])).map Prod.fst = cs := map_fst_zip (by simp [hlen])
  have hsnd : (cs.zip (b ++ [0])).map Prod.snd = b ++ [0] := map_snd_zip (by simp [hlen])
  have hb' : IsDigits base (b ++ [0]) := by
    rw [IsDigits.append_iff]
    exact ⟨hb, .replicate_zero base_pos 1⟩
  obtain ⟨ds, carry, hds, hdslen, hcarry, hloop, hval⟩ :=
    addLoop_append [(-1, 0)] (.inl rfl) (hfst.symm ▸ hcs) (hsnd.symm ▸ hb')
  have hziplen : (cs.zip (b ++ [0])).length = cs.length := by simp [hlen]
  rw [hziplen] at hdslen hval
  rw [hfst, hsnd] at hval
  refine ⟨ds, carry, hds, hdslen, hcarry, ?_, ?_⟩
  · rw [add, hzip, hloop, addLoop, if_neg (by rcases hcarry with rfl | rfl <;> decide)]
    rw [addLoop, carryOut_of_lt (le_refl 0) base_pos, if_pos rfl]
    rw [add_zero, ← sub_eq_add_neg]
  · rw [hval, evalLE_append]
    simp

/-- A step divides the cell `c` and the remainder `rs` above it by `b`: the quotient is the digit,
and the new remainder takes the place of the old one, a cell further down. -/
def StepDivides (b : List ℤ)
    (step : ℕ → List ℤ → List ℤ → Option (List ℤ × List ℤ)) : Prop :=
  ∀ (lo : List ℤ) (c : ℤ) (rs : List ℤ) (k : ℕ) (q : List ℤ), 0 ≤ c → c < base → IsRest b rs →
    (lo ++ (c :: rs ++ List.replicate k 0)).length ≤ remBufferSize →
    (0 < k ∨ estimate (lo ++ (c :: rs ++ List.replicate k 0)) b b.length lo.length = 0) →
    ∃ rs', IsRest b rs' ∧ evalLE base rs' = evalLE base (c :: rs) % evalLE base b ∧
      step lo.length (lo ++ (c :: rs ++ List.replicate k 0)) q =
        some (lo ++ (rs' ++ List.replicate (k + 1) 0),
          q.set lo.length (evalLE base (c :: rs) / evalLE base b))

theorem IsRest.window_lt (h : IsRest b rs) (hc : c < base) :
    evalLE base (c :: rs) < base * evalLE base b := by
  have hmul : base * (evalLE base rs + 1) ≤ base * evalLE base b :=
    mul_le_mul_of_nonneg_left h.lt base_pos.le
  rw [evalLE_cons]
  linarith

/-- Writing the difference back to the cells it came from. -/
theorem copy_from_cells (lo ws hi cs : List ℤ) (h : cs.length = ws.length) :
    (lo ++ (ws ++ hi)).take lo.length ++ cs ++ (lo ++ (ws ++ hi)).drop (lo.length + cs.length) =
      lo ++ (cs ++ hi) := by
  rw [take_left, ← drop_drop, drop_left, h, drop_left, append_assoc]

/-- **A step of `knuth_div`** divides, if the estimate is zero or there is a cell above. -/
theorem knuthStep_divides (hpos : 0 < b.length) (hb : IsDigits base b) (hnorm : Normalized b) :
    StepDivides b (knuthStep b b.length) := by
  intro lo c rs k q hc0 hc hrs hlen hroom
  set V := evalLE base b with hV
  set W := evalLE base (c :: rs) with hW
  have hws : IsDigits base (c :: rs) := IsDigits.cons_iff.mpr ⟨⟨hc0, hc⟩, hrs.digits⟩
  have hwslen : (c :: rs).length = b.length + 1 := by simp [hrs.length_eq]
  have hlt : W < base * V := hrs.window_lt hc
  have hVpos : 0 < V := by
    have := hrs.digits.evalLE_nonneg base_pos
    linarith [hrs.lt]
  have hlen' : lo.length + (b.length + 1 + k) ≤ remBufferSize := by
    simpa [hrs.length_eq, Nat.add_assoc, Nat.add_comm, Nat.add_left_comm] using hlen
  obtain ⟨hq0, hlow, hhigh⟩ :=
    estimate_spec lo (List.replicate k 0) hwslen hpos hws hb hnorm hlt
  set qq := estimate (lo ++ (c :: rs ++ List.replicate k 0)) b b.length lo.length with hqq
  have hqbase : qq ≤ base := by
    have : (qq - 1) * V < base * V := hlow.trans_lt hlt
    have := lt_of_mul_lt_mul_right this hVpos.le
    linarith
  obtain ⟨prod, hmul, hprod, hprodval, hprodlen⟩ := mul_eq_some hb hq0 hqbase (by omega)
  have hct : ((lo ++ (c :: rs ++ List.replicate k 0)).drop lo.length).take (b.length + 1) =
      c :: rs := by
    rw [drop_left, ← hwslen, take_left]
  obtain ⟨cs, borrow, hcs, hcslen, hborrow, hsub, hval⟩ :=
    sub_eq hws hprod (by rcases hprodlen with h | h <;> omega)
  rw [hprodval, hwslen, ← hV, ← hW] at hval
  rw [hwslen] at hcslen
  unfold knuthStep
  simp only [← hqq, hct, hmul, hsub, Option.bind_eq_bind, Option.bind_some]
  rcases hborrow with rfl | rfl
  · -- no borrow: the estimate was right
    have hdiv : W / V = qq ∧ W % V = evalLE base cs := by
      rw [Int.ediv_emod_unique hVpos]
      refine ⟨by linarith, hcs.evalLE_nonneg base_pos, ?_⟩
      linarith
    obtain ⟨rs', rfl, hrest, hrsval⟩ := exists_rest hb hcs hcslen (by
      rw [← hdiv.2]
      exact Int.emod_lt_of_pos W hVpos)
    refine ⟨rs', hrest, by rw [hrsval, hdiv.2], ?_⟩
    have hsubnil : subLoop 0 [] = [] := rfl
    rw [hsubnil, append_nil, inBuffer_eq_some (by omega)]
    simp only [Option.bind_some, isNeg_of_isDigits hcs, Bool.false_eq_true, if_false]
    rw [copy_from_cells _ _ _ _ (by omega), inBuffer_eq_some, hdiv.1]
    · simp [replicate_succ]
    · rw [length_append, length_append, hcslen, length_replicate]
      exact hlen'
  · -- a borrow: the estimate was one too large, and the divisor is added back
    have hcslt : evalLE base cs < base ^ (b.length + 1) := hcslen ▸ hcs.evalLE_lt base_pos
    have hWlt : W < qq * V := by linarith
    have hk : 0 < k := by
      rcases hroom with hk | hzero
      · exact hk
      · have := hws.evalLE_nonneg base_pos
        rw [hzero, zero_mul] at hWlt
        linarith
    obtain ⟨ds, carry, hds, hdslen, hcarry, hadd, haddval⟩ := add_back hcs hb hcslen
    rw [hcslen] at haddval hdslen
    -- the sum is not negative, so the carry takes the cell `-1` away
    have hone : carry = 1 := by
      rcases hcarry with rfl | rfl
      · have := hdslen ▸ hds.evalLE_lt base_pos
        linarith
      · rfl
    subst hone
    have hdsval : evalLE base ds = W - (qq - 1) * V := by linarith
    have hdiv : W / V = qq - 1 ∧ W % V = evalLE base ds := by
      rw [Int.ediv_emod_unique hVpos]
      refine ⟨by linarith, hds.evalLE_nonneg base_pos, by linarith⟩
    obtain ⟨rs', rfl, hrest, hrsval⟩ := exists_rest hb hds hdslen (by
      rw [← hdiv.2]
      exact Int.emod_lt_of_pos W hVpos)
    refine ⟨rs', hrest, by rw [hrsval, hdiv.2], ?_⟩
    have hsubneg : subLoop (-1) [] = [-1] := rfl
    have hbuf : (cs ++ [(-1 : ℤ)]).length ≤ remBufferSize := by
      rw [length_append, length_singleton]
      omega
    have hbuf' : (rs' ++ [0] ++ [(1 : ℤ) - 1]).length ≤ remBufferSize := by
      rw [length_append, hdslen, length_singleton]
      omega
    rw [hsubneg, inBuffer_eq_some hbuf]
    simp only [Option.bind_some, isNeg_append_neg, if_true, hadd, inBuffer_eq_some hbuf']
    -- the difference is a cell longer than the window, and overwrites a zero
    obtain ⟨k, rfl⟩ : ∃ k', k = k' + 1 := ⟨k - 1, by omega⟩
    have hcells : lo ++ (c :: rs ++ List.replicate (k + 1) 0) =
        lo ++ ((c :: rs ++ [0]) ++ List.replicate k 0) := by
      simp [replicate_succ]
    rw [hcells, copy_from_cells _ _ _ _ (by simp at hdslen hwslen ⊢; omega), inBuffer_eq_some,
      hdiv.1]
    · simp [replicate_succ]
    · rw [length_append, length_append, length_append, hdslen,
        length_replicate, length_singleton]
      omega

/-! ### The loop -/

/-- Dividing the leading part of a number first. -/
theorem divide_window {V : ℤ} (hV : 0 < V) (l p w : ℤ) :
    (l + p * w) % V = (l + p * (w % V)) % V ∧
      (l + p * w) / V = (l + p * (w % V)) / V + p * (w / V) := by
  have hsplit : l + p * w = l + p * (w % V) + V * (p * (w / V)) := by
    linear_combination p * (Int.mul_ediv_add_emod w V).symm
  constructor
  · rw [hsplit, Int.add_mul_emod_self_left]
  · rw [hsplit, Int.add_mul_ediv_left _ _ hV.ne']

theorem IsRest.digit_bounds (h : IsRest b rs) (hc0 : 0 ≤ c) (hc : c < base) :
    0 ≤ evalLE base (c :: rs) / evalLE base b ∧
      evalLE base (c :: rs) / evalLE base b < base := by
  have hrs0 := h.digits.evalLE_nonneg base_pos
  have hpos : 0 < evalLE base b := by linarith [h.lt]
  have hw0 : 0 ≤ evalLE base (c :: rs) := by
    have := mul_nonneg base_pos.le hrs0
    rw [evalLE_cons]
    linarith
  exact ⟨Int.ediv_nonneg hw0 hpos.le, Int.ediv_lt_of_lt_mul hpos (h.window_lt hc)⟩

/-- **The loop** divides the cells `lo` below a remainder `rs`. -/
theorem knuthLoop_spec {step : ℕ → List ℤ → List ℤ → Option (List ℤ × List ℤ)}
    (hstep : StepDivides b step) {lo q : List ℤ} {k : ℕ} (hlo : IsDigits base lo)
    (hrs : IsRest b rs) (hk : 0 < k) (hq : lo.length ≤ q.length)
    (hlen : (lo ++ (rs ++ List.replicate k 0)).length ≤ remBufferSize) :
    ∃ rs' qs, knuthLoop step lo.length (lo ++ (rs ++ List.replicate k 0)) q =
        some (rs' ++ List.replicate (k + lo.length) 0, qs ++ q.drop lo.length) ∧
      IsRest b rs' ∧ evalLE base rs' = evalLE base (lo ++ rs) % evalLE base b ∧
      qs.length = lo.length ∧ IsDigits base qs ∧
      evalLE base qs = evalLE base (lo ++ rs) / evalLE base b := by
  have hpos : 0 < evalLE base b := by
    have := hrs.digits.evalLE_nonneg base_pos
    linarith [hrs.lt]
  -- induction on the cells below the remainder, from the top
  induction lo using List.reverseRecOn generalizing rs q k with
  | nil =>
    have hrs0 := hrs.digits.evalLE_nonneg base_pos
    refine ⟨rs, [], rfl, hrs, ?_, rfl, by simp, ?_⟩
    · rw [nil_append, Int.emod_eq_of_lt hrs0 hrs.lt]
    · rw [nil_append, Int.ediv_eq_zero_of_lt hrs0 hrs.lt, evalLE_nil]
  | append_singleton lo c ih =>
    rw [IsDigits.append_iff, IsDigits.cons_iff] at hlo
    obtain ⟨hlo, ⟨hc0, hc⟩, -⟩ := hlo
    have hcells : lo ++ [c] ++ (rs ++ List.replicate k 0) =
        lo ++ (c :: rs ++ List.replicate k 0) := by simp
    rw [hcells] at hlen
    obtain ⟨rs1, hrs1, hval1, hstep1⟩ := hstep lo c rs k q hc0 hc hrs hlen (.inl hk)
    set x := evalLE base (c :: rs) / evalLE base b
    have hqlen : lo.length < q.length := by
      rw [length_append, length_singleton] at hq
      omega
    obtain ⟨rs', qs, hloop, hrs', hval, hqs, hqsdig, hqsval⟩ :=
      ih (q := q.set lo.length x) (k := k + 1) hlo hrs1 (by omega)
        (by simpa using hqlen.le) (by
          simp only [length_append, length_replicate, length_cons, hrs.length_eq,
            hrs1.length_eq] at hlen ⊢
          omega)
    have hdrop : (q.set lo.length x).drop lo.length = x :: q.drop (lo.length + 1) := by
      rw [drop_eq_getElem_cons (by simpa using hqlen), getElem_set_self,
        drop_set_of_lt (by omega)]
    have hwindow := divide_window hpos (evalLE base lo) (base ^ lo.length) (evalLE base (c :: rs))
    have hwhole : evalLE base (lo ++ [c] ++ rs) =
        evalLE base lo + base ^ lo.length * evalLE base (c :: rs) := by
      rw [append_assoc, evalLE_append, singleton_append]
    have hpart : evalLE base (lo ++ rs1) =
        evalLE base lo + base ^ lo.length * (evalLE base (c :: rs) % evalLE base b) := by
      rw [evalLE_append, hval1]
    refine ⟨rs', qs ++ [x], ?_, hrs', ?_, by simp [hqs], ?_, ?_⟩
    · rw [length_append, length_singleton, knuthLoop, hcells, hstep1]
      simp only [Option.bind_eq_bind, Option.bind_some]
      rw [hloop, hdrop]
      simp [Nat.add_comm, Nat.add_left_comm]
    · rw [hval, hwhole, hpart, hwindow.1]
    · rw [IsDigits.append_iff, IsDigits.cons_iff]
      exact ⟨hqsdig, hrs.digit_bounds hc0 hc, by simp⟩
    · rw [evalLE_append, hqsval, hwhole, hpart, hwindow.2, hqs, evalLE_cons _ x [], evalLE_nil,
        mul_zero, add_zero]

end Andl.Number.ObDivArray
