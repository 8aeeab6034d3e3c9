import Andl.Number.Equiv.Add
import Andl.Number.Equiv.KnuthDivV2

/-!
# Correctness of multiplication and division
-/

namespace Andl.Number.ObNumber

open List

/-! ### The product of the digits -/

theorem mulRow_spec (a : ℕ) (bs sum : List ℕ) (i : ℕ) (h : i + bs.length ≤ sum.length) :
    (mulRow a bs i sum).length = sum.length ∧
      ofDigitsBE base (mulRow a bs i sum) =
        ofDigitsBE base sum + a * ofDigitsBE base bs * base ^ (sum.length - i - bs.length) := by
  induction bs generalizing i sum with
  | nil => simp [mulRow]
  | cons b bs ih =>
    rw [length_cons] at h
    obtain ⟨hlen, hval⟩ :=
      ih (sum.set i (sum.getD i 0 + a * b)) (i + 1) (by rw [length_set]; omega)
    rw [length_set] at hlen hval
    refine ⟨hlen, ?_⟩
    have hexp : sum.length - 1 - i = bs.length + (sum.length - (i + 1) - bs.length) := by omega
    have hexp' : sum.length - i - (bs.length + 1) = sum.length - (i + 1) - bs.length := by omega
    rw [mulRow, hval, ofDigitsBE_set_add base (by omega), ofDigitsBE_cons, hexp, pow_add,
      length_cons, hexp']
    ring

/-- **The rows** of a product add up to it. -/
theorem mulRows_spec (bs as sum : List ℕ) (i : ℕ) (h : i + as.length + bs.length ≤ sum.length) :
    (mulRows bs as i sum).length = sum.length ∧
      ofDigitsBE base (mulRows bs as i sum) =
        ofDigitsBE base sum + ofDigitsBE base as * ofDigitsBE base bs *
          base ^ (sum.length - i - as.length - bs.length) := by
  induction as generalizing i sum with
  | nil => simp [mulRows]
  | cons a as ih =>
    rw [length_cons] at h
    obtain ⟨hlen1, hval1⟩ := mulRow_spec a bs sum (i + 1) (by omega)
    obtain ⟨hlen, hval⟩ := ih (mulRow a bs (i + 1) sum) (i + 1) (by rw [hlen1]; omega)
    rw [hlen1] at hlen hval
    refine ⟨hlen, ?_⟩
    have hexp : sum.length - (i + 1) - bs.length =
        as.length + (sum.length - (i + 1) - as.length - bs.length) := by omega
    have hexp' : sum.length - i - (as.length + 1) - bs.length =
        sum.length - (i + 1) - as.length - bs.length := by omega
    rw [mulRows, hval, hval1, hexp, pow_add, ofDigitsBE_cons, length_cons, hexp']
    ring

/-- **Carrying** keeps the value, up to a carry out of the last cell. -/
theorem mulCarry_spec (carry : ℕ) (ds : List ℕ) :
    (mulCarry carry ds).length = ds.length ∧ (∀ d ∈ mulCarry carry ds, d < base) ∧
      ∃ rest, Nat.ofDigits base (mulCarry carry ds) + rest * base ^ ds.length =
        Nat.ofDigits base ds + carry := by
  induction ds generalizing carry with
  | nil => exact ⟨rfl, by simp [mulCarry], carry, by simp [mulCarry]⟩
  | cons d ds ih =>
    -- both branches keep the remainder and carry the quotient
    have hstep : mulCarry carry (d :: ds) =
        (d + carry) % base :: mulCarry ((d + carry) / base) ds := by
      rw [mulCarry]
      split_ifs with hge
      · rw [mul_comm, ← Nat.mod_eq_sub_mul_div]
      · rw [Nat.mod_eq_of_lt (by omega), Nat.div_eq_of_lt (by omega)]
    obtain ⟨hlen, hlt, rest, hval⟩ := ih ((d + carry) / base)
    rw [hstep]
    refine ⟨by simp [hlen], ?_, rest, ?_⟩
    · intro c hc
      rcases mem_cons.mp hc with rfl | hc
      · exact Nat.mod_lt _ (by decide)
      · exact hlt c hc
    · have hdiv := Nat.mod_add_div (d + carry) base
      rw [Nat.ofDigits_cons, Nat.ofDigits_cons, length_cons, pow_succ]
      linear_combination base * hval + hdiv

/-- The digits of the product. -/
theorem mulDigits_spec {xs ys : List ℕ} (hx : ∀ c ∈ xs, c < base) (hy : ∀ c ∈ ys, c < base) (n : ℕ)
    (hn : n = xs.length + ys.length) :
    ((mulCarry 0 (mulRows ys xs 0 (List.replicate n 0)).reverse).reverse).length = n ∧
      (∀ c ∈ (mulCarry 0 (mulRows ys xs 0 (List.replicate n 0)).reverse).reverse, c < base) ∧
      ofDigitsBE base (mulCarry 0 (mulRows ys xs 0 (List.replicate n 0)).reverse).reverse =
        ofDigitsBE base xs * ofDigitsBE base ys := by
  obtain ⟨hlen, hval⟩ := mulRows_spec ys xs (List.replicate n 0) 0
    (by rw [length_replicate]; omega)
  rw [length_replicate] at hlen hval
  rw [ofDigitsBE_replicate_zero, zero_add, show n - 0 - xs.length - ys.length = 0 by omega,
    pow_zero, mul_one] at hval
  obtain ⟨hlen', hlt, rest, hcarry⟩ :=
    mulCarry_spec 0 (mulRows ys xs 0 (List.replicate n 0)).reverse
  rw [length_reverse, hlen] at hlen' hcarry
  rw [add_zero] at hcarry
  -- the product has at most `n` digits, so nothing is carried out
  have hbound : ofDigitsBE base xs * ofDigitsBE base ys < base ^ n := by
    rw [hn, pow_add]
    exact Nat.mul_lt_mul'' (ofDigitsBE_lt (by decide) hx) (ofDigitsBE_lt (by decide) hy)
  rw [← hval, ofDigitsBE, ← hcarry] at hbound
  have hrest : rest = 0 := by
    by_contra hne
    have hmul := Nat.mul_le_mul_right (base ^ n) (Nat.one_le_iff_ne_zero.mpr hne)
    omega
  refine ⟨by rw [length_reverse, hlen'], fun c hc => hlt c (mem_reverse.mp hc), ?_⟩
  rw [hrest, zero_mul, add_zero] at hcarry
  rw [← hval, ofDigitsBE, reverse_reverse, hcarry]
  rfl

/-! ### Multiplication -/

/-- The sign of a product, and of a quotient. -/
theorem sign_mul_sign (s t : Sign) {m : ℚ} (hm : 0 < m) :
    (if s = t then Sign.positive else Sign.negative).toRat =
      (SignType.sign (s.toRat * t.toRat * m) : ℤ) := by
  cases s <;> cases t <;> simp [Sign.toRat, hm]

variable {v : ℚ} {x y : ObNumber}

theorem roundResult_exact {d : ObNumberDesc} {c : ℕ} {cs : List ℕ} {e : ℤ} (hv : InRange v)
    (hc : c ≠ 0) (hlt : ∀ a ∈ c :: cs, a < base) (hsign : d.sign.toRat = (SignType.sign v : ℤ))
    (habs : |v| = ofDigitsBE base (c :: cs) * (base : ℚ) ^ (e - cs.length)) :
    ∃ r, roundResult true
        (assignChecked
          (d.calcDescAndCheck e (((c :: cs).rdropWhile (· == 0)).take 9).length false)
          (((c :: cs).rdropWhile (· == 0)).take 9)) = .ok r ∧
      r.Canonical ∧ r.toRat = rounded v := by
  have hsplit := rdropWhile_append_zeros (c :: cs)
  have hne := rdropWhile_cons_ne_nil hc cs
  have hlast := getLast_rdropWhile_ne_zero hne
  have hnine : firstNine (((c :: cs).rdropWhile (· == 0)).take 9) = firstNine (c :: cs) := by
    rw [firstNine_take, firstNine_rdropWhile hne]
  have hw : (base : ℚ) ^ (e - cs.length) ≠ 0 := (zpow_pos base_pos _).ne'
  have hfloor : ⌊|v| / (base : ℚ) ^ (e - 8)⌋ = ofDigitsBE base (firstNine (c :: cs)) := by
    apply floor_firstNine (n := cs.length) (by simp) hlt
    · rw [habs, mul_div_cancel_right₀ _ hw]
      exact Int.floor_natCast _
    · exact fun _ => habs
  obtain ⟨c', js, hcons⟩ := exists_cons_of_ne_nil hne
  obtain rfl : c' = c := by
    rw [hcons, cons_append] at hsplit
    exact (List.cons.inj hsplit).1
  have htake : ((c' :: cs).rdropWhile (· == 0)).take 9 = c' :: js.take 8 := by
    rw [hcons, take_succ_cons]
  rw [← hnine, htake] at hfloor
  rw [htake]
  refine roundResult_assign hv hc ?_ ?_ ?_ hsign hfloor
  · intro a ha
    apply hlt
    rw [← hsplit, hcons]
    exact mem_append_left _ (mem_of_mem_take (by rw [take_succ_cons]; exact ha))
  · rw [length_cons, length_take]
    omega
  · -- less than nine digits: nothing was cut
    intro hlen
    rw [length_cons, length_take] at hlen
    have hjs : js.take 8 = js := take_of_length_le (by omega)
    simp only [hjs]
    simpa only [hcons] using hlast

theorem cases_digits {ds : List ℕ} {n : ℕ} (hlen : ds.length = n + 2) (hlt : ∀ a ∈ ds, a < base)
    (hlow : base ^ n ≤ ofDigitsBE base ds) :
    (∃ c cs, ds = c :: cs ∧ c ≠ 0) ∨ ∃ c cs, ds = 0 :: c :: cs ∧ c ≠ 0 := by
  obtain ⟨a, as, rfl⟩ := exists_cons_of_length_pos (show 0 < ds.length by omega)
  by_cases ha : a = 0
  · subst ha
    have hlen' : as.length = n + 1 := by simpa using hlen
    obtain ⟨c, cs, rfl⟩ := exists_cons_of_length_pos (show 0 < as.length by omega)
    refine .inr ⟨c, cs, rfl, ?_⟩
    rintro rfl
    have hcs : cs.length = n := by simpa using hlen'
    have hbound : ofDigitsBE base cs < base ^ n := by
      rw [← hcs]
      exact ofDigitsBE_lt (by decide) fun a ha =>
        hlt a (mem_cons_of_mem _ (mem_cons_of_mem _ ha))
    rw [ofDigitsBE_cons, ofDigitsBE_cons, zero_mul, zero_mul, zero_add, zero_add] at hlow
    omega
  · exact .inl ⟨a, as, rfl, ha⟩

/-- **The number of a product**, from its digits. -/
theorem mulResult_spec {ds : List ℕ} {n : ℕ} (hv : InRange v)
    (hsign : (if x.d.sign = y.d.sign then Sign.positive else Sign.negative).toRat =
      (SignType.sign v : ℤ))
    (hlen : ds.length = n + 2) (hlt : ∀ a ∈ ds, a < base) (hlow : base ^ n ≤ ofDigitsBE base ds)
    (habs : |v| = ofDigitsBE base ds * (base : ℚ) ^ (x.d.getDecodeExp + y.d.getDecodeExp - n)) :
    ∃ r, roundResult true (mulResult x y ds) = .ok r ∧ r.Canonical ∧ r.toRat = rounded v := by
  unfold mulResult
  simp only [show maxDecimalDigit = 9 from rfl, show calcBufferSize = 10 from rfl]
  rcases cases_digits hlen hlt hlow with ⟨c, cs, rfl, hc⟩ | ⟨c, cs, rfl, hc⟩
  · have hcs : cs.length = n + 1 := by simpa using hlen
    have hdigits : (((c :: cs).take 10).drop 0).take
        (min (((c :: cs).rdropWhile (· == 0)).length - 0) 9) =
          ((c :: cs).rdropWhile (· == 0)).take 9 := by
      have hprefix := rdropWhile_prefix (· == 0) (c :: cs)
      rw [drop_zero, Nat.sub_zero, take_take, Nat.min_eq_left (by omega), Nat.min_comm,
        ← take_take, ← prefix_iff_eq_take.mp hprefix]
    have hdigitsLen : min (((c :: cs).rdropWhile (· == 0)).length - 0) 9 =
        (((c :: cs).rdropWhile (· == 0)).take 9).length := by
      rw [length_take, Nat.sub_zero, Nat.min_comm]
    have hget : ((c :: cs).take 10).getD 0 0 = c := rfl
    simp only [hget, ne_eq, hc, not_false_eq_true, if_true]
    rw [hdigits, hdigitsLen]
    apply roundResult_exact hv hc hlt hsign
    rw [habs, hcs]
    congr 2
    push_cast
    ring
  · have hcs : cs.length = n := by simpa using hlen
    have hzero : ofDigitsBE base (0 :: c :: cs) = ofDigitsBE base (c :: cs) := by
      rw [ofDigitsBE_cons, zero_mul, zero_add]
    have hne := rdropWhile_cons_ne_nil hc cs
    have hdigits : (((0 :: c :: cs).take 10).drop 1).take
        (min (((0 :: c :: cs).rdropWhile (· == 0)).length - 1) 9) =
          ((c :: cs).rdropWhile (· == 0)).take 9 := by
      have hprefix := rdropWhile_prefix (· == 0) (c :: cs)
      rw [rdropWhile_cons_of_ne_nil 0 hne, length_cons, Nat.add_sub_cancel,
        take_succ_cons, drop_one, tail_cons, take_take,
        Nat.min_eq_left (by omega), Nat.min_comm,
        ← take_take, ← prefix_iff_eq_take.mp hprefix]
    have hdigitsLen : min (((0 :: c :: cs).rdropWhile (· == 0)).length - 1) 9 =
        (((c :: cs).rdropWhile (· == 0)).take 9).length := by
      rw [rdropWhile_cons_of_ne_nil 0 hne, length_cons, Nat.add_sub_cancel, length_take,
        Nat.min_comm]
    have hget : ((0 :: c :: cs).take 10).getD 0 0 = 0 := rfl
    simp only [hget, ne_eq, not_true_eq_false, if_false]
    rw [hdigits, hdigitsLen]
    apply roundResult_exact hv hc (fun a ha => hlt a (mem_cons_of_mem _ ha)) hsign
    rw [habs, hcs, hzero]

/-- **Multiplication** is correctly rounded. -/
theorem mulV3_rounded (hx : x.Canonical) (hy : y.Canonical) (hv : InRange (x.toRat * y.toRat)) :
    ∃ r, mulV3 true x y = .ok r ∧ r.Canonical ∧ r.toRat = rounded (x.toRat * y.toRat) := by
  have hne : x.toRat * y.toRat ≠ 0 := by
    intro hzero
    have hlow := hv.1
    rw [hzero, abs_zero] at hlow
    exact absurd hlow (not_le.mpr (by positivity))
  rcases hx.cases with ⟨-, hxval⟩ | hx
  · exact absurd (by rw [hxval, zero_mul]) hne
  rcases hy.cases with ⟨-, hyval⟩ | hy
  · exact absurd (by rw [hyval, mul_zero]) hne
  have hxlt : ∀ c ∈ x.used, c < base := fun c hc => hx.digit_lt hc
  have hylt : ∀ c ∈ y.used, c < base := fun c hc => hy.digit_lt hc
  have hxlen := hx.length_used
  have hylen := hy.length_used
  have hxpos := hx.len_pos
  have hypos := hy.len_pos
  unfold mulV3
  rw [if_neg (by rw [hx.isZero_eq, hy.isZero_eq]; simp)]
  dsimp only
  -- the order of the loops does not matter
  obtain ⟨ds, hds, hlen, hlt, hval⟩ : ∃ ds : List ℕ,
      (mulCarry 0 (if x.d.len > y.d.len then
          mulRows (x.digits.take x.d.len) (y.digits.take y.d.len) 0
            (List.replicate (y.d.len + x.d.len) 0)
        else mulRows (y.digits.take y.d.len) (x.digits.take x.d.len) 0
          (List.replicate (y.d.len + x.d.len) 0)).reverse).reverse = ds ∧
      ds.length = x.d.len - 1 + (y.d.len - 1) + 2 ∧ (∀ a ∈ ds, a < base) ∧
      ofDigitsBE base ds = ofDigitsBE base x.used * ofDigitsBE base y.used := by
    refine ⟨_, rfl, ?_⟩
    split_ifs
    · obtain ⟨h1, h2, h3⟩ := mulDigits_spec hylt hxlt (y.d.len + x.d.len) (by omega)
      exact ⟨by rw [used, used] at h1; omega, h2, by rw [mul_comm]; exact h3⟩
    · obtain ⟨h1, h2, h3⟩ := mulDigits_spec hxlt hylt (y.d.len + x.d.len) (by omega)
      exact ⟨by rw [used, used] at h1; omega, h2, h3⟩
  rw [hds]
  have hmul : x.toRat * y.toRat =
      x.d.sign.toRat * y.d.sign.toRat * (x.magnitude * y.magnitude) := by
    rw [toRat_eq, toRat_eq]
    ring
  have hmpos : 0 < x.magnitude * y.magnitude := mul_pos hx.magnitude_pos hy.magnitude_pos
  refine mulResult_spec hv (by rw [hmul]; exact sign_mul_sign _ _ hmpos) hlen hlt ?_ ?_
  · rw [hval, pow_add]
    exact Nat.mul_le_mul hx.pow_le hy.pow_le
  · rw [abs_mul, abs_toRat hx, abs_toRat hy, hval, magnitude, magnitude]
    push_cast
    rw [mul_mul_mul_comm, ← zpow_add₀ base_pos.ne']
    congr 2
    omega

/-! ### Division -/

/-- **The number of a quotient**, from its ten digits. -/
theorem divResult_spec {q : List ℤ} (hv : InRange v)
    (hsign : (if x.d.sign = y.d.sign then Sign.positive else Sign.negative).toRat =
      (SignType.sign v : ℤ))
    (hlen : q.length = 10) (hq : IsDigits base q) (hlow : (base : ℤ) ^ 8 ≤ evalLE base q)
    (hfloor : ⌊|v| / (base : ℚ) ^ (x.d.getDecodeExp - y.d.getDecodeExp - 9)⌋ = evalLE base q) :
    ∃ r, roundResult true (divResult x y q) = .ok r ∧ r.Canonical ∧ r.toRat = rounded v := by
  obtain ⟨hlt, hdslen, hval⟩ := exists_digits hq
  unfold divResult
  simp only [show maxDecimalDigit = 9 from rfl]
  generalize q.reverse.map Int.toNat = ds at hlt hdslen hval
  rw [hlen] at hdslen ⊢
  rw [← hval] at hfloor hlow
  have hlow' : base ^ 8 ≤ ofDigitsBE base ds := by exact_mod_cast hlow
  -- the leading digits `c :: cs`, of which nine are kept
  obtain ⟨c, cs, off, hoff, hdrop, hc, hlt', hcslen, hval'⟩ : ∃ (c : ℕ) (cs : List ℕ) (off : ℕ),
      (ds.takeWhile (· == 0)).length = off ∧ ds.drop off = c :: cs ∧ c ≠ 0 ∧
      (∀ a ∈ c :: cs, a < base) ∧ cs.length + off = 9 ∧
      ofDigitsBE base ds = ofDigitsBE base (c :: cs) ∧ off ≤ 1 := by
    rcases cases_digits hdslen hlt hlow' with ⟨c, cs, rfl, hc⟩ | ⟨c, cs, rfl, hc⟩
    · refine ⟨c, cs, 0, ?_, rfl, hc, hlt, by simpa using hdslen, rfl, by decide⟩
      simp [hc]
    · refine ⟨c, cs, 1, ?_, rfl, hc, fun a ha => hlt a (mem_cons_of_mem _ ha),
        by simpa using hdslen, ?_, le_refl 1⟩
      · simp [hc]
      · rw [ofDigitsBE_cons, zero_mul, zero_add]
  simp only [hoff, hdrop, show min (10 - off) 9 = 9 by omega]
  rw [hval'.1] at hfloor
  set e := x.d.getDecodeExp - y.d.getDecodeExp - off with he
  have hfirst : ⌊|v| / (base : ℚ) ^ (e - 8)⌋ = ofDigitsBE base (firstNine (c :: cs)) := by
    apply floor_firstNine (n := cs.length) (by simp) hlt'
    · rw [he, ← hfloor]
      congr 3
      omega
    · intro hn
      omega
  have htake : (c :: cs).take 9 = c :: cs.take 8 := take_succ_cons
  have hne : ((c :: cs).take 9).rdropWhile (· == 0) ≠ [] := by
    rw [htake]
    exact rdropWhile_cons_ne_nil hc _
  have hnine : firstNine (((c :: cs).take 9).rdropWhile (· == 0)) = firstNine (c :: cs) := by
    rw [firstNine_rdropWhile hne, firstNine_take]
  have hlast := getLast_rdropWhile_ne_zero hne
  have hsplit := rdropWhile_append_zeros ((c :: cs).take 9)
  have hlength := congrArg List.length hsplit
  rw [length_append, length_take] at hlength
  obtain ⟨c', js, hcons⟩ := exists_cons_of_ne_nil hne
  have hc' : c' = c := by
    rw [hcons, htake, cons_append] at hsplit
    exact (List.cons.inj hsplit).1
  rw [← hnine, hcons] at hfirst
  have hjs : ∀ a ∈ c' :: js, a < base := by
    intro a ha
    apply hlt'
    rw [← hcons] at ha
    exact mem_of_mem_take (by rw [← hsplit]; exact mem_append_left _ ha)
  rw [hcons] at hlength ⊢
  refine roundResult_assign hv (hc' ▸ hc) hjs (by omega) (fun _ => ?_) hsign hfirst
  simpa only [hcons] using hlast

/-- **Division** is correctly rounded, and stays inside of its arrays. -/
theorem divV3_rounded (hx : x.Canonical) (hy : y.Canonical) (hy0 : y.toRat ≠ 0)
    (hv : InRange (x.toRat / y.toRat)) :
    ∃ r, divV3 maxDecimalDigit true x y = some (.ok r) ∧ r.Canonical ∧
      r.toRat = rounded (x.toRat / y.toRat) := by
  have hne : x.toRat / y.toRat ≠ 0 := by
    intro hzero
    have hlow := hv.1
    rw [hzero, abs_zero] at hlow
    exact absurd hlow (not_le.mpr (by positivity))
  rcases hx.cases with ⟨-, hxval⟩ | hx
  · exact absurd (by rw [hxval, zero_div]) hne
  rcases hy.cases with ⟨-, hyval⟩ | hy
  · exact absurd hyval hy0
  have hxpos := hx.len_pos
  have hypos := hy.len_pos
  have hxlen : x.d.len ≤ 9 := hx.len_le
  have hylen : y.d.len ≤ 9 := hy.len_le
  -- the dividend has nine digits more than the divisor
  obtain ⟨n, hn⟩ : ∃ n, x.d.len + n = y.d.len + 9 := ⟨y.d.len + 9 - x.d.len, by omega⟩
  obtain ⟨as, hfromx, haslen, has, hasval⟩ :=
    hx.fromDigits_spec n (by unfold remBufferSize; omega)
  obtain ⟨bs, hfromy, hbslen, hbs, hbsval⟩ :=
    hy.fromDigits_spec 0 (by unfold remBufferSize; omega)
  obtain ⟨q, hdiv, hqlen, hq, hqval⟩ :=
    ObDivArray.knuthDivV2_spec hbs has.digits (by omega) (by unfold remBufferSize; omega)
  rw [haslen, hbslen] at hqlen
  have hqlen' : q.length = 10 := by omega
  rw [hasval, hbsval, pow_zero, mul_one] at hqval
  have hypos' : 0 < ofDigitsBE base y.used := hy.pos
  have hqnat : evalLE base q =
      ((ofDigitsBE base x.used * base ^ n / ofDigitsBE base y.used : ℕ) : ℤ) := by
    rw [hqval, Int.natCast_div]
  have hlow : base ^ 8 ≤ ofDigitsBE base x.used * base ^ n / ofDigitsBE base y.used := by
    rw [Nat.le_div_iff_mul_le hypos']
    calc base ^ 8 * ofDigitsBE base y.used ≤ base ^ 8 * base ^ y.d.len :=
          Nat.mul_le_mul_left _ hy.lt_pow.le
      _ = base ^ (x.d.len - 1) * base ^ n := by
        rw [← pow_add, ← pow_add]
        congr 1
        omega
      _ ≤ ofDigitsBE base x.used * base ^ n := Nat.mul_le_mul_right _ hx.pow_le
  have hqne : ObDivArray.isZero q = false := by
    rw [← Bool.not_eq_true, isZero_iff hq, hqnat]
    have hpow : 0 < base ^ 8 := by decide
    norm_cast
    omega
  have heq : divV3 maxDecimalDigit true x y = some (roundResult true (divResult x y q)) := by
    have hextend : min (y.d.len + maxDecimalDigit) divBufferSize = x.d.len - 1 + n + 1 := by
      simp only [show maxDecimalDigit = 9 from rfl, show divBufferSize = 20 from rfl]
      omega
    have hsize : y.d.len - 1 + 0 + 1 = y.d.len := by omega
    rw [hsize] at hfromy
    simp [divV3, hx.isZero_eq, hy.isZero_eq, hextend, hfromx, hfromy, hdiv, hqne]
  rw [heq]
  have hquot : x.toRat / y.toRat =
      x.d.sign.toRat * y.d.sign.toRat * (x.magnitude / y.magnitude) := by
    rw [toRat_eq, toRat_eq]
    cases x.d.sign <;> cases y.d.sign <;> simp [Sign.toRat, neg_div, div_neg]
  have hmpos : 0 < x.magnitude / y.magnitude := div_pos hx.magnitude_pos hy.magnitude_pos
  have hw : (0 : ℚ) < (base : ℚ) ^ (x.d.getDecodeExp - y.d.getDecodeExp - 9) :=
    zpow_pos base_pos _
  have hratio : |x.toRat / y.toRat| / (base : ℚ) ^ (x.d.getDecodeExp - y.d.getDecodeExp - 9) =
      ((ofDigitsBE base x.used * base ^ n : ℕ) : ℚ) / ((ofDigitsBE base y.used : ℕ) : ℚ) := by
    have hyq : ((ofDigitsBE base y.used : ℕ) : ℚ) ≠ 0 := by exact_mod_cast hypos'.ne'
    have hpow : (base : ℚ) ^ (x.d.getDecodeExp - x.d.len + 1) =
        (base : ℚ) ^ (y.d.getDecodeExp - y.d.len + 1) *
          ((base : ℚ) ^ (x.d.getDecodeExp - y.d.getDecodeExp - 9) * (base : ℚ) ^ n) := by
      rw [← zpow_natCast, ← zpow_add₀ base_pos.ne', ← zpow_add₀ base_pos.ne']
      congr 1
      omega
    have hunit : (base : ℚ) ^ (y.d.getDecodeExp - y.d.len + 1) ≠ 0 := (zpow_pos base_pos _).ne'
    rw [abs_div, abs_toRat hx, abs_toRat hy, magnitude, magnitude, hpow]
    push_cast
    field_simp
  obtain ⟨r, hr⟩ := divResult_spec (x := x) (y := y) (q := q) hv
    (by rw [hquot]; exact sign_mul_sign _ _ hmpos) hqlen' hq (by rw [hqnat]; exact_mod_cast hlow)
    (by
      rw [hratio, hqnat, Int.floor_div_natCast, Int.floor_natCast]
      push_cast
      rfl)
  exact ⟨r, by rw [hr.1], hr.2⟩

/-! ### The three operations -/

/-- **Addition of numbers of one sign, multiplication and division are correctly rounded**, if the
exact result is in range.  The operands can have more than 72 digits. -/
theorem arithmetic_rounded {x y : ObNumber} (hx : x.Canonical) (hy : y.Canonical) :
    (0 ≤ x.toRat * y.toRat → InRange (x.toRat + y.toRat) →
      ∃ r, addV3 true x y = .ok r ∧ r.Canonical ∧ r.toRat = rounded (x.toRat + y.toRat)) ∧
    (InRange (x.toRat * y.toRat) →
      ∃ r, mulV3 true x y = .ok r ∧ r.Canonical ∧ r.toRat = rounded (x.toRat * y.toRat)) ∧
    (y.toRat ≠ 0 → InRange (x.toRat / y.toRat) →
      ∃ r, divV3 maxDecimalDigit true x y = some (.ok r) ∧ r.Canonical ∧
        r.toRat = rounded (x.toRat / y.toRat)) :=
  ⟨addV3_same_sign hx hy, mulV3_rounded hx hy, divV3_rounded hx hy⟩

/-- The number 3. -/
def three : ObNumber := ⟨{ len := 1, exp := 64, sign := .positive }, [3]⟩

theorem normal_three : three.Normal where
  len_pos := by decide
  len_le := by decide
  buffer := by decide
  digit_lt := by simp [used, three, base]
  first := by decide
  exp_lt := by decide
  exp_range := by decide
  last := by decide

theorem toRat_two : two.toRat = 2 := by
  rw [toRat, show two.used = [2] from rfl, show two.d.getDecodeExp = 0 by decide]
  norm_num [two, Sign.toRat]

theorem toRat_three : three.toRat = 3 := by
  rw [toRat, show three.used = [3] from rfl, show three.d.getDecodeExp = 0 by decide]
  norm_num [three, Sign.toRat]

theorem arithmetic_rounded_two_three :
    (∃ r, addV3 true two three = .ok r ∧ r.Canonical ∧ r.toRat = rounded 5) ∧
    (∃ r, mulV3 true two three = .ok r ∧ r.Canonical ∧ r.toRat = rounded 6) ∧
    (∃ r, divV3 maxDecimalDigit true two three = some (.ok r) ∧ r.Canonical ∧
      r.toRat = rounded (2 / 3)) := by
  obtain ⟨hadd, hmul, hdiv⟩ := arithmetic_rounded (.inr normal_two) (.inr normal_three)
  rw [toRat_two, toRat_three] at hadd hmul hdiv
  norm_num at hadd hmul
  refine ⟨hadd ?_, hmul ?_, hdiv (by norm_num) ?_⟩ <;>
    · constructor <;> norm_num [abs_of_pos]

/-- **How the operations compose**, within the range: sums and products do not depend on the order of
the operands, digit for digit, and division undoes a multiplication that was exact. -/
theorem arithmetic_composes {x y : ObNumber} (hx : x.Canonical) (hy : y.Canonical) :
    (0 ≤ x.toRat * y.toRat → InRange (x.toRat + y.toRat) →
      ∃ r r', addV3 true x y = .ok r ∧ addV3 true y x = .ok r' ∧ isEqual r r' = true) ∧
    (InRange (x.toRat * y.toRat) →
      ∃ r r', mulV3 true x y = .ok r ∧ mulV3 true y x = .ok r' ∧ isEqual r r' = true) ∧
    (InRange (x.toRat * y.toRat) → InRange x.toRat → rounded x.toRat = x.toRat →
      rounded (x.toRat * y.toRat) = x.toRat * y.toRat → y.toRat ≠ 0 →
      ∃ p r, mulV3 true x y = .ok p ∧ divV3 maxDecimalDigit true p y = some (.ok r) ∧
        isEqual r x = true) := by
  refine ⟨fun hsame hv => ?_, fun hv => ?_, fun hv hvx hxr hexact hy0 => ?_⟩
  · obtain ⟨r, hr, hc, hval⟩ := addV3_same_sign hx hy hsame hv
    obtain ⟨r', hr', hc', hval'⟩ :=
      addV3_same_sign hy hx (by rwa [mul_comm]) (by rwa [add_comm])
    exact ⟨r, r', hr, hr', hc.isEqual hc' (by rw [hval, hval', add_comm])⟩
  · obtain ⟨r, hr, hc, hval⟩ := mulV3_rounded hx hy hv
    obtain ⟨r', hr', hc', hval'⟩ := mulV3_rounded hy hx (by rwa [mul_comm])
    exact ⟨r, r', hr, hr', hc.isEqual hc' (by rw [hval, hval', mul_comm])⟩
  · obtain ⟨p, hp, hpc, hpval⟩ := mulV3_rounded hx hy hv
    have hquot : p.toRat / y.toRat = x.toRat := by rw [hpval, hexact, mul_div_cancel_right₀ _ hy0]
    obtain ⟨r, hr, hc, hval⟩ := divV3_rounded hpc hy hy0 (by rwa [hquot])
    exact ⟨p, r, hp, hr, hc.isEqual hx (by rw [hval, hquot, hxr])⟩

/-- One digit needs no rounding. -/
theorem rounded_digit {d : ℕ} (hpos : 1 ≤ d) (hlt : d < 10) : rounded d = d := by
  have hunit : roundingUnit d = 10 ^ (-71 : ℤ) := by
    rw [roundingUnit, Nat.abs_cast, if_pos (by exact_mod_cast hpos), Int.log_natCast,
      Nat.log_of_lt hlt]
    rfl
  rw [rounded, hunit]
  exact roundHalfAway_of_eq_mul (n := d * 10 ^ 71) (by positivity) (by norm_num [mul_assoc])

theorem arithmetic_composes_two_three :
    (∃ r r', addV3 true two three = .ok r ∧ addV3 true three two = .ok r' ∧
      isEqual r r' = true) ∧
    (∃ r r', mulV3 true two three = .ok r ∧ mulV3 true three two = .ok r' ∧
      isEqual r r' = true) ∧
    ∃ p r, mulV3 true two three = .ok p ∧ divV3 maxDecimalDigit true p three = some (.ok r) ∧
      isEqual r two = true := by
  obtain ⟨hadd, hmul, hdiv⟩ := arithmetic_composes (.inr normal_two) (.inr normal_three)
  rw [toRat_two, toRat_three] at hadd hmul hdiv
  have hsum : InRange (2 + 3) := by constructor <;> norm_num [abs_of_pos]
  have hprod : InRange (2 * 3) := by constructor <;> norm_num [abs_of_pos]
  have htwo : InRange 2 := by constructor <;> norm_num [abs_of_pos]
  have hsix : rounded (2 * 3) = 2 * 3 := by
    have h := rounded_digit (d := 6) (by decide) (by decide)
    norm_num at h ⊢
    exact h
  exact ⟨hadd (by norm_num) hsum, hmul hprod,
    hdiv hprod htwo (rounded_digit (d := 2) (by decide) (by decide)) hsix (by norm_num)⟩

/-- Two thirds have eight digits, the last one rounded up. -/
example :
    divV3 maxDecimalDigit true two three =
      some (.ok ⟨{ len := 8, exp := 63, sign := .positive },
        List.replicate 7 666666666 ++ [666666667, 1000000000]⟩) := by rfl

end Andl.Number.ObNumber
