import Andl.Lib.Rounding
import Andl.Number.Arith
import Andl.Number.Equiv.Desc

/-!
# Rounding in one digit
-/

namespace Andl.Number

open List

namespace ObNumber

/-- The digits of a number in normal form, with any exponent. -/
structure Trimmed (x : ObNumber) : Prop where
  len_pos : 0 < x.d.len
  len_le : x.d.len ≤ maxStoreLen
  buffer : x.d.len ≤ x.digits.length
  digit_lt {c : ℕ} : c ∈ x.used → c < base
  first : x.digits.getD 0 0 ≠ 0
  last : x.digits.getD (x.d.len - 1) 0 ≠ 0
  exp_lt : x.d.exp < 128

theorem Trimmed.normal {x : ObNumber} (h : x.Trimmed)
    (hrange : -15 ≤ x.d.getDecodeExp ∧ x.d.getDecodeExp ≤ 14) : x.Normal where
  len_pos := h.len_pos
  len_le := h.len_le
  buffer := h.buffer
  digit_lt := h.digit_lt
  first := h.first
  last := h.last
  exp_lt := h.exp_lt
  exp_range := hrange

/-- Digits without a zero at either end. -/
theorem trimmed_mk {d : ObNumberDesc} (js tail : List ℕ) (hlen : d.len = js.length)
    (hpos : 0 < js.length) (hle : js.length ≤ 9) (hlt : ∀ c ∈ js, c < base)
    (hfirst : js.getD 0 0 ≠ 0) (hlast : js.getD (js.length - 1) 0 ≠ 0) (hexp : d.exp < 128) :
    Trimmed ⟨d, js ++ tail⟩ where
  len_pos := hlen ▸ hpos
  len_le := hlen ▸ hle
  buffer := by simp [hlen]
  digit_lt := by
    rw [used_mk hlen]
    exact fun hc => hlt _ hc
  first := by rwa [getD_append _ _ _ _ hpos]
  last := by rwa [last_mk hlen hpos]
  exp_lt := hexp

/-- The exponent and sign of a number that is rounded up to a power of the base. -/
def carryDesc (d : ObNumberDesc) : ObNumberDesc :=
  if d.sign = .negative then d.decExp else d.incExp

/-- The number that becomes of one with the descriptor `d`, when its `k` first digits, read as one
integer, are rounded to `n`. -/
inductive RoundOutcome (d : ObNumberDesc) (k n : ℕ) (r : ObNumber) : Prop
  | zero (hn : n = 0) (hr : r.d = { len := 0, exp := 0, sign := .positive })
  | keep (hn : n < base ^ k) (htrim : r.Trimmed) (hr : r.d = { d with len := r.d.len })
      (hlen : r.d.len ≤ k) (hval : n = ofDigitsBE base r.used * base ^ (k - r.d.len))
  | carry (hn : n = base ^ k) (htrim : r.Trimmed) (hr : r.d = { carryDesc d with len := 1 })
      (hused : r.used = [1])

variable {k n : ℕ} {r : ObNumber}

/-- The length before rounding does not matter. -/
theorem RoundOutcome.congr_len {d : ObNumberDesc} {len : ℕ}
    (h : RoundOutcome { d with len := len } k n r) : RoundOutcome d k n r := by
  rcases h with ⟨hn, hr⟩ | ⟨hn, htrim, hr, hlen, hval⟩ | ⟨hn, htrim, hr, hused⟩
  · exact .zero hn hr
  · exact .keep hn htrim hr hlen hval
  · refine .carry hn htrim (hr.trans ?_) hused
    unfold carryDesc
    split <;> rfl

theorem roundOutcome_mk {d d' : ObNumberDesc} (js tail : List ℕ) {m : ℕ}
    (hd : d' = { d with len := js.length }) (hk : k = js.length + m) (hpos : 0 < js.length)
    (hle : js.length ≤ 9) (hlt : ∀ c ∈ js, c < base) (hfirst : js.getD 0 0 ≠ 0)
    (hlast : js.getD (js.length - 1) 0 ≠ 0) (hexp : d.exp < 128) :
    RoundOutcome d k (ofDigitsBE base js * base ^ m) ⟨d', js ++ tail⟩ := by
  have hlen : d'.len = js.length := by rw [hd]
  refine .keep ?_ (trimmed_mk js tail hlen hpos hle hlt hfirst hlast (hd ▸ hexp)) ?_ ?_ ?_
  · rw [hk, pow_add]
    exact Nat.mul_lt_mul_of_pos_right (ofDigitsBE_lt (by decide) hlt) (Nat.pow_pos (by decide))
  · show d' = { d with len := d'.len }
    rw [hd]
  · show d'.len ≤ k
    omega
  · rw [used_mk hlen]
    show _ = _ * base ^ (k - d'.len)
    rw [hlen, hk, Nat.add_sub_cancel_left]

/-- The carry goes to the last digit that is not the largest one. -/
theorem carryUp_append (as bs : List ℕ) :
    (∃ ps c j, as = ps ++ c :: List.replicate j (base - 1) ∧ c ≠ base - 1 ∧
      carryUp (as ++ bs) as.length =
        some (ps.length, ps ++ (c + 1) :: List.replicate j (base - 1) ++ bs)) ∨
    (as = List.replicate as.length (base - 1) ∧ carryUp (as ++ bs) as.length = none) := by
  induction as using List.reverseRecOn generalizing bs with
  | nil => exact .inr ⟨rfl, rfl⟩
  | append_singleton as a ih =>
    have hget : (as ++ [a] ++ bs).getD as.length 0 = a := by simp
    have hset (v : ℕ) : (as ++ [a] ++ bs).set as.length v = as ++ v :: bs := by simp
    rw [length_append, length_singleton, carryUp, hget, hset]
    by_cases ha : a = base - 1
    · rw [if_pos ha, append_assoc]
      rcases ih ([a] ++ bs) with ⟨ps, c, j, has, hc, hcarry⟩ | ⟨has, hcarry⟩
      · refine .inl ⟨ps, c, j + 1, ?_, hc, ?_⟩
        · rw [ha, has, replicate_succ']
          simp
        · rw [hcarry, ha, replicate_succ']
          simp
      · refine .inr ⟨?_, hcarry⟩
        rw [replicate_succ', ← has, ha]
    · rw [if_neg ha]
      exact .inl ⟨as, a, 0, by simp, ha, by simp⟩

/-- The digits `as` and `a` of a number that is to be rounded to a multiple of `p` in the digit `a`.
-/
structure RoundedDigit (d : ObNumberDesc) (as : List ℕ) (a powId p : ℕ) : Prop where
  length_le : as.length ≤ 8
  digit_lt : ∀ c ∈ as ++ [a], c < base
  first : (as ++ [a]).getD 0 0 ≠ 0
  pow_eq : roundPows.getD powId 0 = p
  pow_pos : 0 < p
  pow_even : Even p
  pow_dvd : p ∣ base
  len_eq : d.len = as.length + 1 ∨ d.len = as.length ∧ p = base
  exp_lt : d.exp < 128

namespace RoundedDigit

variable {d : ObNumberDesc} {as : List ℕ} {a powId p : ℕ}

section

variable (h : RoundedDigit d as a powId p)
include h

theorem init_lt : ∀ c ∈ as, c < base :=
  fun c hc => h.digit_lt c (mem_append_left _ hc)

theorem last_lt : a < base := h.digit_lt a (by simp)

theorem init_first (hne : as ≠ []) : as.getD 0 0 ≠ 0 := by
  have hfirst := h.first
  rwa [getD_append _ _ _ _ (length_pos_iff.mpr hne)] at hfirst

theorem mod_eq : ofDigitsBE base (as ++ [a]) % p = a % p := by
  obtain ⟨k, hk⟩ := h.pow_dvd
  rw [ofDigitsBE_append, ofDigitsBE_singleton, length_singleton, pow_one, hk, mul_comm p,
    ← mul_assoc, Nat.mul_add_mod']

/-- The digit becomes `v`, and stays below the base. -/
theorem outcome_set (rest : List ℕ) {v : ℕ} (hv : v ≠ 0)
    (hlt : v < base) (hlen : d.len = as.length + 1) :
    RoundOutcome d (as.length + 1) (ofDigitsBE base as * base + v) ⟨d, as ++ v :: rest⟩ := by
  have hlast : (as ++ [v]).getD ((as ++ [v]).length - 1) 0 ≠ 0 := by simpa using hv
  have hfirst : (as ++ [v]).getD 0 0 ≠ 0 := by
    rcases as.eq_nil_or_concat with rfl | ⟨_, _, hcons⟩
    · simpa using hv
    · have hne : as ≠ [] := by simp [hcons]
      rw [getD_append _ _ _ _ (length_pos_iff.mpr hne)]
      exact h.init_first hne
  have hdigit : ∀ c ∈ as ++ [v], c < base := by
    intro c hc
    rcases mem_append.mp hc with hc | hc
    · exact h.init_lt c hc
    · rw [mem_singleton.mp hc]
      exact hlt
  have hle := h.length_le
  have hlenv : (as ++ [v]).length = as.length + 1 := by simp
  have hres := roundOutcome_mk (d := d) (m := 0) (as ++ [v]) rest rfl rfl (by simp)
    (by omega) hdigit hfirst hlast h.exp_lt
  rw [ofDigitsBE_append, ofDigitsBE_singleton, length_singleton, pow_one, pow_zero, mul_one,
    append_assoc, singleton_append, hlenv, Nat.add_zero, ← hlen] at hres
  rw [← hlen]
  exact hres

theorem outcome_strip (rest : List ℕ) :
    RoundOutcome d (as.length + 1) (ofDigitsBE base as * base)
      (let len := (((as ++ 0 :: rest).take d.len).rdropWhile (· == 0)).length
      if len = 0 then setZero ⟨d, as ++ 0 :: rest⟩
      else ⟨{ d with len := len }, as ++ 0 :: rest⟩) := by
  have htake : ((as ++ 0 :: rest).take d.len).rdropWhile (· == 0) = as.rdropWhile (· == 0) := by
    rcases h.len_eq with hlen | ⟨hlen, -⟩
    · have hcut : (as ++ 0 :: rest).take (as.length + 1) = as ++ [0] := by
        rw [take_append, take_of_length_le (by omega), Nat.add_sub_cancel_left]
        rfl
      rw [hlen, hcut, rdropWhile_concat_pos _ _ _ (by rfl)]
    · rw [hlen, take_left]
  rw [htake]
  rcases as.eq_nil_or_concat with rfl | ⟨_, _, hcons⟩
  · exact .zero (by simp) rfl
  have hasne : as ≠ [] := by simp [hcons]
  have hsplit := rdropWhile_append_zeros as
  generalize hn : (as.rtakeWhile (· == 0)).length = n at hsplit
  have hne : as.rdropWhile (· == 0) ≠ [] := by
    intro hnil
    have hfirst := h.init_first hasne
    rw [← hsplit, hnil, nil_append] at hfirst
    simp at hfirst
  have hlast := getLast_rdropWhile_ne_zero hne
  generalize as.rdropWhile (· == 0) = js at hsplit hne hlast
  have hpos : 0 < js.length := length_pos_iff.mpr hne
  have hparts : js.length + n = as.length := by
    rw [← hsplit, length_append, length_replicate]
  have hle := h.length_le
  have hlt : ∀ c ∈ js, c < base := by
    intro c hc
    apply h.init_lt
    rw [← hsplit]
    exact mem_append_left _ hc
  have hfirst : js.getD 0 0 ≠ 0 := by
    have hfirst := h.init_first hasne
    rwa [← hsplit, getD_append _ _ _ _ hpos] at hfirst
  have hlast' : js.getD (js.length - 1) 0 ≠ 0 := by
    rw [getD_eq_getElem _ _ (by omega)]
    rwa [getLast_eq_getElem] at hlast
  have hres := roundOutcome_mk (d := d) (m := n + 1) js (List.replicate n 0 ++ 0 :: rest) rfl
    (show as.length + 1 = js.length + (n + 1) by omega) hpos (by omega) hlt hfirst hlast' h.exp_lt
  rw [← append_assoc, hsplit] at hres
  have hval : ofDigitsBE base as * base = ofDigitsBE base js * base ^ (n + 1) := by
    rw [← hsplit, ofDigitsBE_append, ofDigitsBE_replicate_zero, length_replicate, add_zero,
      mul_assoc, ← pow_succ]
  dsimp only
  rw [hval, if_neg hpos.ne']
  exact hres

end

/-- All digits before were the largest one. -/
theorem outcome_one (rest : List ℕ) (hall : as = List.replicate as.length (base - 1)) :
    RoundOutcome d (as.length + 1) ((ofDigitsBE base as + 1) * base)
      ⟨{ carryDesc d with len := 1 }, (as ++ base :: rest).set 0 1⟩ := by
  obtain ⟨tail, hcells⟩ : ∃ tail, (as ++ base :: rest).set 0 1 = [1] ++ tail := by
    rcases as with _ | ⟨c, cs⟩
    · exact ⟨rest, rfl⟩
    · exact ⟨cs ++ base :: rest, rfl⟩
  have hexp : (carryDesc d).exp < 128 := by
    unfold carryDesc
    split
    · exact d.decExp_exp_lt
    · exact d.incExp_exp_lt
  rw [hcells]
  refine .carry ?_ (trimmed_mk [1] tail rfl (by decide) (by decide) (by decide) (by decide)
    (by decide) hexp) rfl (used_mk rfl)
  have hnines := ofDigitsBE_replicate_pred (b := base) (by decide) as.length
  rw [← hall] at hnines
  rw [hnines, ← pow_succ]

/-- The carry out of the digit. -/
theorem outcome_carry (h : RoundedDigit d as a powId p) (rest : List ℕ) :
    RoundOutcome d (as.length + 1) ((ofDigitsBE base as + 1) * base)
      (carryInto d (as ++ base :: rest) as.length) := by
  unfold carryInto
  rcases carryUp_append as (base :: rest) with ⟨ps, c, j, has, hc, hcarry⟩ | ⟨hall, hcarry⟩
  · simp only [hcarry]
    have hparts : ps.length + (j + 1) = as.length := by
      rw [has, length_append, length_cons, length_replicate]
    have hle := h.length_le
    have hclt : c < base := h.init_lt c (by simp [has])
    have hlt : ∀ v ∈ ps ++ [c + 1], v < base := by
      intro v hv
      rcases mem_append.mp hv with hv | hv
      · exact h.init_lt v (by rw [has]; exact mem_append_left _ hv)
      · rw [mem_singleton.mp hv]
        omega
    have hfirst : (ps ++ [c + 1]).getD 0 0 ≠ 0 := by
      have hfirst := h.first
      cases ps with
      | nil => simp
      | cons q ps =>
        rw [has] at hfirst
        simpa using hfirst
    have hlen : (ps ++ [c + 1]).length = ps.length + 1 := by simp
    have hres := roundOutcome_mk (d := d) (m := j + 1) (ps ++ [c + 1])
      (List.replicate j (base - 1) ++ base :: rest) rfl
      (show as.length + 1 = (ps ++ [c + 1]).length + (j + 1) by omega) (by simp)
      (by omega) hlt hfirst (by simp) h.exp_lt
    have hcells : ps ++ [c + 1] ++ (List.replicate j (base - 1) ++ base :: rest) =
        ps ++ (c + 1) :: List.replicate j (base - 1) ++ base :: rest := by simp
    have hval : (ofDigitsBE base as + 1) * base =
        ofDigitsBE base (ps ++ [c + 1]) * base ^ (j + 1) := by
      have hadd := ofDigitsBE_carry (b := base) (by decide) ps c j
      rw [← has] at hadd
      rw [← hadd, show ps ++ (c + 1) :: List.replicate j 0 = ps ++ [c + 1] ++ List.replicate j 0 by
        simp, ofDigitsBE_append _ (ps ++ [c + 1]), ofDigitsBE_replicate_zero, length_replicate,
        add_zero, mul_assoc, ← pow_succ]
    rw [hval, ← hcells, ← hlen]
    exact hres
  · simp only [hcarry]
    exact outcome_one rest hall

theorem add_sub_mod_le (h : RoundedDigit d as a powId p) : a + (p - a % p) ≤ base := by
  obtain ⟨k, hk⟩ := h.pow_dvd
  have hdiv := Nat.div_add_mod a p
  have hmodlt := Nat.mod_lt a h.pow_pos
  have hlt : a / p < k := by
    rw [Nat.div_lt_iff_lt_mul h.pow_pos, mul_comm, ← hk]
    exact h.last_lt
  have hmul := Nat.mul_le_mul_left p (show a / p + 1 ≤ k from hlt)
  rw [Nat.mul_add, mul_one, ← hk] at hmul
  omega

/-- **Rounding a digit** half up. -/
theorem outcome (h : RoundedDigit d as a powId p) (rest : List ℕ) :
    RoundOutcome d (as.length + 1) ((ofDigitsBE base (as ++ [a]) + p / 2) / p * p)
      (roundDigit ⟨d, as ++ a :: rest⟩ as.length powId) := by
  have hget : (as ++ a :: rest).getD as.length 0 = a := by simp
  have hset (v : ℕ) : (as ++ a :: rest).set as.length v = as ++ v :: rest := by simp
  have hmodlt := Nat.mod_lt a h.pow_pos
  have hmodle := Nat.mod_le a p
  have hlast := h.last_lt
  have hvalue : ofDigitsBE base (as ++ [a]) = ofDigitsBE base as * base + a := by
    rw [ofDigitsBE_append]
    simp
  rw [mul_div_add_half h.pow_pos h.pow_even, h.mod_eq, hvalue]
  -- a digit that has been cut off is rounded to the base or to zero
  have hlen : p = base ∨ d.len = as.length + 1 := by
    rcases h.len_eq with hlen | ⟨-, hp⟩
    · exact .inr hlen
    · exact .inl hp
  unfold roundDigit
  simp only [hget, hset, h.pow_eq, ge_iff_le]
  by_cases hup : p / 2 ≤ a % p
  · simp only [hup, if_true]
    by_cases hbase : a + (p - a % p) = base
    · have hsum : ofDigitsBE base as * base + a + (p - a % p) =
          (ofDigitsBE base as + 1) * base := by
        rw [add_assoc, hbase, Nat.add_mul, one_mul]
      rw [if_pos hbase, hbase, hsum]
      exact h.outcome_carry rest
    · have hle := h.add_sub_mod_le
      have hlen : d.len = as.length + 1 := by
        rcases hlen with rfl | hlen
        · rw [Nat.mod_eq_of_lt hlast] at hbase
          omega
        · exact hlen
      rw [if_neg hbase, add_assoc]
      exact h.outcome_set rest (by omega) (by omega) hlen
  · simp only [hup, if_false]
    by_cases hzero : a - a % p = 0
    · have hsum : ofDigitsBE base as * base + a - a % p = ofDigitsBE base as * base := by omega
      simp only [hzero, if_true, hsum]
      exact h.outcome_strip rest
    · have hlen : d.len = as.length + 1 := by
        rcases hlen with rfl | hlen
        · rw [Nat.mod_eq_of_lt hlast] at hzero
          omega
        · exact hlen
      rw [if_neg hzero, Nat.add_sub_assoc hmodle]
      exact h.outcome_set rest hzero (by omega) hlen

end RoundedDigit

/-! ### The value -/

/-- `r` is canonical and has the sign `s` and the magnitude `n`, in units of `base ^ w`. -/
def ScaledTo (r : ObNumber) (s : Sign) (n : ℕ) (w : ℤ) : Prop :=
  r.Canonical ∧ r.toRat = s.toRat * (n * (base : ℚ) ^ w)

theorem scaledTo_mk {d : ObNumberDesc} (js tail : List ℕ) (hlen : d.len = js.length)
    (hpos : 0 < js.length) (hle : js.length ≤ 9) (hlt : ∀ c ∈ js, c < base)
    (hfirst : js.getD 0 0 ≠ 0) (hlast : js.getD (js.length - 1) 0 ≠ 0) (hexp : d.exp < 128)
    (hrange : -15 ≤ d.getDecodeExp ∧ d.getDecodeExp ≤ 14) :
    ScaledTo ⟨d, js ++ tail⟩ d.sign (ofDigitsBE base js) (d.getDecodeExp - js.length + 1) :=
  ⟨.inr ((trimmed_mk js tail hlen hpos hle hlt hfirst hlast hexp).normal hrange),
    by rw [toRat_mk hlen, mul_assoc]⟩

theorem getDecodeExp_carryDesc {d : ObNumberDesc} (hexp : d.exp < 128)
    (hroom : d.getDecodeExp < 63) :
    (carryDesc d).getDecodeExp = d.getDecodeExp + 1 ∧ (carryDesc d).sign = d.sign := by
  unfold carryDesc
  cases hs : d.sign with
  | negative =>
    rw [if_pos rfl]
    rw [ObNumberDesc.getDecodeExp_negative hs hexp] at hroom
    exact ⟨ObNumberDesc.getDecodeExp_decExp hs (by omega) hexp, hs⟩
  | positive =>
    rw [if_neg (by decide)]
    rw [ObNumberDesc.getDecodeExp_positive hs] at hroom
    exact ⟨ObNumberDesc.getDecodeExp_incExp hs (by omega), hs⟩

/-- **The rounded value**, if the exponent has room for the carry. -/
theorem RoundOutcome.toRat_eq {d : ObNumberDesc} (h : RoundOutcome d k n r) (hexp : d.exp < 128)
    (hroom : n = base ^ k → d.getDecodeExp < 63) :
    r.toRat = d.sign.toRat * (n * (base : ℚ) ^ (d.getDecodeExp - k + 1)) := by
  rcases h with ⟨hn, hr⟩ | ⟨-, htrim, hr, hlen, hval⟩ | ⟨hn, htrim, hr, hused⟩
  · rw [Canonical.toRat_of_zero hr, hn]
    simp
  · have hdecode : r.d.getDecodeExp = d.getDecodeExp := by
      rw [hr]
      rfl
    have hsign : r.d.sign = d.sign := by rw [hr]
    rw [toRat, hsign, hdecode, hval, mul_assoc]
    push_cast
    rw [mul_assoc (ofDigitsBE base r.used : ℚ), ← zpow_natCast, ← zpow_add₀ base_pos.ne']
    congr 3
    omega
  · obtain ⟨hcarry, hsame⟩ := getDecodeExp_carryDesc hexp (hroom hn)
    have hdecode : r.d.getDecodeExp = d.getDecodeExp + 1 := by
      rw [hr]
      exact hcarry
    have hsign : r.d.sign = d.sign := by
      rw [hr]
      exact hsame
    have hone : r.d.len = 1 := by rw [hr]
    rw [toRat, hsign, hdecode, hused, hone, hn, ofDigitsBE_singleton, Nat.cast_one, mul_one,
      Nat.cast_pow, ← zpow_natCast, ← zpow_add₀ base_pos.ne']
    congr 2
    push_cast
    ring

/-- **The rounded number**, if the exponent is in range and has room for the carry. -/
theorem RoundOutcome.scaledTo {d : ObNumberDesc} (h : RoundOutcome d k n r) (hexp : d.exp < 128)
    (hrange : -15 ≤ d.getDecodeExp ∧ d.getDecodeExp ≤ 14)
    (hroom : n = base ^ k → d.getDecodeExp ≤ 13) :
    ScaledTo r d.sign n (d.getDecodeExp - k + 1) := by
  refine ⟨?_, h.toRat_eq hexp fun _ => by omega⟩
  rcases h with ⟨-, hr⟩ | ⟨-, htrim, hr, -, -⟩ | ⟨hn, htrim, hr, -⟩
  · exact .inl hr
  · have hdecode : r.d.getDecodeExp = d.getDecodeExp := by
      rw [hr]
      rfl
    exact .inr (htrim.normal (by rw [hdecode]; exact hrange))
  · have hdecode : r.d.getDecodeExp = d.getDecodeExp + 1 := by
      rw [hr]
      exact (getDecodeExp_carryDesc hexp (by omega)).1
    have hle := hroom hn
    exact .inr (htrim.normal (by omega))

end ObNumber

end Andl.Number
