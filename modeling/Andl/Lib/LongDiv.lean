import Mathlib

/-!
# Long division

Digit lists of integers, the least significant digit first, and the estimate of a quotient digit
from the leading digits.
-/

namespace Andl

open List

variable {b : ℤ} {as bs ds : List ℤ}

/-- The number with the digits `ds`, the least significant one first. -/
def evalLE (b : ℤ) : List ℤ → ℤ
  | [] => 0
  | d :: ds => d + b * evalLE b ds

@[simp] theorem evalLE_nil (b : ℤ) : evalLE b [] = 0 := rfl

@[simp] theorem evalLE_cons (b d : ℤ) (ds : List ℤ) :
    evalLE b (d :: ds) = d + b * evalLE b ds := rfl

theorem evalLE_append (b : ℤ) (as bs : List ℤ) :
    evalLE b (as ++ bs) = evalLE b as + b ^ as.length * evalLE b bs := by
  induction as with
  | nil => simp
  | cons a as ih =>
    rw [cons_append, evalLE_cons, ih, evalLE_cons, length_cons, pow_succ]
    ring

@[simp] theorem evalLE_replicate_zero (b : ℤ) (n : ℕ) : evalLE b (List.replicate n 0) = 0 := by
  induction n with
  | zero => rfl
  | succ n ih => rw [replicate_succ, evalLE_cons, ih, mul_zero, add_zero]

/-- The digits are between zero and the base. -/
def IsDigits (b : ℤ) (ds : List ℤ) : Prop := ∀ d ∈ ds, 0 ≤ d ∧ d < b

namespace IsDigits

@[simp] theorem nil : IsDigits b [] := fun _ h => absurd h not_mem_nil

@[simp] theorem cons_iff {d : ℤ} : IsDigits b (d :: ds) ↔ (0 ≤ d ∧ d < b) ∧ IsDigits b ds :=
  forall_mem_cons

@[simp] theorem append_iff : IsDigits b (as ++ bs) ↔ IsDigits b as ∧ IsDigits b bs :=
  forall_mem_append

theorem replicate_zero (hb : 0 < b) (n : ℕ) : IsDigits b (List.replicate n 0) := by
  intro d hd
  rw [eq_of_mem_replicate hd]
  exact ⟨le_refl 0, hb⟩

theorem evalLE_nonneg (hb : 0 < b) (h : IsDigits b ds) : 0 ≤ evalLE b ds := by
  induction ds with
  | nil => exact le_refl 0
  | cons d ds ih =>
    obtain ⟨hd, hds⟩ := cons_iff.mp h
    have hmul := mul_nonneg hb.le (ih hds)
    rw [evalLE_cons]
    linarith [hd.1]

theorem evalLE_lt (hb : 0 < b) (h : IsDigits b ds) : evalLE b ds < b ^ ds.length := by
  induction ds with
  | nil => simp
  | cons d ds ih =>
    obtain ⟨hd, hds⟩ := cons_iff.mp h
    have hmul : b * (evalLE b ds + 1) ≤ b * b ^ ds.length :=
      mul_le_mul_of_nonneg_left (ih hds) hb.le
    rw [evalLE_cons, length_cons, pow_succ]
    linarith [hd.2]

/-- Lists of one length denote different numbers. -/
theorem evalLE_inj (hb : 0 < b) (ha : IsDigits b as) (hbs : IsDigits b bs)
    (hlen : as.length = bs.length) (h : evalLE b as = evalLE b bs) : as = bs := by
  induction as generalizing bs with
  | nil => exact (length_eq_zero_iff.mp hlen.symm).symm
  | cons a as ih =>
    cases bs with
    | nil => simp at hlen
    | cons c bs =>
      obtain ⟨ha0, has⟩ := cons_iff.mp ha
      obtain ⟨hc0, hcs⟩ := cons_iff.mp hbs
      rw [evalLE_cons, evalLE_cons] at h
      -- the lowest digit is the remainder by the base
      have hac : a = c := by
        have hmod := congrArg (· % b) h
        simp only [Int.add_mul_emod_self_left] at hmod
        rwa [Int.emod_eq_of_lt ha0.1 ha0.2, Int.emod_eq_of_lt hc0.1 hc0.2] at hmod
      subst hac
      have htail : evalLE b as = evalLE b bs :=
        mul_left_cancel₀ hb.ne' (add_left_cancel h)
      rw [ih has hcs (by simpa using hlen) htail]

theorem getD_nonneg (h : IsDigits b ds) (i : ℕ) : 0 ≤ ds.getD i 0 := by
  by_cases hi : i < ds.length
  · rw [getD_eq_getElem _ _ hi]
    exact (h _ (getElem_mem hi)).1
  · rw [getD_eq_default _ _ (by omega)]

/-- A number that fits has only zeros above. -/
theorem eq_replicate_zero (hb : 0 < b) (h : IsDigits b ds) (hz : evalLE b ds = 0) :
    ds = List.replicate ds.length 0 :=
  evalLE_inj hb h (replicate_zero hb _) (by simp) (by simpa using hz)

end IsDigits

/-! ### The estimate of a quotient digit

The dividend is `((u0 b + u1) b + u2) w + ur` and the divisor `(v1 b + v2) w + vr`, with `w` the
weight of the digits that the estimate does not look at.
-/

section Estimate

variable {w v1 v2 vr u2 ur t : ℤ}

/-- The estimate from the leading digits is not too small. -/
theorem lt_estimate_succ (hb : 0 < b) (hw : 0 < w) (hv1 : 0 < v1) (hv2 : 0 ≤ v2) (hvr : 0 ≤ vr)
    (ht : 0 ≤ t) (hu2 : u2 < b) (hur : ur < w) :
    (t * b + u2) * w + ur < (t / v1 + 1) * ((v1 * b + v2) * w + vr) := by
  have hq : t + 1 ≤ (t / v1 + 1) * v1 := Int.lt_ediv_add_one_mul_self t hv1
  have hq0 : 0 ≤ t / v1 := Int.ediv_nonneg ht hv1.le
  have hbw : 0 < b * w := mul_pos hb hw
  calc (t * b + u2) * w + ur < (t * b + u2 + 1) * w := by linarith
    _ ≤ (t * b + b) * w := mul_le_mul_of_nonneg_right (by linarith) hw.le
    _ = (t + 1) * (b * w) := by ring
    _ ≤ ((t / v1 + 1) * v1) * (b * w) := mul_le_mul_of_nonneg_right hq hbw.le
    _ = (t / v1 + 1) * (v1 * b * w) := by ring
    _ ≤ (t / v1 + 1) * ((v1 * b + v2) * w + vr) := by
      apply mul_le_mul_of_nonneg_left _ (by linarith)
      have := mul_nonneg hv2 hw.le
      linarith

/-- The criterion for a correction: where it holds, the estimate is too large. -/
theorem lt_estimate (hw : 0 < w) (hv1 : 0 < v1) (hvr : 0 ≤ vr) (ht : 0 ≤ t) (hur : ur < w)
    (htest : b * (t % v1) + u2 < t / v1 * v2) :
    (t * b + u2) * w + ur < t / v1 * ((v1 * b + v2) * w + vr) := by
  have hq0 : 0 ≤ t / v1 := Int.ediv_nonneg ht hv1.le
  have hdiv : v1 * (t / v1) + t % v1 = t := Int.mul_ediv_add_emod t v1
  calc (t * b + u2) * w + ur < (t * b + u2 + 1) * w := by linarith
    _ = ((v1 * (t / v1) + t % v1) * b + u2 + 1) * w := by rw [hdiv]
    _ ≤ (v1 * (t / v1) * b + t / v1 * v2) * w :=
      mul_le_mul_of_nonneg_right (by linarith) hw.le
    _ = t / v1 * ((v1 * b + v2) * w) := by ring
    _ ≤ t / v1 * ((v1 * b + v2) * w + vr) := by
      apply mul_le_mul_of_nonneg_left _ hq0
      linarith

/-- Where the criterion does not hold, the estimate is at most one too large. -/
theorem estimate_pred_le (hb : 0 ≤ b) (hw : 0 < w) (hv1 : 2 ≤ v1) (hv2 : 0 ≤ v2) (hvr : 0 ≤ vr)
    (hvrw : vr < w) (ht : 0 ≤ t) (hur : 0 ≤ ur) (hq : t / v1 ≤ 2 * b)
    (htest : t / v1 * v2 ≤ b * (t % v1) + u2) :
    (t / v1 - 1) * ((v1 * b + v2) * w + vr) ≤ (t * b + u2) * w + ur := by
  have hq0 : 0 ≤ t / v1 := Int.ediv_nonneg ht (by linarith)
  have hdiv : v1 * (t / v1) + t % v1 = t := Int.mul_ediv_add_emod t v1
  -- what the criterion leaves out is less than one divisor
  have hlow : t / v1 * vr ≤ (v1 * b + v2) * w + vr := by
    have h1 : t / v1 * vr ≤ t / v1 * w := mul_le_mul_of_nonneg_left hvrw.le hq0
    have h2 : t / v1 * w ≤ 2 * b * w := mul_le_mul_of_nonneg_right hq hw.le
    have h3 : 2 * b * w ≤ v1 * b * w :=
      mul_le_mul_of_nonneg_right (mul_le_mul_of_nonneg_right hv1 hb) hw.le
    have h4 := mul_nonneg hv2 hw.le
    linarith
  have hhigh : t / v1 * ((v1 * b + v2) * w) ≤ (t * b + u2) * w := by
    calc t / v1 * ((v1 * b + v2) * w) = (v1 * (t / v1) * b + t / v1 * v2) * w := by ring
      _ ≤ ((v1 * (t / v1) + t % v1) * b + u2) * w :=
        mul_le_mul_of_nonneg_right (by linarith) hw.le
      _ = (t * b + u2) * w := by rw [hdiv]
  linarith

/-- With a normalised divisor the estimate is at most two too large. -/
theorem estimate_pred_pred_le (hb : 0 < b) (hw : 0 < w) (hv1 : b ≤ 2 * v1) (hv2 : v2 < b)
    (hvrw : vr < w) (hu2 : 0 ≤ u2) (hur : 0 ≤ ur) (hq : t / v1 ≤ b + 1)
    (hq2 : 2 ≤ t / v1) : (t / v1 - 2) * ((v1 * b + v2) * w + vr) ≤ (t * b + u2) * w + ur := by
  have hbw : 0 < b * w := mul_pos hb hw
  have hle : t / v1 * v1 ≤ t := Int.ediv_mul_le t (by linarith)
  have hdivisor : (v1 * b + v2) * w + vr ≤ (v1 + 1) * (b * w) := by
    have h1 : (v2 + 1) * w ≤ b * w := mul_le_mul_of_nonneg_right hv2 hw.le
    linarith
  calc (t / v1 - 2) * ((v1 * b + v2) * w + vr)
      ≤ (t / v1 - 2) * ((v1 + 1) * (b * w)) :=
        mul_le_mul_of_nonneg_left hdivisor (by linarith)
    _ = (t / v1 * v1 + (t / v1 - 2 * v1 - 2)) * (b * w) := by ring
    _ ≤ t * (b * w) := mul_le_mul_of_nonneg_right (by linarith) hbw.le
    _ ≤ (t * b + u2) * w + ur := by
      have := mul_nonneg hu2 hw.le
      linarith

/-- A quotient below the base is estimated by at most the base and one. -/
theorem estimate_le (hb : 0 < b) (hw : 0 < w) (hv1 : b ≤ 2 * v1) (hv2 : v2 < b) (hvrw : vr < w)
    (hu2 : 0 ≤ u2) (hur : 0 ≤ ur)
    (hlt : (t * b + u2) * w + ur < b * ((v1 * b + v2) * w + vr)) : t / v1 ≤ b + 1 := by
  have hbw : 0 < b * w := mul_pos hb hw
  have hdivisor : (v1 * b + v2) * w + vr ≤ (v1 + 1) * (b * w) := by
    have h1 : (v2 + 1) * w ≤ b * w := mul_le_mul_of_nonneg_right hv2 hw.le
    linarith
  have ht : t * (b * w) < (b * (v1 + 1)) * (b * w) := by
    have h1 := mul_nonneg hu2 hw.le
    have h2 : b * ((v1 * b + v2) * w + vr) ≤ b * ((v1 + 1) * (b * w)) :=
      mul_le_mul_of_nonneg_left hdivisor hb.le
    linarith
  have ht' : t < b * (v1 + 1) := lt_of_mul_lt_mul_right ht hbw.le
  have hv1pos : 0 < v1 := by linarith
  have hlast : t / v1 < b + 2 := by
    apply Int.ediv_lt_of_lt_mul hv1pos
    linarith
  linarith

/-- The corrected estimate of a quotient digit. -/
def correctedEstimate (b t v1 v2 u2 : ℤ) : ℤ :=
  if t / v1 = b ∨ b * (t % v1) + u2 < t / v1 * v2 then t / v1 - 1 else t / v1

/-- A correction is made only to a positive estimate. -/
theorem correctedEstimate_nonneg (hb : 0 < b) (hv1 : 0 < v1) (ht : 0 ≤ t) (hu2 : 0 ≤ u2) :
    0 ≤ correctedEstimate b t v1 v2 u2 := by
  have hq0 : 0 ≤ t / v1 := Int.ediv_nonneg ht hv1.le
  have hr0 : 0 ≤ b * (t % v1) := mul_nonneg hb.le (Int.emod_nonneg t hv1.ne')
  unfold correctedEstimate
  split_ifs with h
  · have hne : t / v1 ≠ 0 := by
      intro hzero
      rw [hzero, zero_mul] at h
      rcases h with h | h <;> linarith
    omega
  · exact hq0

/-- **The corrected estimate** is the quotient digit, or one more. -/
theorem estimate_bounds (hb : 4 ≤ b) (hw : 0 < w) (hv1 : b ≤ 2 * v1) (hv2 : 0 ≤ v2) (hv2b : v2 < b)
    (hvr : 0 ≤ vr) (hvrw : vr < w) (ht : 0 ≤ t) (hu2 : 0 ≤ u2) (hu2b : u2 < b) (hur : 0 ≤ ur)
    (hurw : ur < w) (hlt : (t * b + u2) * w + ur < b * ((v1 * b + v2) * w + vr)) :
    (correctedEstimate b t v1 v2 u2 - 1) * ((v1 * b + v2) * w + vr) ≤ (t * b + u2) * w + ur ∧
      (t * b + u2) * w + ur <
        (correctedEstimate b t v1 v2 u2 + 1) * ((v1 * b + v2) * w + vr) := by
  have hbpos : 0 < b := by linarith
  have hv1pos : 0 < v1 := by linarith
  have hq := estimate_le hbpos hw hv1 hv2b hvrw hu2 hur hlt
  have hnonneg : 0 ≤ correctedEstimate b t v1 v2 u2 :=
    correctedEstimate_nonneg hbpos hv1pos ht hu2
  unfold correctedEstimate at hnonneg ⊢
  split_ifs at hnonneg ⊢ with htest
  · constructor
    · rcases (show t / v1 = 1 ∨ 2 ≤ t / v1 by omega) with hone | htwo
      · -- an estimate of one is corrected to zero
        have h1 := mul_nonneg (mul_nonneg ht hbpos.le) hw.le
        have h2 := mul_nonneg hu2 hw.le
        have h3 := mul_nonneg (mul_nonneg hv1pos.le hbpos.le) hw.le
        have h4 := mul_nonneg hv2 hw.le
        rw [hone]
        linarith
      · have h := estimate_pred_pred_le hbpos hw hv1 hv2b hvrw hu2 hur hq htwo
        rwa [show t / v1 - 1 - 1 = t / v1 - 2 by ring]
    · rw [sub_add_cancel]
      rcases htest with hbase | htest
      · rw [hbase]
        exact hlt
      · exact lt_estimate hw hv1pos hvr ht hurw htest
  · push Not at htest
    constructor
    · exact estimate_pred_le hbpos.le hw (by linarith) hv2 hvr hvrw ht hur (by linarith) htest.2
    · exact lt_estimate_succ hbpos hw hv1pos hv2 hvr ht hu2b hurw

end Estimate

end Andl
