import Andl.Number.Equiv.ObNumber

/-!
# Descriptors of results
-/

namespace Andl.Number.ObNumberDesc

variable {d : ObNumberDesc} {e : ℤ} {len : ℕ}

theorem calcDesc_exp_lt (d : ObNumberDesc) (e : ℤ) (len : ℕ) : (calcDesc d e len).exp < 128 := by
  unfold calcDesc complementExp
  dsimp only
  split_ifs <;> omega

theorem getDecodeExp_calcDesc (hlow : -64 < e) (hhigh : e < 64) :
    (calcDesc d e len).getDecodeExp = e := by
  have hmod : (((expZero : ℕ) : ℤ) + e) % 0x80 = 64 + e :=
    Int.emod_eq_of_lt (by unfold expZero; omega) (by unfold expZero; omega)
  cases hs : d.sign with
  | positive =>
    have hsign : (calcDesc d e len).sign = .positive := hs
    rw [getDecodeExp_positive hsign]
    simp only [calcDesc, hs, hmod, reduceCtorEq, if_false]
    omega
  | negative =>
    have hsign : (calcDesc d e len).sign = .negative := hs
    rw [getDecodeExp_negative hsign (calcDesc_exp_lt d e len)]
    simp only [calcDesc, hs, hmod, if_true, complementExp]
    omega

/-- The range of exponents, by the sign that the exponent has. -/
theorem expCheck_eq (hlow : -64 < d.getDecodeExp) (hexp : d.exp < 128) (isOracleMode : Bool) :
    d.expCheck isOracleMode =
      if 0 ≤ d.getDecodeExp ∧
          (if isOracleMode then 14 ≤ d.getDecodeExp else 14 < d.getDecodeExp) then
        .error .integerPrecisionOverflow
      else if d.getDecodeExp < -15 then .error .decimalPrecisionOverflow
      else .ok () := by
  unfold expCheck isGe1 isLt1 expZero maxIntegerExp maxDecimalExp
  cases hs : d.sign with
  | positive =>
    rw [getDecodeExp_positive hs] at hlow ⊢
    simp only [reduceCtorEq, false_and, false_or, true_and, decide_eq_true_eq]
    cases isOracleMode
    · simp only [Bool.false_eq_true, if_false]
      split_ifs <;> first | rfl | omega
    · simp only [if_true]
      split_ifs <;> first | rfl | omega
  | negative =>
    rw [getDecodeExp_negative hs hexp] at hlow ⊢
    simp only [reduceCtorEq, false_and, or_false, true_and, decide_eq_true_eq]
    cases isOracleMode
    · simp only [Bool.false_eq_true, if_false]
      split_ifs <;> first | rfl | omega
    · simp only [if_true]
      split_ifs <;> first | rfl | omega

theorem calcDescAndCheck_eq (hlow : -64 < e) (hhigh : e < 64) (isOracleMode : Bool) :
    calcDescAndCheck d e len isOracleMode =
      if 0 ≤ e ∧ (if isOracleMode then 14 ≤ e else 14 < e) then .error .integerPrecisionOverflow
      else if e < -15 then .error .decimalPrecisionOverflow
      else .ok (calcDesc d e len) := by
  have hexp : (calcDesc d e len).getDecodeExp = e := getDecodeExp_calcDesc hlow hhigh
  have hcheck := expCheck_eq (d := calcDesc d e len) (by rw [hexp]; exact hlow)
    (calcDesc_exp_lt d e len) isOracleMode
  rw [hexp] at hcheck
  unfold calcDescAndCheck
  simp only [hcheck]
  split_ifs <;> rfl

end Andl.Number.ObNumberDesc
