import Andl.Number.DivArray

/-!
# The remainder of decimal numbers

`remV3` scales both numbers to integers with a common exponent and divides these.
-/

namespace Andl.Number.ObNumber

/-- The number with a descriptor that has been checked. -/
def assignChecked (desc : ObResult ObNumberDesc) (digits : List Nat) : ObResult ObNumber :=
  match desc with
  | .ok desc => .ok ⟨desc, digits⟩
  | .error .decimalPrecisionOverflow => .ok zero
  | .error e => .error e

/-- The number with the digits of a remainder, which are not all zero, the first one at the exponent
of the divisor. -/
def remResult (isOracleMode : Bool) (x y : ObNumber) (rem : List Int) : ObResult ObNumber :=
  let sumDigits := rem.reverse.map Int.toNat
  let offset := (sumDigits.takeWhile (· == 0)).length
  let sumExp := y.d.getDecodeExp - offset
  let sumLen := min (rem.length - offset) maxStoreLen
  let digits := ((sumDigits.drop offset).take sumLen).rdropWhile (· == 0)
  assignChecked ((x.d.expRem y.d).calcDescAndCheck sumExp digits.length isOracleMode) digits

/-- `ObNumber::rem_v3`. -/
def remV3 (isOracleMode : Bool) (x y : ObNumber) : Option (ObResult ObNumber) := do
  if y.isZero then return .error .divisionByZero
  else if x.isZero then return .ok zero
  else if absCompare x y = 0 then return .ok zero
  else if absCompare x y < 0 then return .ok x.deepCopyV3
  else
    let dividendExp := x.d.getDecodeExp - (x.d.len - 1)
    let divisorExp := y.d.getDecodeExp - (y.d.len - 1)
    let dividendMove := x.d.len - 1 + (dividendExp - divisorExp).toNat
    let divisorMove := y.d.len - 1 + (divisorExp - dividendExp).toNat
    let dividend ← ObDivArray.fromDigits x.digits x.d.len (dividendMove + 1)
    let divisor ← ObDivArray.fromDigits y.digits y.d.len (divisorMove + 1)
    let rem ← ObDivArray.rem dividend divisor
    if ObDivArray.isZero rem then return .ok zero
    else return remResult isOracleMode x y rem

end Andl.Number.ObNumber
