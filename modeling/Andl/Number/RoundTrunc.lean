import Andl.Number.Arith

/-!
# Rounding and truncating to a scale

`ObNumber::round` and `ObNumber::trunc` in MySQL mode.
-/

namespace Andl.Number

/-- `ObNumber::MIN_SCALE`. -/
def minScale : Int := -84

/-- `ObNumber::MAX_SCALE`. -/
def maxScale : Int := 127

/-- `ObNumber::MAX_CALC_LEN`. -/
def maxCalcLen : Nat := 32

namespace ObNumber

/-- `ObNumber::round_v3`, which is `ObNumber::round`. -/
def round (x : ObNumber) (scale : Int) : ObResult ObNumber :=
  if x.isZero then .ok x
  else if x.digits = [] then .error .notInit
  else if scale < minScale ∨ scale > maxScale then .error .invalidArgument
  else .ok (x.roundScaleV3 scale false)

/-! ### The digits around the point -/

/-- `ObDigitIterator`. -/
structure ObDigitIterator where
  iterIdx : Nat
  iterLen : Nat
  iterExp : Int
  number : ObNumber

namespace ObDigitIterator

/-- `ObDigitIterator::assign`. -/
def assign (x : ObNumber) : ObDigitIterator where
  iterIdx := 0
  iterLen := x.d.len
  iterExp := x.d.getDecodeExp
  number := x

/-- `ObDigitIterator::get_digit`. -/
def getDigit (it : ObDigitIterator) (idx : Nat) : ObResult Nat :=
  if it.number.digits = [] then .error .errUnexpected
  else if base ≤ it.number.digits.getD idx 0 then .error .errUnexpected
  else .ok (it.number.digits.getD idx 0)

/-- `ObDigitIterator::get_next_digit`. -/
def getNextDigit (it : ObDigitIterator) : ObResult (Nat × Bool × ObDigitIterator) :=
  if 0 ≤ it.iterExp then
    if it.iterIdx < it.iterLen then do
      let digit ← it.getDigit it.iterIdx
      return (digit, true, { it with iterIdx := it.iterIdx + 1, iterExp := it.iterExp - 1 })
    else .ok (0, true, { it with iterExp := it.iterExp - 1 })
  else if -1 = it.iterExp then
    if it.iterIdx ≥ it.iterLen then .error .iterEnd
    else do
      let digit ← it.getDigit it.iterIdx
      return (digit, false, { it with iterIdx := it.iterIdx + 1 })
  else .ok (0, false, { it with iterExp := it.iterExp + 1 })

/-- How many digits are left. -/
def remaining (it : ObDigitIterator) : Nat :=
  (it.iterExp + 1).natAbs + (it.iterLen - it.iterIdx)

theorem remaining_lt {it it' : ObDigitIterator} {digit : Nat} {fromInteger : Bool}
    (h : it.getNextDigit = .ok (digit, fromInteger, it')) : it'.remaining < it.remaining := by
  unfold getNextDigit at h
  unfold remaining
  split_ifs at h with hexp hidx hpoint hend
  · obtain ⟨d, -, hd⟩ := ObResult.bind_eq_ok.mp h
    cases hd
    dsimp only
    omega
  · cases h
    dsimp only
    omega
  · obtain ⟨d, -, hd⟩ := ObResult.bind_eq_ok.mp h
    cases hd
    dsimp only
    omega
  · cases h
    dsimp only
    omega

end ObDigitIterator

/-! ### Truncating -/

/-- `ObNumber::get_digit_len`. -/
def getDigitLen (d : Nat) : Nat :=
  if base ≤ d then 0
  else if d ≥ 100000000 then 9
  else if d ≥ 10000000 then 8
  else if d ≥ 1000000 then 7
  else if d ≥ 100000 then 6
  else if d ≥ 10000 then 5
  else if d ≥ 1000 then 4
  else if d ≥ 100 then 3
  else if d ≥ 10 then 2
  else 1

/-- The digits that `ObNumber::trunc_scale_` has read. -/
structure TruncState where
  integerDigits : List Nat := []
  integerCounter : Nat := 0
  decimalDigits : List Nat := []

/-- The loop of `ObNumber::trunc_scale_`. -/
def truncLoop (scale : Int) (usingFloatingScale : Bool) (it : ObDigitIterator) (s : TruncState) :
    ObResult TruncState :=
  match _h : it.getNextDigit with
  | .error .iterEnd => .ok s
  | .error e => .error e
  | .ok (digit, fromInteger, it') =>
    if maxCalcLen ≤ s.integerDigits.length ∨ maxCalcLen ≤ s.decimalDigits.length then
      .error .numericOverflow
    else if fromInteger then
      truncLoop scale usingFloatingScale it'
        { s with
          integerDigits := s.integerDigits ++ [digit]
          integerCounter := s.integerCounter +
            if s.integerDigits = [] then getDigitLen digit else digitLen }
    else if 0 ≤ scale then
      if usingFloatingScale ∧ digit = 0 ∧ s.integerDigits = [] ∧ s.decimalDigits = [] then
        truncLoop scale usingFloatingScale it' s
      else
        let s := { s with decimalDigits := s.decimalDigits ++ [digit] }
        if (s.decimalDigits.length * digitLen : Nat) > scale then .ok s
        else truncLoop scale usingFloatingScale it' s
    else .ok s
termination_by it.remaining
decreasing_by all_goals exact it.remaining_lt _h

/-- `TRUNC_POWS` of `ObNumber::trunc_integer_`. -/
def truncIntegerPows : List Nat :=
  [0, 10, 100, 1000, 10000, 100000, 1000000, 10000000, 100000000]

/-- `TRUNC_POWS` of `ObNumber::trunc_decimal_`. -/
def truncDecimalPows : List Nat :=
  [0, 100000000, 10000000, 1000000, 100000, 10000, 1000, 100, 10]

/-- The last digit, cut off to a multiple of `pow`. -/
def truncLast (pow : Nat) (digits : List Nat) : List Nat :=
  digits.set (digits.length - 1) (digits.getD (digits.length - 1) 0 / pow * pow)

/-- `ObNumber::trunc_integer_`. -/
def truncInteger (scale : Int) (integerDigits : List Nat) : ObResult (List Nat) :=
  if scale ≤ 0 then .error .invalidArgument
  else
    let truncLength := ((scale - 1) / digitLen + 1).toNat
    let trunc := (scale % digitLen).toNat
    let integerLength := integerDigits.length
    if integerLength < truncLength then .ok []
    else if 0 = trunc then .ok (integerDigits.take (integerLength - truncLength))
    else
      .ok (truncLast (truncIntegerPows.getD trunc 0)
        (integerDigits.take (integerLength - (truncLength - 1))))

/-- `ObNumber::trunc_decimal_`. -/
def truncDecimal (scale : Int) (decimalDigits : List Nat) : ObResult (List Nat) :=
  if scale ≤ 0 then .error .invalidArgument
  else
    let truncLength := ((scale - 1) / digitLen + 1).toNat
    let trunc := (scale % digitLen).toNat
    if decimalDigits.length < truncLength then .ok decimalDigits
    else if 0 = trunc then .ok (decimalDigits.take truncLength)
    else .ok (truncLast (truncDecimalPows.getD trunc 0) (decimalDigits.take truncLength))

/-- The loop of `ObNumber::normalize_` that carries into the digits, from the last one to the first.
-/
def normalizeCarry : List Nat → List Nat × Nat
  | [] => ([], 0)
  | d :: ds =>
    let r := normalizeCarry ds
    if base ≤ d + r.2 then ((d + r.2 - base) :: r.1, 1) else ((d + r.2) :: r.1, 0)

/-- `ObNumber::normalize_`: the digits of `x` become `digits`, without the zeros at both ends. -/
def normalize (x : ObNumber) (digits : List Nat) : ObResult ObNumber :=
  let r := normalizeCarry (digits.dropWhile (· == 0))
  let digits := r.1.rdropWhile fun d => d == 0 || d == base
  if 0 < r.2 then
    if digits.length ≠ 0 then .error .errUnexpected
    else
      let d := if x.d.sign = .negative then x.d.decExp else x.d.incExp
      .ok ⟨{ d with len := 1 }, x.digits.set 0 r.2⟩
  else if digits.length = 0 then .ok x.setZero
  else .ok ⟨{ x.d with len := digits.length }, digits ++ x.digits.drop digits.length⟩

/-- `ObNumber::rebuild_digits_`. -/
def rebuildDigits (x : ObNumber) (integerDigits decimalDigits : List Nat) : ObResult ObNumber :=
  if 0 < integerDigits.length ∧ maxCalcLen ≤ integerDigits.length then .error .numericOverflow
  else if 0 < decimalDigits.length ∧ maxCalcLen ≤ integerDigits.length + decimalDigits.length then
    .error .numericOverflow
  else x.normalize (integerDigits ++ decimalDigits)

/-- `ObNumber::trunc_scale_`. -/
def truncScale (x : ObNumber) (scale : Int) (usingFloatingScale : Bool) : ObResult ObNumber := do
  let s ← truncLoop scale usingFloatingScale (.assign x) {}
  let floatingScale := if usingFloatingScale then scale - s.integerCounter else scale
  if 0 < floatingScale then
    let decimalDigits ← truncDecimal floatingScale s.decimalDigits
    x.rebuildDigits s.integerDigits decimalDigits
  else if 0 > floatingScale then
    let integerDigits ← truncInteger (-floatingScale) s.integerDigits
    x.rebuildDigits integerDigits []
  else x.rebuildDigits s.integerDigits []

/-- `ObNumber::trunc`. -/
def trunc (x : ObNumber) (scale : Int) : ObResult ObNumber :=
  if minScale > scale ∨ maxScale < scale then .error .invalidArgument
  else if x.isZero then .ok x
  else if x.digits = [] ∨ x.d.len = 0 then .error .notInit
  else x.truncScale scale false

end ObNumber

end Andl.Number
