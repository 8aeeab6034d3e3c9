import Andl.Number.Rem

/-!
# Arithmetic of decimal numbers

Addition, subtraction, multiplication and division in MySQL mode.
-/

namespace Andl.Number

/-- `ObNumber::DIGIT_LEN`. -/
def digitLen : Nat := 9

/-- `ObNumber::FLOATING_SCALE`. -/
def floatingScale : Nat := 72

/-- `ObNumber::OB_MAX_DECIMAL_DIGIT`. -/
def maxDecimalDigit : Nat := maxStoreLen

/-- `ObNumber::OB_CALC_BUFFER_SIZE`. -/
def calcBufferSize : Nat := maxDecimalDigit + 1

/-- `ObNumber::OB_DIV_BUFFER_SIZE`. -/
def divBufferSize : Nat := calcBufferSize * 2

namespace ObNumber

/-! ### Rounding -/

/-- `ObNumber::get_digit_len_v2`, with the binary search of `ob_fast_digits10`. -/
def getDigitLenV2 (d : Nat) : Nat :=
  if base ≤ d then 0
  else if d < 10 then 1
  else if d < 100 then 2
  else if d < 1000 then 3
  else if d < 100000000 then
    if d < 1000000 then
      if d < 10000 then 4 else if d ≥ 100000 then 6 else 5
    else if d ≥ 10000000 then 8 else 7
  else 9

/-- `ROUND_POWS` of `ObNumber::round_scale_v3_`. -/
def roundPows : List Nat :=
  [1000000000, 100000000, 10000000, 1000000, 100000, 10000, 1000, 100, 10, 1000000000]

/-- `ObNumber::set_one`. -/
def setOne (x : ObNumber) : ObNumber :=
  ⟨{ x.d.setSe (if x.d.sign = .positive then 0xc0 else 0x40) with len := 1 }, x.digits.set 0 1⟩

/-- What `ObNumber::round_scale_v3_` finds to do. -/
inductive RoundAction where
  | keep
  | setZero
  | setOne
  | digit (len digitId powId : Nat)
deriving DecidableEq

/-- The first part of `ObNumber::round_scale_v3_`. -/
def roundAction (x : ObNumber) (scale : Int) (usingFloatingScale : Bool) : RoundAction :=
  let digit0Len : Int := getDigitLenV2 (x.digits.getD 0 0)
  let exprValue := x.d.getDecodeExp
  let len : Int := x.d.len
  let integerLength := if exprValue ≥ 0 then exprValue + 1 else 0
  let validIntegerLength := if len > integerLength then integerLength else len
  let integerCount :=
    if validIntegerLength > 0 then digit0Len + (integerLength - 1) * digitLen else 0
  let validDecimalLength := if len > integerLength then len - integerLength else 0
  let decimalLength := validDecimalLength +
    if 0 = integerLength ∧ usingFloatingScale = false then 0 - exprValue - 1 else 0
  let floatingScale :=
    if usingFloatingScale = true ∧ validIntegerLength > 0 then scale - integerCount else scale
  if floatingScale > 0 then
    let roundLength := floatingScale / digitLen
    if roundLength ≥ decimalLength then .keep
    else if decimalLength > validDecimalLength ∧
        roundLength < decimalLength - validDecimalLength then .setZero
    else
      let round := floatingScale - roundLength * digitLen
      let len := len - (decimalLength - (roundLength + 1))
      .digit len.toNat (len - 1).toNat round.toNat
  else if floatingScale < 0 then
    let floatingScale := 0 - floatingScale
    let roundLength := floatingScale / digitLen
    let round := floatingScale - roundLength * digitLen
    let roundIntegerLength := roundLength + if 0 = round then 0 else 1
    if integerLength < roundIntegerLength then .setZero
    else if integerLength > validIntegerLength ∧
        roundIntegerLength ≤ integerLength - validIntegerLength then .keep
    else
      let len := integerLength - roundIntegerLength + 1
      .digit len.toNat (len - 1).toNat (9 - round).toNat
  else
    if 0 = decimalLength then .keep
    else if validIntegerLength > 0 then
      .digit validIntegerLength.toNat validIntegerLength.toNat 0
    else if x.digits.getD 0 0 ≥ base / 2 ∧ x.d.getDecodeExp = -1 then .setOne
    else .setZero

/-- The loop that looks for a digit to take the carry, over the digits `n - 1, .., 0`. -/
def carryUp (digits : List Nat) : (n : Nat) → Option (Nat × List Nat)
  | 0 => none
  | i + 1 =>
    if digits.getD i 0 = base - 1 then carryUp digits i
    else some (i, digits.set i (digits.getD i 0 + 1))

/-- Adds one to the digits before `digitId`, which are the last ones to be kept. -/
def carryInto (d : ObNumberDesc) (digits : List Nat) (digitId : Nat) : ObNumber :=
  match carryUp digits digitId with
  | none =>
    let d := if d.sign = .negative then d.decExp else d.incExp
    ⟨{ d with len := 1 }, digits.set 0 1⟩
  | some (i, digits) => ⟨{ d with len := i + 1 }, digits⟩

/-- The second part of `ObNumber::round_scale_v3_`. -/
def roundDigit (x : ObNumber) (digitId powId : Nat) : ObNumber :=
  let digitValue := x.digits.getD digitId 0
  let roundPow := roundPows.getD powId 0
  let residue := digitValue % roundPow
  if residue ≥ roundPow / 2 then
    let digitValue := digitValue + (roundPow - residue)
    let digits := x.digits.set digitId digitValue
    if digitValue = base then carryInto x.d digits digitId else ⟨x.d, digits⟩
  else
    let digitValue := digitValue - residue
    let digits := x.digits.set digitId digitValue
    if digitValue = 0 then
      let len := ((digits.take x.d.len).rdropWhile (· == 0)).length
      if len = 0 then setZero ⟨x.d, digits⟩ else ⟨{ x.d with len := len }, digits⟩
    else ⟨x.d, digits⟩

/-- `ObNumber::round_scale_v3_`. -/
def roundScaleV3 (x : ObNumber) (scale : Int) (usingFloatingScale : Bool) : ObNumber :=
  if x.isZero then x
  else
    match roundAction x scale usingFloatingScale with
    | .keep => x
    | .setZero => x.setZero
    | .setOne => x.setOne
    | .digit len digitId powId =>
      roundDigit { x with d := { x.d with len := len } } digitId powId

/-- `ObNumber::need_round_after_arithmetic`. -/
def needRoundAfterArithmetic (x : ObNumber) : Bool := x.d.len ≥ floatingScale / digitLen

/-- What every operation does with its result. -/
def roundResult (doRounding : Bool) (res : ObResult ObNumber) : ObResult ObNumber := do
  let res ← res
  if doRounding ∧ res.needRoundAfterArithmetic then return res.roundScaleV3 floatingScale true
  else return res

/-! ### Adding -/

/-- The variables of the loop of `ObNumber::add_v3`. -/
structure AddState where
  digits : List Nat
  carry : Nat
  curExp : Int
  curAddendExp : Int
  curAddendId : Int
  sumLen : Nat
  checkSumLen : Bool

/-- The body of the loop of `ObNumber::add_v3`. -/
def addStep (addend : List Nat) (i : Nat) (s : AddState) : AddState :=
  let take : Bool := s.curExp = s.curAddendExp ∧ s.curAddendId ≥ 0
  let tmpDigit := s.digits.getD i 0 + s.carry +
    if take then addend.getD s.curAddendId.toNat 0 else 0
  let carry := if tmpDigit ≥ base then 1 else 0
  let tmpDigit := if tmpDigit ≥ base then tmpDigit - base else tmpDigit
  { digits := s.digits.set i tmpDigit
    carry := carry
    curExp := s.curExp + 1
    curAddendExp := if take then s.curAddendExp + 1 else s.curAddendExp
    curAddendId := if take then s.curAddendId - 1 else s.curAddendId
    sumLen := if s.checkSumLen ∧ tmpDigit = 0 then s.sumLen - 1 else s.sumLen
    checkSumLen := s.checkSumLen && tmpDigit == 0 }

/-- The loop of `ObNumber::add_v3` over `i = n, .., 1`. -/
def addLoop (addend : List Nat) : (n : Nat) → AddState → AddState
  | 0, s => s
  | i + 1, s => addLoop addend i (addStep addend (i + 1) s)

/-- The sum of two numbers of one sign, the first one of the larger exponent. -/
def addAligned (baseDesc : ObNumberDesc) (augend addend : ObNumber) : ObResult ObNumber :=
  let sumExp := augend.d.getDecodeExp
  let curAugendExp := augend.d.getDecodeExp - ((augend.d.len : Int) - 1)
  let curAddendExp := addend.d.getDecodeExp - ((addend.d.len : Int) - 1)
  let curExp := min curAugendExp curAddendExp
  let sumLen := (sumExp - curExp + 1).toNat
  let movex := sumLen - maxDecimalDigit
  let augendDigits := augend.digits.take (min augend.d.len maxDecimalDigit)
  let s := addLoop addend.digits (sumLen - movex)
    { digits := 0 :: augendDigits ++ List.replicate (maxDecimalDigit - augendDigits.length) 0
      carry := 0
      curExp := curExp + movex
      curAddendExp := curAddendExp + movex
      curAddendId := (addend.d.len : Int) - 1 - movex
      sumLen := sumLen - movex
      checkSumLen := true }
  if s.carry ≠ 0 then
    assignChecked (baseDesc.calcDescAndCheck (sumExp + 1) (s.sumLen + 1) false)
      ((s.digits.set 0 1).take (s.sumLen + 1))
  else
    assignChecked (baseDesc.calcDescAndCheck sumExp s.sumLen false)
      ((s.digits.drop 1).take s.sumLen)

/-- The part of `ObNumber::add_v3` for numbers of the same sign. -/
def addSameSign (x y : ObNumber) : ObResult ObNumber :=
  let thisExp := x.d.getDecodeExp
  let otherExp := y.d.getDecodeExp
  if thisExp ≥ otherExp + maxDecimalDigit then .ok x.deepCopyV3
  else if otherExp ≥ thisExp + maxDecimalDigit then .ok y.deepCopyV3
  else if thisExp < otherExp ∨ (thisExp = otherExp ∧ x.d.len < y.d.len) then addAligned x.d y x
  else addAligned x.d x y

/-! ### Subtracting -/

/-- The variables of the loop of `ObNumber::sub_v3`. -/
structure SubState where
  digits : List Int
  carry : Int
  curExp : Int
  curSubtrahendExp : Int
  curSubtrahendId : Int
  sumLen : Nat
  checkSumLen : Bool

/-- The body of the loop of `ObNumber::sub_v3`. -/
def subStep (subtrahend : List Nat) (startId i : Nat) (s : SubState) : SubState :=
  let take : Bool := s.curExp = s.curSubtrahendExp ∧ s.curSubtrahendId ≥ startId
  let tmpDigit := s.digits.getD i 0 + s.carry -
    if take then (subtrahend.getD s.curSubtrahendId.toNat 0 : Int) else 0
  let carry := if tmpDigit < 0 then -1 else 0
  let tmpDigit := if tmpDigit < 0 then tmpDigit + base else tmpDigit
  { digits := s.digits.set i tmpDigit
    carry := carry
    curExp := s.curExp + 1
    curSubtrahendExp := if take then s.curSubtrahendExp + 1 else s.curSubtrahendExp
    curSubtrahendId := if take then s.curSubtrahendId - 1 else s.curSubtrahendId
    sumLen := if s.checkSumLen ∧ tmpDigit = 0 then s.sumLen - 1 else s.sumLen
    checkSumLen := s.checkSumLen && tmpDigit == 0 }

/-- The loop of `ObNumber::sub_v3` over `i = startId + n - 1, .., startId`. -/
def subLoop (subtrahend : List Nat) (startId : Nat) : (n : Nat) → SubState → SubState
  | 0, s => s
  | n + 1, s => subLoop subtrahend startId n (subStep subtrahend startId (startId + n) s)

/-- The difference of two numbers of one sign, the first one of the larger absolute value. -/
def subAligned (sign : Sign) (startId : Nat) (minuend subtrahend : ObNumber) :
    ObResult ObNumber :=
  let sumExp := minuend.d.getDecodeExp
  let curMinuendExp := minuend.d.getDecodeExp - ((minuend.d.len : Int) - 1)
  let curSubtrahendExp := subtrahend.d.getDecodeExp - ((subtrahend.d.len : Int) - 1)
  let curExp := min curMinuendExp curSubtrahendExp
  let sumLen := (sumExp - curExp + 1).toNat
  let movex := sumLen - maxDecimalDigit
  let minuendDigits := (minuend.digits.take minuend.d.len).drop startId
  let s := subLoop subtrahend.digits startId (sumLen - movex - startId)
    { digits := (List.replicate startId 0 ++ minuendDigits.map Int.ofNat) ++
        List.replicate (calcBufferSize - startId - minuendDigits.length) 0
      carry := 0
      curExp := curExp + movex
      curSubtrahendExp := curSubtrahendExp + movex
      curSubtrahendId := (subtrahend.d.len : Int) - 1 - movex
      sumLen := sumLen - movex
      checkSumLen := true }
  -- the cell after the last digit ends the search for the first one that is not zero
  let digits := s.digits.set s.sumLen base
  let newStartId := startId + ((digits.drop startId).takeWhile (· == 0)).length
  let sumLen := s.sumLen - newStartId
  if sumLen = 0 then .ok zero
  else
    assignChecked
      ({ minuend.d with sign := sign }.calcDescAndCheck (sumExp - newStartId) sumLen false)
      (((digits.drop newStartId).take sumLen).map Int.toNat)

/-- `while (start_id <= min_id && digits_[start_id] == other.digits_[start_id])`. -/
def commonLen : (n : Nat) → List Nat → List Nat → Nat
  | n + 1, a :: s1, b :: s2 => if a = b then commonLen n s1 s2 + 1 else 0
  | _, _, _ => 0

/-- The part of `ObNumber::sub_v3` for numbers of the same sign. -/
def subSameSign (x y : ObNumber) : ObResult ObNumber :=
  let thisExp := x.d.getDecodeExp
  let otherExp := y.d.getDecodeExp
  if thisExp ≥ otherExp + maxDecimalDigit then .ok x.deepCopyV3
  else if otherExp ≥ thisExp + maxDecimalDigit then .ok y.negate.deepCopyV3
  else
    let minLen := min x.d.len y.d.len
    let startId := if thisExp = otherExp then commonLen minLen x.digits y.digits else 0
    if thisExp = otherExp ∧ startId = minLen ∧ x.d.len = y.d.len then .ok zero
    else
      let subNegative : Bool :=
        if thisExp > otherExp then false
        else if thisExp < otherExp then true
        else if startId = minLen then x.d.len < y.d.len
        else x.digits.getD startId 0 < y.digits.getD startId 0
      let sign : Sign :=
        if (x.d.sign = .negative) = (subNegative = true) then .positive else .negative
      if subNegative then subAligned sign startId y x else subAligned sign startId x y

/-- `ObNumber::add_v3`. -/
def addV3 (doRounding : Bool) (x y : ObNumber) : ObResult ObNumber :=
  roundResult doRounding <|
    if x.isZero then .ok y.deepCopyV3
    else if y.isZero then .ok x.deepCopyV3
    else if x.d.sign = y.d.sign then addSameSign x y
    else roundResult doRounding (subSameSign x y.negate)

/-! ### Multiplying -/

/-- The inner loop of `ObNumber::mul_v3`. -/
def mulRow (digit : Nat) : (multiplier : List Nat) → (i : Nat) → (sum : List Nat) → List Nat
  | [], _, sum => sum
  | b :: multiplier, i, sum =>
    mulRow digit multiplier (i + 1) (sum.set i (sum.getD i 0 + digit * b))

/-- The outer loop of `ObNumber::mul_v3`, from digit `i` of the multiplicand on. -/
def mulRows (multiplier : List Nat) :
    (multiplicand : List Nat) → (i : Nat) → (sum : List Nat) → List Nat
  | [], _, sum => sum
  | a :: multiplicand, i, sum =>
    mulRows multiplier multiplicand (i + 1) (mulRow a multiplier (i + 1) sum)

/-- The loop of `ObNumber::mul_v3` that carries, over the cells from the last one on. -/
def mulCarry (carry : Nat) : List Nat → List Nat
  | [] => []
  | d :: cells =>
    let tmpDigit := d + carry
    if tmpDigit ≥ base then
      (tmpDigit - tmpDigit / base * base) :: mulCarry (tmpDigit / base) cells
    else tmpDigit :: mulCarry 0 cells

/-- The number with the digits of a product. -/
def mulResult (x y : ObNumber) (digits : List Nat) : ObResult ObNumber :=
  let sumLen := (digits.rdropWhile (· == 0)).length
  let sumExp := x.d.getDecodeExp + y.d.getDecodeExp
  let resDigits := digits.take calcBufferSize
  let sign : Sign := if x.d.sign = y.d.sign then .positive else .negative
  let (sumExp, offset) := if resDigits.getD 0 0 ≠ 0 then (sumExp + 1, 0) else (sumExp, 1)
  let digitsLen := min (sumLen - offset) maxDecimalDigit
  assignChecked ({ x.d with sign := sign }.calcDescAndCheck sumExp digitsLen false)
    ((resDigits.drop offset).take digitsLen)

/-- `ObNumber::mul_v3`. -/
def mulV3 (doRounding : Bool) (x y : ObNumber) : ObResult ObNumber :=
  roundResult doRounding <|
    if x.isZero ∨ y.isZero then .ok zero
    else
      let xs := x.digits.take x.d.len
      let ys := y.digits.take y.d.len
      let sumDigits := List.replicate (y.d.len + x.d.len) 0
      -- the outer loop goes over the shorter number
      let sumDigits :=
        if x.d.len > y.d.len then mulRows xs ys 0 sumDigits else mulRows ys xs 0 sumDigits
      mulResult x y (mulCarry 0 sumDigits.reverse).reverse

/-! ### Dividing -/

/-- The number with the digits of a quotient, which are not all zero. -/
def divResult (x y : ObNumber) (quotient : List Int) : ObResult ObNumber :=
  let sumDigits := quotient.reverse.map Int.toNat
  let offset := (sumDigits.takeWhile (· == 0)).length
  let sumExp := x.d.getDecodeExp - y.d.getDecodeExp - offset
  let sumLen := min (quotient.length - offset) maxDecimalDigit
  let digits := ((sumDigits.drop offset).take sumLen).rdropWhile (· == 0)
  let sign : Sign := if x.d.sign = y.d.sign then .positive else .negative
  assignChecked ({ x.d with sign := sign }.calcDescAndCheck sumExp digits.length false) digits

/-- `ObNumber::div_v3`. -/
def divV3 (qscale : Nat) (doRounding : Bool) (x y : ObNumber) : Option (ObResult ObNumber) := do
  if y.isZero then return .error .divisionByZero
  else if x.isZero then return roundResult doRounding (.ok zero)
  else
    let extendLen := min (y.d.len + qscale) divBufferSize
    let dividend ← ObDivArray.fromDigits x.digits x.d.len extendLen
    let divisor ← ObDivArray.fromDigits y.digits y.d.len y.d.len
    let quotient ← ObDivArray.knuthDivV2 dividend divisor
    if ObDivArray.isZero quotient then return roundResult doRounding (.ok zero)
    else return roundResult doRounding (divResult x y quotient)

end ObNumber

end Andl.Number
