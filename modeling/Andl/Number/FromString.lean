import Andl.Number.Arith

/-!
# Decimal numbers from strings

`ObNumber::from_v3_` in MySQL mode: `find_point_range_` scans the string for its sign, its point and
its end, `construct_digits_` turns groups of nine characters into the digits of a number, ten at
most, and the result is rounded and its exponent checked.
-/

namespace Andl.Number

/-- `isspace`. -/
def isspace (c : Char) : Bool := c == ' ' || ('\t' ≤ c && c ≤ '\r')

/-- The comparison of a character with `'0'` and `'9'`. -/
def isDigitChar (c : Char) : Bool := '0' ≤ c && c ≤ '9'

/-- `for (; ptr != fin && p(*ptr); ++ptr)`. -/
def skip (p : Char → Bool) (str : List Char) (ptr fin : Nat) : Nat :=
  ptr + (((str.take fin).drop ptr).takeWhile p).length

/-- `for (; ptr != fin && p(*(fin - 1)); --fin)`. -/
def skipBack (p : Char → Bool) (str : List Char) (ptr fin : Nat) : Nat :=
  fin - (((str.take fin).drop ptr).rtakeWhile p).length

/-- The results of `ObNumber::find_point_range_`. -/
structure PointRange where
  startIdx : Int := -1
  floatingPoint : Int := -1
  endIdx : Int := -1
  negative : Bool := false
  warning : Option ObError := none
deriving DecidableEq

/-- The part of `ObNumber::find_point_range_` behind the sign. -/
def findDigits (str : List Char) (negative : Bool) (ptr fin : Nat) : PointRange :=
  let ptr := skip (· == '0') str ptr fin
  if ptr = fin then
    { startIdx := (fin : Int) - 1, floatingPoint := (fin : Int) - 1, endIdx := (fin : Int) - 1,
      negative }
  else
    let point := skip isDigitChar str ptr fin
    if point ≠ fin ∧ str.getD point ' ' = '.' then
      let last := skip isDigitChar str (point + 1) fin
      { startIdx := ptr, floatingPoint := point, endIdx := last, negative,
        warning := if last ≠ fin then some .invalidNumeric else none }
    else
      { startIdx := ptr, floatingPoint := point, endIdx := point, negative,
        warning := if point ≠ fin then some .invalidNumeric else none }

/-- `ObNumber::find_point_range_`. -/
def findPointRange (str : List Char) : ObResult PointRange :=
  if str.length = 0 then .error .invalidArgument
  else
    let ptr := skip isspace str 0 str.length
    let fin := skipBack isspace str ptr str.length
    if ptr = fin then .ok { warning := some .invalidNumeric }
    else if str.getD ptr ' ' = '+' then .ok (findDigits str false (ptr + 1) fin)
    else if str.getD ptr ' ' = '-' then .ok (findDigits str true (ptr + 1) fin)
    else .ok (findDigits str false ptr fin)

/-- `ObFastAtoi::atoi_positive_unchecked`. -/
def atoi (s : List Char) : Nat := s.foldl (fun v c => v * 10 + (c.toNat - 48)) 0

/-- The characters between two pointers. -/
def slice (str : List Char) (ptr fin : Int) : List Char := (str.take fin.toNat).drop ptr.toNat

/-- The first loop of `ObNumber::construct_digits_`. -/
def integerGroups : (n step : Nat) → (s : List Char) → List Nat
  | 0, _, _ => []
  | n + 1, step, s =>
    if s = [] then []
    else atoi (s.take step) :: integerGroups n maxStoreLen (s.drop step)

/-- `POWS` of `ObNumber::construct_digits_`. -/
def constructPows : List Nat :=
  [1, 10, 100, 1000, 10000, 100000, 1000000, 10000000, 100000000, 1000000000, 10000000000]

/-- The second loop of `ObNumber::construct_digits_`. -/
def decimalGroups : (n step : Nat) → (s : List Char) → List Nat
  | 0, _, _ => []
  | n + 1, step, s =>
    if s = [] then []
    else
      (if step < s.length then atoi (s.take step)
        else atoi s * constructPows.getD (step - s.length) 0) ::
      decimalGroups n maxStoreLen (s.drop step)

/-- `ObNumber::construct_digits_`, with room for `len` digits. -/
def constructDigits (str : List Char) (r : PointRange) (len : Nat) : List Nat × Int :=
  let integer := slice str r.startIdx r.floatingPoint
  let (digits, exp, hasIntegerPart) : List Nat × Int × Bool :=
    if r.startIdx < r.floatingPoint then
      (integerGroups len ((integer.length - 1) % maxStoreLen + 1) integer,
        (((integer.length - 1) / maxStoreLen + 1 : Nat) : Int) - 1, true)
    else ([], 0, false)
  let (digits, exp) : List Nat × Int :=
    if digits.length < len ∧ r.floatingPoint + 1 < r.endIdx then
      let decimal := slice str (r.floatingPoint + 1) r.endIdx
      if hasIntegerPart then
        (digits ++ decimalGroups (len - digits.length) maxStoreLen decimal, exp)
      else
        let zeros := (decimal.takeWhile (· == '0')).length
        (digits ++ decimalGroups (len - digits.length) (maxStoreLen - zeros % maxStoreLen)
          (decimal.drop zeros), -((zeros / maxStoreLen + 1 : Nat) : Int))
    else (digits, exp)
  (digits.rdropWhile (· == 0), exp)

namespace ObNumber

/-- The number of largest digits that stands for one that is too large. -/
def saturate (x : ObNumber) (len : Nat) : ObNumber :=
  let exp := match x.d.sign with
    | .negative => 2 + expZero - ObNumberDesc.maxIntegerExp
    | .positive => ObNumberDesc.maxIntegerExp - 2 + expZero
  ⟨{ x.d with exp := exp }, List.replicate len (base - 1)⟩

/-- `ObNumber::from_v3_`: the number and the warning. -/
def fromV3 (doRounding : Bool) (str : List Char) : ObResult (ObNumber × Option ObError) := do
  let range ← findPointRange str
  let (digits, exp) := constructDigits str range calcBufferSize
  let len := digits.length
  let sign := if range.negative then Sign.negative else .positive
  let d := ObNumberDesc.calcDesc { len := 0, exp := 0, sign } exp len
  if len = 0 then return (zero, range.warning)
  else
    let x : ObNumber := ⟨d, digits⟩
    let x := if doRounding then x.roundScaleV3 floatingScale true else x
    match x.d.expCheck false with
    | .ok () => return (x, range.warning)
    | .error .decimalPrecisionOverflow => return (x.setZero, range.warning)
    | .error .integerPrecisionOverflow => return (x.saturate len, range.warning)
    | .error e => .error e

end ObNumber

end Andl.Number
