import Andl.Common.Member

/-!
# Decimal numbers

`ObNumber` is a decimal floating point number: digits in base `10 ^ 9`, the most significant one
first, and a descriptor with the number of digits, the sign and the exponent of the first digit.
-/

namespace Andl.Number

/-- `ObNumber::BASE`. -/
def base : Nat := 1000000000

/-- `ObNumber::MAX_STORE_LEN`. -/
def maxStoreLen : Nat := 9

/-- `ObNumber::EXP_ZERO`. -/
def expZero : Nat := 0x40

/-- `ObNumber::POSITIVE_EXP_BOUNDARY`. -/
def positiveExpBoundary : Nat := 0xc0

/-- `ObNumber::NEGATIVE_EXP_BOUNDARY`. -/
def negativeExpBoundary : Nat := 0x40

/-- The bit `sign_` of a descriptor. -/
inductive Sign where
  | negative
  | positive
deriving DecidableEq

/-- `ObNumberDesc`; `exp` has seven bits. -/
@[ext] structure ObNumberDesc where
  len : Nat
  exp : Nat
  sign : Sign
deriving DecidableEq

namespace ObNumberDesc

/-- `se_`: the sign and the exponent in one byte. -/
def se (d : ObNumberDesc) : Nat :=
  match d.sign with
  | .negative => d.exp
  | .positive => 0x80 + d.exp

/-- A descriptor with another `se_`. -/
def setSe (d : ObNumberDesc) (se : Nat) : ObNumberDesc :=
  { d with
    exp := se % 0x80
    sign := if se / 0x80 = 0 then .negative else .positive }

/-- `ObNumber::get_decode_exp`. -/
def getDecodeExp (d : ObNumberDesc) : Int :=
  if d.sign = .negative ∧ d.exp ≠ expZero then ((0x7f - d.exp : Nat) : Int) + 1 - expZero
  else (d.exp : Int) - expZero

/-- `++exp_`. -/
def incExp (d : ObNumberDesc) : ObNumberDesc := { d with exp := (d.exp + 1) % 0x80 }

/-- `--exp_`. -/
def decExp (d : ObNumberDesc) : ObNumberDesc := { d with exp := (d.exp + 0x7f) % 0x80 }

/-- `(0x7f & ~exp_) + 1`: the exponent as a number of the other sign has it. -/
def complementExp (exp : Nat) : Nat := (0x7f - exp + 1) % 0x80

/-- `ObNumber::is_lt_1_`. -/
def isLt1 (d : ObNumberDesc) : Bool :=
  (d.sign = .negative ∧ expZero < d.exp) ∨ (d.sign = .positive ∧ 0 < d.exp ∧ expZero > d.exp)

/-- `ObNumber::is_ge_1_`. -/
def isGe1 (d : ObNumberDesc) : Bool :=
  (d.sign = .negative ∧ expZero ≥ d.exp) ∨ (d.sign = .positive ∧ expZero ≤ d.exp)

/-- `ObNumber::MAX_INTEGER_EXP`. -/
def maxIntegerExp : Nat := 14

/-- `ObNumber::MAX_DECIMAL_EXP`. -/
def maxDecimalExp : Nat := 15

/-- `ObNumber::exp_check_`. -/
def expCheck (d : ObNumberDesc) (isOracleMode : Bool) : ObResult Unit :=
  let exp := ((d.exp : Int) - expZero).natAbs
  if d.isGe1 ∧ (if isOracleMode then maxIntegerExp ≤ exp else maxIntegerExp < exp) then
    .error .integerPrecisionOverflow
  else if maxDecimalExp < exp ∧ d.isLt1 then .error .decimalPrecisionOverflow
  else .ok ()

/-- The descriptor that `ObNumber::calc_desc_and_check` fills in. -/
def calcDesc (baseDesc : ObNumberDesc) (exp : Int) (len : Nat) : ObNumberDesc :=
  let e := ((expZero + exp) % 0x80).toNat
  { len := len
    exp := if baseDesc.sign = .negative then complementExp e else e
    sign := baseDesc.sign }

/-- `ObNumber::calc_desc_and_check`. -/
def calcDescAndCheck (baseDesc : ObNumberDesc) (exp : Int) (len : Nat) (isOracleMode : Bool) :
    ObResult ObNumberDesc := do
  let desc := calcDesc baseDesc exp len
  desc.expCheck isOracleMode
  return desc

/-- `ObNumber::exp_rem_`. -/
def expRem (d1 d2 : ObNumberDesc) : ObNumberDesc :=
  { d2 with
    sign := d1.sign
    exp := if d1.sign ≠ d2.sign then complementExp d2.exp else d2.exp }

end ObNumberDesc

/-- `ObNumber`. -/
@[ext] structure ObNumber where
  d : ObNumberDesc
  digits : List Nat

namespace ObNumber

/-- `ObNumber::is_zero`. -/
def isZero (x : ObNumber) : Bool := x.d.len = 0

/-- `ObNumber::set_zero`. -/
def setZero (x : ObNumber) : ObNumber :=
  { x with d := { len := 0, exp := 0, sign := .positive } }

/-! ### Comparing -/

/-- `ObNumber::uint32cmp`. -/
def uint32cmp (s1 s2 : List Nat) : Nat → Int
  | 0 => 0
  | n + 1 =>
    match s1, s2 with
    | a :: s1, b :: s2 => if a < b then -1 else if a > b then 1 else uint32cmp s1 s2 n
    | _, _ => 0

/-- `ObNumber::uint32equal`. -/
def uint32equal (s1 s2 : List Nat) (n : Nat) : Bool := s1.take n = s2.take n

/-- `ObNumber::is_equal`. -/
def isEqual (x y : ObNumber) : Bool :=
  if x.d.se = y.d.se ∧ x.d.len = y.d.len then uint32equal x.digits y.digits x.d.len else false

/-- `ObNumber::compare`. -/
def compare (x y : ObNumber) : Int :=
  if x.d.se = y.d.se then
    let ret :=
      if x.d.len = y.d.len then uint32cmp x.digits y.digits x.d.len
      else if x.d.len < y.d.len then
        if uint32cmp x.digits y.digits x.d.len = 0 then -1
        else uint32cmp x.digits y.digits x.d.len
      else
        if uint32cmp x.digits y.digits y.d.len = 0 then 1
        else uint32cmp x.digits y.digits y.d.len
    if x.d.sign = .negative then -ret else ret
  else if x.d.se < y.d.se then -1
  else 1

/-- `ObNumber::negate`. -/
def negate (x : ObNumber) : ObNumber :=
  if x.isZero then x.setZero
  else
    { x with
      d :=
        { x.d with
          sign := if x.d.sign = .positive then .negative else .positive
          exp := ObNumberDesc.complementExp x.d.exp } }

/-- `ObNumber::abs_compare`. -/
def absCompare (x y : ObNumber) : Int :=
  match x.d.sign, y.d.sign with
  | .positive, .positive => compare x y
  | .positive, .negative => compare x y.negate
  | .negative, .negative => -compare x y
  | .negative, .positive => compare x.negate y

/-- A new `ObNumber`. -/
def zero : ObNumber := ⟨{ len := 0, exp := 0, sign := .positive }, []⟩

/-- `ObNumber::deep_copy_v3`. -/
def deepCopyV3 (x : ObNumber) : ObNumber :=
  if x.d.len = 0 then zero else ⟨x.d, x.digits.take x.d.len⟩

/-! ### Rounding to an integer -/

/-- `for (i = start; i < start + n; ++i) digits_[i] = 0`. -/
def clearDigits (digits : List Nat) (start : Nat) : (n : Nat) → List Nat
  | 0 => digits
  | n + 1 => (clearDigits digits start n).set (start + n) 0

/-- Adds one to the digits before index `n`. -/
def addOne (digits : List Nat) : (n : Nat) → List Nat
  | 0 => digits
  | i + 1 =>
    if base - 1 ≠ digits.getD i 0 then digits.set i (digits.getD i 0 + 1)
    else addOne (digits.set i 0) i

/-- `for (i = n - 1; i >= 0; --i) digits_[i + 1] = digits_[i]`. -/
def shiftDigits (digits : List Nat) : (n : Nat) → List Nat
  | 0 => digits
  | i + 1 => shiftDigits (digits.set (i + 1) (digits.getD i 0)) i

/-- The number of digits before the point, or `-1` if there is none. -/
def intLen (d : ObNumberDesc) : Int :=
  let n : Int :=
    match d.sign with
    | .positive => (d.se : Int) - positiveExpBoundary
    | .negative => (negativeExpBoundary : Int) - d.se
  if n ≥ 0 then n + 1 else -1

/-- `ObNumber::floor`. -/
def floor (x : ObNumber) (scale : Int) : ObResult ObNumber :=
  if scale ≠ 0 then .error .invalidArgument
  else if x.isZero then .ok x
  else if x.digits = [] then .error .notInit
  else
    let n := intLen x.d
    if 0 < n ∧ n < x.d.len then
      let n := n.toNat
      let digits := clearDigits x.digits n (x.d.len - n)
      let (d, digits) :=
        match x.d.sign with
        | .positive => (x.d, digits)
        | .negative =>
          let digits := addOne digits n
          if digits.getD 0 0 = 0 then (x.d.decExp, (shiftDigits digits n).set 0 1)
          else (x.d, digits)
      .ok ⟨if n < maxStoreLen then { d with len := n } else d, digits⟩
    else if n = -1 then
      let digits := clearDigits x.digits 0 x.d.len
      match x.d.sign with
      | .positive => .ok (setZero ⟨x.d, digits⟩)
      | .negative => .ok ⟨{ x.d.setSe 0x40 with len := 1 }, digits.set 0 1⟩
    else .ok x

/-- `ObNumber::ceil`. -/
def ceil (x : ObNumber) (scale : Int) : ObResult ObNumber :=
  if scale ≠ 0 then .error .invalidArgument
  else if x.isZero then .ok x
  else if x.digits = [] then .error .notInit
  else
    let n := intLen x.d
    if 0 < n ∧ n < x.d.len then
      let n := n.toNat
      let digits := clearDigits x.digits n (x.d.len - n)
      let d := { x.d with len := n }
      match x.d.sign with
      | .positive =>
        let digits := addOne digits n
        if digits.getD 0 0 = 0 then
          .ok ⟨{ d with len := n + 1 }.incExp, (shiftDigits digits n).set 0 1⟩
        else .ok ⟨d, digits⟩
      | .negative => .ok ⟨d, digits⟩
    else if n < 0 then
      let digits := clearDigits x.digits 0 x.d.len
      match x.d.sign with
      | .positive => .ok ⟨{ x.d.setSe 0xc0 with len := 1 }, digits.set 0 1⟩
      | .negative => .ok (setZero ⟨x.d, digits⟩)
    else .ok x

end ObNumber

end Andl.Number
