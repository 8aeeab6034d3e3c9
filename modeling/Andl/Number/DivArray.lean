import Andl.Number.ObNumber

/-!
# The arrays of long division

`ObDivArray` holds the digits of a natural number, the least significant one first, in a fixed array
of `OB_REM_BUFFER_SIZE` cells.
-/

namespace Andl.Number

/-- `ObNumber::OB_REM_BUFFER_SIZE`. -/
def remBufferSize : Nat := 32

namespace ObDivArray

/-- The cells, if all of them are in the array. -/
def inBuffer (cells : List Int) : Option (List Int) :=
  if cells.length ≤ remBufferSize then some cells else none

/-- `ObDivArray::from`: the digits, with zeros after them up to `size` digits. -/
def fromDigits (digits : List Nat) (len size : Nat) : Option (List Int) :=
  let size := max size len
  inBuffer (List.replicate (size - len) 0 ++ ((digits.take len).map Int.ofNat).reverse)

/-- `ObDivArray::is_zero`. -/
def isZero (a : List Int) : Bool := a.all (· == 0)

/-- `ObDivArray::is_neg`: the sign of the first cell from the top that is not zero. -/
def isNeg (a : List Int) : Bool :=
  match a.reverse.find? (· ≠ 0) with
  | some d => d < 0
  | none => false

/-- `while (carry != 0)`; a cell of 64 bits has at most three digits. -/
def carryOut : (fuel : Nat) → (carry : Int) → List Int
  | 0, _ => []
  | fuel + 1, carry =>
    if carry = 0 then []
    else (carry - carry.tdiv base * base) :: carryOut fuel (carry.tdiv base)

/-! ### Adding, subtracting, multiplying -/

/-- The cells of two arrays side by side. -/
def zipCells (a b : List Int) : List (Int × Int) :=
  let len := max a.length b.length
  (a ++ List.replicate (len - a.length) 0).zip (b ++ List.replicate (len - b.length) 0)

/-- The loop of `ObDivArray::add`. -/
def addLoop (carry : Int) : List (Int × Int) → List Int
  | [] => carryOut 3 carry
  | (x, y) :: cells =>
    let c := carry + x + y
    if c ≥ base then (c - c.tdiv base * base) :: addLoop (c.tdiv base) cells
    else c :: addLoop 0 cells

/-- `ObDivArray::add`. -/
def add (a b : List Int) : Option (List Int) := inBuffer (addLoop 0 (zipCells a b))

/-- The loop of `ObDivArray::sub`. -/
def subLoop (borrow : Int) : List (Int × Int) → List Int
  | [] => if borrow = -1 then [-1] else []
  | (x, y) :: cells =>
    let c := borrow + x - y
    if c < 0 then (c + base) :: subLoop (-1) cells
    else c :: subLoop 0 cells

/-- `ObDivArray::sub`. -/
def sub (a b : List Int) : Option (List Int) := inBuffer (subLoop 0 (zipCells a b))

/-- The loop of `ObDivArray::mul`. -/
def mulLoop (b carry : Int) : List Int → List Int
  | [] => carryOut 3 carry
  | d :: cells =>
    let temp := d * b + carry
    if temp ≥ base then (temp - temp.tdiv base * base) :: mulLoop b (temp.tdiv base) cells
    else temp :: mulLoop b 0 cells

/-- `ObDivArray::mul`. -/
def mul (a : List Int) (b : Int) : Option (List Int) := inBuffer (mulLoop b 0 a)

/-- The loop of `ObDivArray::div` by a single digit, over the cells from the top. -/
def divLoop (b remainder : Int) : List Int → List Int
  | [] => []
  | d :: cells =>
    let temp := remainder * base + d
    temp.tdiv b :: divLoop b (temp - temp.tdiv b * b) cells

/-- `ObDivArray::div` by a single digit. -/
def divDigit (a : List Int) (b : Int) : List Int := (divLoop b 0 a.reverse).reverse

/-! ### Long division -/

/-- The factor that makes the first digit of the divisor at least half the base. -/
def normalizer (b : List Int) : Int := (base : Int).tdiv (b.getD (b.length - 1) 0 + 1)

/-- Step D3: the estimate of a digit of the quotient, corrected once. -/
def estimate (a b : List Int) (n j : Nat) : Int :=
  let tmpValue := a.getD (j + n) 0 * base + a.getD (j + n - 1) 0
  let qq := tmpValue.tdiv (b.getD (n - 1) 0)
  let rr := tmpValue.tmod (b.getD (n - 1) 0)
  if qq = base ∨ (2 ≤ n ∧ qq * b.getD (n - 2) 0 > base * rr + a.getD (j + n - 2) 0) then qq - 1
  else qq

/-- The loop over the digits `j = count - 1, .., 0` of the quotient. -/
def knuthLoop (step : Nat → List Int → List Int → Option (List Int × List Int)) :
    (count : Nat) → (a q : List Int) → Option (List Int × List Int)
  | 0, a, q => some (a, q)
  | j + 1, a, q => do
    let (a, q) ← step j a q
    knuthLoop step j a q

/-- Steps D3 to D6 of `ObDivArray::knuth_div`. -/
def knuthStep (b : List Int) (n j : Nat) (a q : List Int) : Option (List Int × List Int) := do
  let qq := estimate a b n j
  let tmpCt := (a.drop j).take (n + 1)
  let tmpDaQq ← mul b qq
  let tmpCf ← sub tmpCt tmpDaQq
  if isNeg tmpCf then
    let tmpCf ← add tmpCf b
    let a ← inBuffer (a.take j ++ tmpCf ++ a.drop (j + tmpCf.length))
    return (a, q.set j (qq - 1))
  else
    let a ← inBuffer (a.take j ++ tmpCf ++ a.drop (j + tmpCf.length))
    return (a, q.set j qq)

/-- `ObDivArray::knuth_div`: the quotient, and the remainder times `normalizer`. -/
def knuthDiv (a b : List Int) : Option (List Int × List Int) := do
  let n := b.length
  let m := a.length + 1 - b.length
  let d := normalizer b
  let a ← mul a d
  let b ← mul b d
  -- the two cells above the dividend are cleared where the product has not filled them
  let a ← inBuffer (a ++ List.replicate (m + n + 1 - a.length) 0)
  let (a, q) ← knuthLoop (knuthStep b n) (m + 1) a (List.replicate (m + 1) 0)
  return (q.take m, a.take n)

/-! ### Long division in place -/

/-- The first loop of `ObDivArray::knuth_d4`. -/
def d4Sub (qq borrow : Int) : List (Int × Int) → List Int × Int
  | [] => ([], borrow)
  | (x, y) :: cells =>
    let tmpValue := x - y * qq + borrow
    if tmpValue < 0 ∨ tmpValue ≥ base then
      let borrow := (tmpValue + 1).tdiv base - 1
      let (cs, rest) := d4Sub qq borrow cells
      ((tmpValue - borrow * base) :: cs, rest)
    else
      let (cs, rest) := d4Sub qq 0 cells
      (tmpValue :: cs, rest)

/-- The second loop of `ObDivArray::knuth_d4`. -/
def d4AddBack (carry : Int) : List (Int × Int) → List Int
  | [] => []
  | (x, y) :: cells =>
    let c := x + (y + carry)
    if c ≥ base then (c - c.tdiv base * base) :: d4AddBack (c.tdiv base) cells
    else c :: d4AddBack 0 cells

/-- `ObDivArray::knuth_d4` on the cells of the dividend that a step works on. -/
def knuthD4 (cells b : List Int) (qq : Int) : List Int × Int :=
  let (cs, borrow) := d4Sub qq 0 (cells.zip b)
  if borrow < 0 then
    let top := cs.length - 1
    let cs := cs.set top (cs.getD top 0 + borrow * base)
    (d4AddBack 0 (cs.zip b), qq - 1)
  else (cs, qq)

/-- Steps D3 to D6 of `ObDivArray::knuth_div_v2`. -/
def knuthStepV2 (b : List Int) (n j : Nat) (a q : List Int) : Option (List Int × List Int) := do
  let qq := estimate a b n j
  if qq ≠ 0 then
    let (cs, qq) := knuthD4 ((a.drop j).take (n + 1)) (b ++ [0]) qq
    return (a.take j ++ cs ++ a.drop (j + (n + 1)), q.set j qq)
  else return (a, q.set j qq)

/-- `ObDivArray::knuth_div_v2`. -/
def knuthDivV2 (a b : List Int) : Option (List Int) := do
  let n := b.length
  let m := a.length + 1 - b.length
  let d := normalizer b
  let a ← mul a d
  let b ← mul b d
  -- the two cells above the dividend are cleared where the product has not filled them
  let a ← inBuffer (a ++ List.replicate (m + n + 1 - a.length) 0)
  let (_, q) ← knuthLoop (knuthStepV2 b n) (m + 1) a (List.replicate (m + 1) 0)
  return q.take m

/-- `ObDivArray::rem`. -/
def rem (a b : List Int) : Option (List Int) := do
  let (_, r) ← knuthDiv a b
  return divDigit r (normalizer b)

end ObDivArray

end Andl.Number
