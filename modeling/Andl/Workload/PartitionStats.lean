import Andl.Lib.BinaryFloat

/-!
# Statistics of range partitions

`get_range_partitions` of `collect_partition_cardinalities.py` for a `DATE` column: the span from
the smallest to the largest value is cut into `n` ranges, and the rows of each are counted.
-/

namespace Andl.Workload

/-- A range partition: the range `[lo, hi)` and the number of its rows. -/
structure RangePartition where
  lo : ℤ
  hi : ℤ
  cardinality : ℕ
deriving DecidableEq

/-- The values that are not `NULL`. -/
def nonNull (rows : List (Option ℤ)) : List ℤ := rows.filterMap id

/-- `a / b`. -/
def trueDiv (a b : ℤ) : ℚ := roundBinary 53 ((a : ℚ) / b)

/-- `int(x)`. -/
def pyInt (x : ℚ) : ℤ := if 0 ≤ x then ⌊x⌋ else ⌈x⌉

/-- The bounds of the ranges. -/
def rangeBounds (lo hi : ℤ) (n : ℕ) : List ℤ :=
  let deltaDays := hi - lo
  if deltaDays ≤ 0 then [lo, hi]
  else ((List.range (n + 1)).map fun i : ℕ => lo + pyInt (trueDiv (deltaDays * i) n)).set n hi

/-- `SELECT COUNT(*) FROM table WHERE col >= lo AND col < hi`. -/
def countRows (rows : List (Option ℤ)) (lo hi : ℤ) : ℕ :=
  (nonNull rows).countP fun d => lo ≤ d ∧ d < hi

/-- `get_range_partitions`. -/
def getRangePartitions (rows : List (Option ℤ)) (n : ℕ) : List RangePartition :=
  match (nonNull rows).min?, (nonNull rows).max? with
  | some lo, some hi =>
    let bounds := rangeBounds lo hi n
    (bounds.zip bounds.tail).map fun b => ⟨b.1, b.2, countRows rows b.1 b.2⟩
  | _, _ => []

end Andl.Workload
