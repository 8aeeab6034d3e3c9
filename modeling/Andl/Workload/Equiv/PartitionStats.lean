import Andl.Lib.Intervals
import Andl.Workload.PartitionStats

/-!
# Which rows the range partitions count
-/

namespace Andl.Workload

open List

/-- The ordinals of the dates from year 1 to year 9999. -/
def IsDate (d : ℤ) : Prop := 1 ≤ d ∧ d ≤ 3652059

/-! ### The bounds -/

/-- A bound is between the smallest and the largest value. -/
theorem pyInt_trueDiv_bounds {delta : ℤ} {i n : ℕ} (hdelta : 0 ≤ delta) (hlt : delta < 2 ^ 53)
    (hn : 0 < n) (hi : i ≤ n) :
    0 ≤ pyInt (trueDiv (delta * i) n) ∧ pyInt (trueDiv (delta * i) n) ≤ delta := by
  have hnonneg : 0 ≤ trueDiv (delta * i) n := roundBinary_nonneg (by decide) _
  have hle : trueDiv (delta * i) n ≤ delta := by
    obtain ⟨k, rfl⟩ := Int.eq_ofNat_of_zero_le hdelta
    have hk : roundBinary 53 ((k : ℕ) : ℚ) = k := roundBinary_natCast (by exact_mod_cast hlt)
    rw [Int.cast_natCast, ← hk]
    apply roundBinary_mono (by decide)
    have hnq : (0 : ℚ) < n := by exact_mod_cast hn
    have hiq : (i : ℚ) ≤ n := by exact_mod_cast hi
    push_cast
    rw [div_le_iff₀ hnq]
    gcongr
  rw [pyInt, if_pos hnonneg]
  exact ⟨Int.floor_nonneg.mpr hnonneg, Int.floor_le_iff.mpr (by linarith)⟩

theorem pyInt_trueDiv_mono {delta : ℤ} {i j n : ℕ} (hdelta : 0 ≤ delta) (hij : i ≤ j) :
    pyInt (trueDiv (delta * i) n) ≤ pyInt (trueDiv (delta * j) n) := by
  have hnonneg (k : ℕ) : 0 ≤ trueDiv (delta * k) n := roundBinary_nonneg (by decide) _
  rw [pyInt, pyInt, if_pos (hnonneg i), if_pos (hnonneg j)]
  apply Int.floor_le_floor
  apply roundBinary_mono (by decide)
  have hijq : (i : ℚ) ≤ j := by exact_mod_cast hij
  push_cast
  gcongr

theorem rangeBounds_of_lt {lo hi : ℤ} {n : ℕ} (h : lo < hi) :
    rangeBounds lo hi n =
      (List.range n).map (fun i : ℕ => lo + pyInt (trueDiv ((hi - lo) * i) n)) ++ [hi] := by
  rw [rangeBounds, if_neg (by omega), range_succ, map_append]
  have hlen : n = ((List.range n).map
      fun i : ℕ => lo + pyInt (trueDiv ((hi - lo) * i) n)).length := by
    rw [length_map, length_range]
  rw [map_singleton, set_append_right _ _ hlen.ge, ← hlen, Nat.sub_self,
    set_cons_zero]

theorem isChain_rangeBounds {lo hi : ℤ} {n : ℕ} (h : lo ≤ hi) (hlt : hi - lo < 2 ^ 53)
    (hn : 0 < n) : (rangeBounds lo hi n).IsChain (· ≤ ·) := by
  rcases h.eq_or_lt with rfl | hlohi
  · rw [rangeBounds, if_pos (by omega)]
    exact isChain_pair.mpr (le_refl lo)
  · rw [rangeBounds_of_lt hlohi]
    apply List.Pairwise.isChain
    rw [pairwise_append]
    refine ⟨?_, pairwise_singleton _ _, ?_⟩
    · rw [pairwise_map]
      refine pairwise_lt_range.imp fun hij => ?_
      have := pyInt_trueDiv_mono (n := n) (show 0 ≤ hi - lo by omega) hij.le
      omega
    · intro b hb c hc
      obtain ⟨i, hi', rfl⟩ := mem_map.mp hb
      rw [mem_singleton] at hc
      have := (pyInt_trueDiv_bounds (show 0 ≤ hi - lo by omega) hlt hn
        (mem_range.mp hi').le).2
      omega

/-- The bounds start with the smallest value and end with the largest. -/
theorem exists_rangeBounds_eq_cons {lo hi : ℤ} {n : ℕ} (h : lo ≤ hi) (hn : 0 < n) :
    ∃ bs, rangeBounds lo hi n = lo :: bs ∧ bs ≠ [] ∧
      (lo :: bs).getLast (cons_ne_nil lo bs) = hi := by
  rcases h.eq_or_lt with rfl | hlohi
  · exact ⟨[lo], by rw [rangeBounds, if_pos (by omega)], by simp, rfl⟩
  · obtain ⟨m, rfl⟩ := Nat.exists_eq_add_one.mpr hn
    have hzero : lo + pyInt (trueDiv ((hi - lo) * (0 : ℕ)) (m + 1 : ℕ)) = lo := by
      simp [trueDiv, roundBinary_zero, pyInt]
    rw [rangeBounds_of_lt hlohi, range_succ_eq_map, map_cons, hzero]
    exact ⟨_, cons_append, by simp, by simp⟩

/-! ### The partitions -/

/-- Consecutive ranges of dates from the smallest value on. -/
structure ConsecutiveRanges (rows : List (Option ℤ)) (partitions : List RangePartition) :
    Prop where
  /-- Each partition is a range of dates. -/
  range : ∀ p ∈ partitions, p.lo ≤ p.hi
  /-- Each starts where the one before it ends. -/
  consecutive : partitions.IsChain fun p q => p.hi = q.lo
  /-- The first one starts at the smallest value. -/
  starts : partitions.head?.map RangePartition.lo = (nonNull rows).min?

/-- The range partitions account for the rows. -/
structure AccountsForRows (rows : List (Option ℤ)) (partitions : List RangePartition) : Prop
    extends ConsecutiveRanges rows partitions where
  /-- Every value is in exactly one. -/
  exactlyOne : ∀ d ∈ nonNull rows, partitions.countP (fun p => p.lo ≤ d ∧ d < p.hi) = 1
  /-- The cardinalities add up to the number of values. -/
  total : (partitions.map RangePartition.cardinality).sum = (nonNull rows).length

variable {rows : List (Option ℤ)} {n : ℕ}

/-- The partition of a pair of bounds. -/
def rangePartition (rows : List (Option ℤ)) (b : ℤ × ℤ) : RangePartition :=
  ⟨b.1, b.2, countRows rows b.1 b.2⟩

/-- Bounds from the smallest value to the largest one, in ascending order. -/
structure Spans (rows : List (Option ℤ)) (lo hi : ℤ) (bs : List ℤ) : Prop where
  min : (nonNull rows).min? = some lo
  max : (nonNull rows).max? = some hi
  isChain : (lo :: bs).IsChain (· ≤ ·)
  ne_nil : bs ≠ []
  last : (lo :: bs).getLast (cons_ne_nil lo bs) = hi

theorem getRangePartitions_of_nil (h : nonNull rows = []) : getRangePartitions rows n = [] := by
  rw [getRangePartitions, h]
  rfl

/-- A column with a value is cut into the intervals between its bounds. -/
theorem exists_spans (hdates : ∀ d ∈ nonNull rows, IsDate d) (hn : 0 < n) (h : nonNull rows ≠ []) :
    ∃ lo hi bs, Spans rows lo hi bs ∧
      getRangePartitions rows n = (intervals (lo :: bs)).map (rangePartition rows) := by
  obtain ⟨lo, hmin⟩ := Option.isSome_iff_exists.mp (isSome_min?_of_ne_nil h)
  obtain ⟨hi, hmax⟩ := Option.isSome_iff_exists.mp (isSome_max?_of_ne_nil h)
  have hlo := min?_mem hmin
  have hhi := max?_mem hmax
  have hle : lo ≤ hi := (min?_eq_some_iff.mp hmin).2 hi hhi
  have hlt : hi - lo < 2 ^ 53 := by
    have := (hdates lo hlo).1
    have := (hdates hi hhi).2
    omega
  obtain ⟨bs, hbs, hne, hlast⟩ := exists_rangeBounds_eq_cons hle hn
  refine ⟨lo, hi, bs, ⟨hmin, hmax, hbs ▸ isChain_rangeBounds hle hlt hn, hne, hlast⟩, ?_⟩
  rw [getRangePartitions, hmin, hmax]
  show ((rangeBounds lo hi n).zip (rangeBounds lo hi n).tail).map _ = _
  rw [hbs]
  rfl

namespace Spans

variable {lo hi : ℤ} {bs : List ℤ}

theorem consecutiveRanges (h : Spans rows lo hi bs) :
    ConsecutiveRanges rows ((intervals (lo :: bs)).map (rangePartition rows)) where
  range := by
    intro p hp
    obtain ⟨I, hI, rfl⟩ := mem_map.mp hp
    exact rel_of_mem_intervals h.isChain hI
  consecutive := (isChain_map _).mpr (isChain_intervals (lo :: bs))
  starts := by
    obtain ⟨c, cs, rfl⟩ := exists_cons_of_ne_nil h.ne_nil
    rw [h.min]
    rfl

theorem exists_larger_iff (h : Spans rows lo hi bs) {d : ℤ} :
    (∃ e ∈ nonNull rows, d < e) ↔ d < hi := by
  constructor
  · rintro ⟨e, he, hlt⟩
    exact hlt.trans_le ((max?_eq_some_iff.mp h.max).2 e he)
  · exact fun hlt => ⟨hi, max?_mem h.max, hlt⟩

/-- **Of the rows, those of the largest value are in no partition**, each other one is in exactly
one. -/
theorem countP_partitions (h : Spans rows lo hi bs) {d : ℤ} (hd : d ∈ nonNull rows) :
    ((intervals (lo :: bs)).map (rangePartition rows)).countP (fun p => p.lo ≤ d ∧ d < p.hi) =
      if d < hi then 1 else 0 := by
  have hlo : lo ≤ d := (min?_eq_some_iff.mp h.min).2 d hd
  have hcount := countP_intervals h.isChain d
  rw [h.last] at hcount
  simp only [hlo, true_and] at hcount
  rw [countP_map, ← hcount]
  rfl

/-- All rows are counted but those of the largest value. -/
theorem sum_cardinality (h : Spans rows lo hi bs) :
    (((intervals (lo :: bs)).map (rangePartition rows)).map RangePartition.cardinality).sum =
      (nonNull rows).countP (· < hi) := by
  have hsum := sum_countP_intervals h.isChain (nonNull rows)
  rw [h.last] at hsum
  rw [map_map]
  refine hsum.trans (countP_congr fun d hd => ?_)
  have hlo : lo ≤ d := (min?_eq_some_iff.mp h.min).2 d hd
  simp [hlo]

end Spans

theorem accountsForRows_nil (h : nonNull rows = []) : AccountsForRows rows [] where
  range := by simp
  consecutive := isChain_nil
  starts := by rw [h]; rfl
  exactlyOne := by simp [h]
  total := by rw [h]; rfl

/-- **The partitions account for the rows** of a column only if it has no value: they are
consecutive, but a value is in exactly one of them if and only if there is a larger value. -/
theorem accountsForRows_iff (rows : List (Option ℤ)) (n : ℕ)
    (hdates : ∀ d ∈ nonNull rows, IsDate d) (hn : 1 ≤ n) :
    ConsecutiveRanges rows (getRangePartitions rows n) ∧
      (∀ d ∈ nonNull rows,
        (getRangePartitions rows n).countP (fun p => p.lo ≤ d ∧ d < p.hi) = 1 ↔
          ∃ e ∈ nonNull rows, d < e) ∧
      ((getRangePartitions rows n).map RangePartition.cardinality).sum =
        (nonNull rows).countP (fun d => ∃ e ∈ nonNull rows, d < e) ∧
      (AccountsForRows rows (getRangePartitions rows n) ↔ nonNull rows = []) := by
  by_cases hnil : nonNull rows = []
  · rw [getRangePartitions_of_nil hnil]
    have hacc := accountsForRows_nil hnil
    exact ⟨hacc.toConsecutiveRanges, by simp [hnil], by simp [hnil], fun _ => hnil, fun _ => hacc⟩
  · obtain ⟨lo, hi, bs, hspans, heq⟩ := exists_spans hdates hn hnil
    have hmax := max?_mem hspans.max
    rw [heq]
    refine ⟨hspans.consecutiveRanges, fun d hd => ?_, ?_, fun hacc => ?_, fun h => absurd h hnil⟩
    · rw [hspans.countP_partitions hd, hspans.exists_larger_iff]
      split_ifs with hlt
      · exact iff_of_true rfl hlt
      · exact iff_of_false (by decide) hlt
    · rw [hspans.sum_cardinality]
      refine countP_congr fun d _ => ?_
      simp only [decide_eq_true_eq]
      exact hspans.exists_larger_iff.symm
    · -- the largest value is in no partition
      have hone := hacc.exactlyOne hi hmax
      rw [hspans.countP_partitions hmax, if_neg (lt_irrefl hi)] at hone
      cases hone

/-- Three days in two ranges. -/
theorem accountsForRows_iff_threeDays :
    ((getRangePartitions [some 1, none, some 2, some 3] 2).map RangePartition.cardinality).sum = 2 ∧
      ¬ AccountsForRows [some 1, none, some 2, some 3]
        (getRangePartitions [some 1, none, some 2, some 3] 2) := by
  obtain ⟨-, -, hsum, hacc⟩ := accountsForRows_iff [some 1, none, some 2, some 3] 2
    (by simp [nonNull, IsDate]) (by decide)
  refine ⟨hsum.trans (by decide), ?_⟩
  rw [hacc]
  simp [nonNull]

/-- **A column of one row:** its only partition is empty. -/
theorem not_accountsForRows_oneRow :
    ¬ AccountsForRows [some 1] (getRangePartitions [some 1] 1) := by
  intro h
  have hone := h.exactlyOne 1 (by simp [nonNull])
  have hparts : getRangePartitions [some 1] 1 = [⟨1, 1, 0⟩] := rfl
  rw [hparts] at hone
  revert hone
  decide

end Andl.Workload
