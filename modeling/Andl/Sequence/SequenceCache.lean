import Andl.Common.Member

/-!
# The cache of a sequence

`ObSequenceCache::nextval` of `share/sequence`, for one cache item.
-/

namespace Andl.Sequence

/-- The options of a sequence. -/
structure ObSequenceOption where
  minValue : ℤ
  maxValue : ℤ
  startWith : ℤ
  incrementBy : ℤ
  cacheSize : ℤ
  cycleFlag : Bool
  orderFlag : Bool
  /-- `OLD_ACTION == cache_order_mode`. -/
  oldAction : Bool
deriving DecidableEq

/-- A range of values, from `start` up to but without `stop`. -/
structure SequenceCacheNode where
  start : ℤ
  stop : ℤ
deriving DecidableEq

/-- An item of the cache. -/
structure ObSequenceCacheItem where
  currNode : SequenceCacheNode := ⟨0, 0⟩
  prefetchNode : SequenceCacheNode := ⟨0, 0⟩
  prefetching : Bool := false
  withPrefetchNode : Bool := false
  baseOnLastNumber : Bool := false
  lastNumber : ℤ := 0
deriving DecidableEq

/-- The row of the sequence in `__all_sequence_value`, and the number of `next_batch` calls so far.
-/
structure SequenceValueTable where
  nextValue : Option ℤ := none
  calls : ℕ := 0
deriving DecidableEq

namespace ObSequenceCacheItem

/-- `combine_prefetch_node`. -/
def combinePrefetchNode (cache : ObSequenceCacheItem) : ObSequenceCacheItem :=
  if cache.withPrefetchNode then
    let start :=
      if cache.currNode.stop ≠ cache.prefetchNode.start then cache.prefetchNode.start
      else cache.currNode.start
    { cache with currNode := ⟨start, cache.prefetchNode.stop⟩, withPrefetchNode := false }
  else cache

end ObSequenceCacheItem

variable (option : ObSequenceOption) (fails : ℕ → Option ObError)

/-! ### Batches -/

/-- The transaction commits with the new next value. -/
def commitBatch (table : SequenceValueTable) (start stop nextValue : ℤ) :
    Except ObError SequenceCacheNode × SequenceValueTable :=
  let table := { table with nextValue := some nextValue }
  if (option.incrementBy > 0 ∧ start > option.maxValue) ∨
      (option.incrementBy < 0 ∧ start < option.minValue) then
    (.error .autoincCacheNotEqual, table)
  else (.ok ⟨start, stop⟩, table)

/-- The number of values of a batch. -/
def batchSize : ℤ := if option.orderFlag ∧ option.oldAction then 1 else option.cacheSize

/-- `ObSequenceDMLProxy::next_batch`. -/
def nextBatch (table : SequenceValueTable) :
    Except ObError SequenceCacheNode × SequenceValueTable :=
  let called := { table with calls := table.calls + 1 }
  match fails table.calls with
  | some e => (.error e, called)
  | none =>
    -- without a row, `init_sequence_value_table` inserts one
    let nextValue := table.nextValue.getD option.startWith
    let cacheExclusiveEnd := option.incrementBy * batchSize option + nextValue
    if option.incrementBy > 0 ∧ cacheExclusiveEnd > option.maxValue then
      let cacheExclusiveEnd := option.maxValue + 1
      if option.cycleFlag then
        commitBatch option called nextValue cacheExclusiveEnd option.minValue
      else if nextValue > option.maxValue then (.error .errSeqValueExceedLimit, called)
      else commitBatch option called nextValue cacheExclusiveEnd cacheExclusiveEnd
    else if option.incrementBy < 0 ∧ cacheExclusiveEnd < option.minValue then
      let cacheExclusiveEnd := option.minValue - 1
      if option.cycleFlag then
        commitBatch option called nextValue cacheExclusiveEnd option.maxValue
      else if nextValue < option.minValue then (.error .errSeqValueExceedLimit, called)
      else commitBatch option called nextValue cacheExclusiveEnd cacheExclusiveEnd
    else commitBatch option called nextValue cacheExclusiveEnd cacheExclusiveEnd

/-! ### Values -/

/-- The cached range starts behind the last value. -/
def startsBehind (cache : ObSequenceCacheItem) : Bool :=
  if option.incrementBy > 0 then cache.currNode.start < cache.lastNumber
  else cache.currNode.start > cache.lastNumber

/-- The rest of the cached range is not enough for one increment. -/
def notEnough (cache : ObSequenceCacheItem) : Bool :=
  if startsBehind option cache then false
  else if option.incrementBy > 0 then
    cache.currNode.stop - cache.lastNumber ≤ option.incrementBy
  else cache.currNode.stop - cache.lastNumber ≥ option.incrementBy

/-- `need_refill_cache`. -/
def needRefillCache (cache : ObSequenceCacheItem) : Bool × ObSequenceCacheItem :=
  if cache.currNode.start = cache.currNode.stop ∧ ¬ cache.withPrefetchNode then (true, cache)
  else if ¬ cache.baseOnLastNumber then (false, cache)
  else if notEnough option cache ∧ cache.withPrefetchNode then
    let cache := cache.combinePrefetchNode
    (notEnough option cache, cache)
  else (notEnough option cache, cache)

/-- The value that is next in the cached range, and the item from which it has been taken. -/
def takeNext (cache : ObSequenceCacheItem) : ℤ × ObSequenceCacheItem :=
  if ¬ cache.baseOnLastNumber then
    -- the first value of the cache: do not increment
    (cache.currNode.start, { cache with baseOnLastNumber := true })
  else if option.cycleFlag ∧ startsBehind option cache then (cache.currNode.start, cache)
  else
    let newStart := cache.lastNumber + option.incrementBy
    let start :=
      if option.incrementBy > 0 then
        if newStart > cache.currNode.start then newStart else cache.currNode.start
      else if newStart < cache.currNode.start then newStart else cache.currNode.start
    (start, { cache with currNode := { cache.currNode with start := start } })

/-- `move_next`. -/
def moveNext (cache : ObSequenceCacheItem) : Except ObError ℤ × ObSequenceCacheItem :=
  match needRefillCache option cache with
  | (true, cache) => (.error .sizeOverflow, cache)
  | (false, cache) =>
    let (nextval, cache) := takeNext option cache
    if option.minValue > nextval ∨ option.maxValue < nextval then
      (.error (if option.cycleFlag then .sizeOverflow else .errSeqValueExceedLimit), cache)
    else (.ok nextval, { cache with lastNumber := nextval })

/-- What `refill_sequence_cache` makes of a new range. -/
def checkRange (cache : ObSequenceCacheItem) (range : SequenceCacheNode) : Bool × Bool :=
  if option.cycleFlag ∧ cache.baseOnLastNumber then
    if option.incrementBy > 0 then
      if cache.currNode.start > range.start then (false, false)
      else if cache.lastNumber + option.incrementBy ≥ range.stop then (true, false)
      else (false, true)
    else if cache.currNode.start < range.start then (false, false)
    else if cache.lastNumber + option.incrementBy ≤ range.stop then (true, false)
    else (false, true)
  else (false, cache.baseOnLastNumber)

theorem checkRange_of_not_base {cache : ObSequenceCacheItem} {range : SequenceCacheNode}
    (h : cache.baseOnLastNumber = false) : checkRange option cache range = (false, false) := by
  rw [checkRange, if_neg (by rw [h]; simp), h]

/-- `refill_sequence_cache`. -/
def refillSequenceCache (cache : ObSequenceCacheItem) (table : SequenceValueTable) :
    Option ObError × ObSequenceCacheItem × SequenceValueTable :=
  match nextBatch option fails table with
  | (.error e, table) => (some e, cache, table)
  | (.ok range, table) =>
    match _h : checkRange option cache range with
    | (true, base) =>
      refillSequenceCache { cache with baseOnLastNumber := base } table
    | (false, base) =>
      (none, { cache with currNode := range, baseOnLastNumber := base }, table)
termination_by cache.baseOnLastNumber.toNat
decreasing_by
  unfold checkRange at _h
  split_ifs at _h <;> simp_all

/-- The prefetch at the end of `nextval`. -/
def prefetch (cache : ObSequenceCacheItem) (table : SequenceValueTable) :
    ObSequenceCacheItem × SequenceValueTable :=
  let rest := (cache.currNode.stop - cache.currNode.start) * 2
  let full := option.incrementBy * option.cacheSize
  if ¬ cache.prefetching ∧ option.cacheSize > 1 ∧ option.orderFlag = false ∧
      ¬ cache.withPrefetchNode ∧ rest.natAbs ≤ full.natAbs then
    match nextBatch option fails table with
    | (.error _, table) => ({ cache with prefetching := false }, table)
    | (.ok range, table) =>
      ({ cache with prefetchNode := range, withPrefetchNode := true, prefetching := false }, table)
  else (cache, table)

/-- The first two steps of `nextval`. -/
def moveOrRefill (cache : ObSequenceCacheItem) (table : SequenceValueTable) :
    Except ObError ℤ × ObSequenceCacheItem × SequenceValueTable :=
  match moveNext option cache with
  | (.error .sizeOverflow, cache) =>
    match refillSequenceCache option fails cache table with
    | (some e, cache, table) => (.error e, cache, table)
    | (none, cache, table) =>
      let (ret, cache) := moveNext option cache
      (ret, cache, table)
  | (ret, cache) => (ret, cache, table)

/-- `nextval`. -/
def nextval (cache : ObSequenceCacheItem) (table : SequenceValueTable) :
    Except ObError ℤ × ObSequenceCacheItem × SequenceValueTable :=
  match moveOrRefill option fails cache table with
  | (.ok value, cache, table) =>
    let (cache, table) := prefetch option fails cache table
    (.ok value, cache, table)
  | (.error .sizeOverflow, cache, table) => (.error .errSeqValueExceedLimit, cache, table)
  | (.error e, cache, table) => (.error e, cache, table)

/-- The results of `n` calls of `nextval` on a new item, and the item and the table after them. -/
def nextvals : ℕ → List (Except ObError ℤ) × ObSequenceCacheItem × SequenceValueTable
  | 0 => ([], {}, {})
  | n + 1 =>
    let (results, cache, table) := nextvals n
    let (result, cache, table) := nextval option fails cache table
    (results ++ [result], cache, table)

end Andl.Sequence
