import Andl.Sequence.SequenceCache

/-!
# A sequence gives out its series
-/

namespace Andl.Sequence

/-- Options within the limits. -/
structure ObSequenceOption.Valid (o : ObSequenceOption) : Prop where
  min_le_start : o.minValue ≤ o.startWith
  start_le_max : o.startWith ≤ o.maxValue
  increment_ne : o.incrementBy ≠ 0
  cacheSize_pos : 1 ≤ o.cacheSize

/-- The value behind `v` in the series. -/
def nextInSeries (o : ObSequenceOption) (v : ℤ) : Option ℤ :=
  if o.minValue ≤ v + o.incrementBy ∧ v + o.incrementBy ≤ o.maxValue then
    some (v + o.incrementBy)
  else if o.cycleFlag then some (if o.incrementBy > 0 then o.minValue else o.maxValue)
  else none

/-- The series of a sequence. -/
def seriesValue (o : ObSequenceOption) : ℕ → Option ℤ
  | 0 => some o.startWith
  | n + 1 => (seriesValue o n).bind (nextInSeries o)

/-- The series of a sequence with cycles does not end. -/
theorem seriesValue_ne_none {o : ObSequenceOption} (hcycle : o.cycleFlag = true) (n : ℕ) :
    seriesValue o n ≠ none := by
  induction n with
  | zero => exact Option.some_ne_none _
  | succ n ih =>
    obtain ⟨v, hv⟩ := Option.ne_none_iff_exists'.mp ih
    rw [seriesValue, hv, Option.bind_some, nextInSeries, if_pos hcycle]
    split_ifs <;> exact Option.some_ne_none _

/-! ### Ascending sequences -/

section Ascending

variable {o : ObSequenceOption} {fails : ℕ → Option ObError} {c : ObSequenceCacheItem}
  {t : SequenceValueTable} {s e D : ℤ}

/-- The end of a batch from `s` on. -/
def batchStop (o : ObSequenceOption) (s : ℤ) : ℤ :=
  if o.incrementBy * batchSize o + s > o.maxValue then o.maxValue + 1
  else o.incrementBy * batchSize o + s

/-- The stored next value behind a range that ends with `e`. -/
def storedAfter (o : ObSequenceOption) (e : ℤ) : ℤ :=
  if e = o.maxValue + 1 ∧ o.cycleFlag then o.minValue else e

theorem batchSize_pos (h : o.Valid) : 1 ≤ batchSize o := by
  unfold batchSize
  split_ifs
  · exact le_refl 1
  · exact h.cacheSize_pos

theorem le_increment_mul_batchSize (h : o.Valid) (hinc : 0 < o.incrementBy) :
    o.incrementBy ≤ o.incrementBy * batchSize o :=
  le_mul_of_one_le_right hinc.le (batchSize_pos h)

theorem lt_batchStop (h : o.Valid) (hinc : 0 < o.incrementBy) (hs : s ≤ o.maxValue) :
    s < batchStop o s := by
  have := le_increment_mul_batchSize h hinc
  unfold batchStop
  split_ifs <;> omega

theorem commitBatch_of_le (hinc : 0 < o.incrementBy) (hs : s ≤ o.maxValue) (next : ℤ) :
    commitBatch o t s e next = (.ok ⟨s, e⟩, ⟨some next, t.calls⟩) := by
  unfold commitBatch
  rw [if_neg (by omega)]

theorem nextBatch_of_fails {err : ObError} (h : fails t.calls = some err) :
    nextBatch o fails t = (.error err, ⟨t.nextValue, t.calls + 1⟩) := by
  unfold nextBatch
  rw [h]

/-- **A batch** of an ascending sequence. -/
theorem nextBatch_of_le (hinc : 0 < o.incrementBy) (hok : fails t.calls = none)
    (hD : t.nextValue.getD o.startWith = D) (hmax : D ≤ o.maxValue) :
    nextBatch o fails t =
      (.ok ⟨D, batchStop o D⟩, ⟨some (storedAfter o (batchStop o D)), t.calls + 1⟩) := by
  unfold nextBatch batchStop storedAfter
  rw [hok]
  dsimp only
  rw [hD]
  by_cases hclip : o.incrementBy * batchSize o + D > o.maxValue
  · rw [if_pos ⟨hinc, hclip⟩, if_pos hclip, commitBatch_of_le hinc hmax,
      commitBatch_of_le hinc hmax, if_neg (by omega : ¬ D > o.maxValue)]
    cases o.cycleFlag <;> simp
  · rw [if_neg fun hc => hclip hc.2, if_neg (by omega), if_neg hclip, commitBatch_of_le hinc hmax,
      if_neg fun hc => hclip (by omega)]

/-- Behind the limit there is no batch. -/
theorem nextBatch_of_gt (h : o.Valid) (hinc : 0 < o.incrementBy) (hcycle : o.cycleFlag = false)
    (hD : t.nextValue.getD o.startWith = D) (hmax : o.maxValue < D) :
    ∃ err, nextBatch o fails t = (.error err, ⟨t.nextValue, t.calls + 1⟩) := by
  rcases hfails : fails t.calls with - | err
  · have := le_increment_mul_batchSize h hinc
    refine ⟨.errSeqValueExceedLimit, ?_⟩
    unfold nextBatch
    rw [hfails]
    dsimp only
    rw [hD, if_pos ⟨hinc, by omega⟩, hcycle, if_neg (by decide), if_pos hmax]
  · exact ⟨err, nextBatch_of_fails hfails⟩

/-! ### One call of `move_next` -/

variable {v : ℤ} {t' : SequenceValueTable} {c₁ c₂ : ObSequenceCacheItem}

theorem moveNext_eq_ok {c' c'' : ObSequenceCacheItem} (hrefill : needRefillCache o c = (false, c'))
    (htake : takeNext o c' = (v, c'')) (hmin : o.minValue ≤ v) (hmax : v ≤ o.maxValue) :
    moveNext o c = (.ok v, { c'' with lastNumber := v }) := by
  unfold moveNext
  rw [hrefill]
  dsimp only
  rw [htake]
  dsimp only
  rw [if_neg (by omega)]

theorem moveNext_eq_sizeOverflow {c' : ObSequenceCacheItem}
    (hrefill : needRefillCache o c = (true, c')) : moveNext o c = (.error .sizeOverflow, c') := by
  unfold moveNext
  rw [hrefill]

/-- The first value of a range. -/
theorem moveNext_of_not_base (hbase : c.baseOnLastNumber = false)
    (hne : c.currNode.start ≠ c.currNode.stop) (hmin : o.minValue ≤ c.currNode.start)
    (hmax : c.currNode.start ≤ o.maxValue) :
    moveNext o c =
      (.ok c.currNode.start,
        { c with baseOnLastNumber := true, lastNumber := c.currNode.start }) := by
  have hrefill : needRefillCache o c = (false, c) := by
    rw [needRefillCache, if_neg fun hc => hne hc.1, if_pos (by rw [hbase]; decide)]
  have htake : takeNext o c = (c.currNode.start, { c with baseOnLastNumber := true }) := by
    rw [takeNext, if_pos (by rw [hbase]; decide)]
  exact moveNext_eq_ok hrefill htake hmin hmax

/-- The range from the last value on, and all that follows it. -/
structure Running (o : ObSequenceOption) (c : ObSequenceCacheItem) (D : ℤ) : Prop where
  base : c.baseOnLastNumber = true
  prefetching : c.prefetching = false
  start_eq : c.currNode.start = c.lastNumber
  min_le : o.minValue ≤ c.lastNumber
  lt_stop : c.lastNumber < c.currNode.stop
  /-- The range ends at the limit, or with a value of the series. -/
  stop_eq : c.currNode.stop = o.maxValue + 1 ∨
    c.currNode.stop ≤ o.maxValue ∧ o.incrementBy ∣ c.currNode.stop - c.lastNumber
  /-- The prefetched range and the stored next value continue it. -/
  prefetched : c.withPrefetchNode = true →
    c.prefetchNode.start = storedAfter o c.currNode.stop ∧
      c.prefetchNode.start ≤ o.maxValue ∧
      c.prefetchNode.stop = batchStop o c.prefetchNode.start ∧
      D = storedAfter o c.prefetchNode.stop
  stored : c.withPrefetchNode = false → D = storedAfter o c.currNode.stop

namespace Running

theorem stop_le (h : Running o c D) : c.currNode.stop ≤ o.maxValue + 1 := by
  rcases h.stop_eq with heq | ⟨hle, -⟩ <;> omega

theorem not_startsBehind (h : Running o c D) : startsBehind o c = false := by
  have := h.start_eq
  unfold startsBehind
  split_ifs <;> simp <;> omega

theorem start_ne_stop (h : Running o c D) : c.currNode.start ≠ c.currNode.stop := by
  have := h.start_eq
  have := h.lt_stop
  omega

theorem add_increment_le (h : Running o c D) (hinc : 0 < o.incrementBy)
    (hle : c.currNode.stop ≤ o.maxValue) : c.lastNumber + o.incrementBy ≤ c.currNode.stop := by
  rcases h.stop_eq with heq | ⟨-, k, hk⟩
  · omega
  · have hlt := h.lt_stop
    have hpos : 0 < k := by
      by_contra hneg
      have : o.incrementBy * k ≤ 0 := mul_nonpos_of_nonneg_of_nonpos hinc.le (not_lt.mp hneg)
      omega
    have : o.incrementBy ≤ o.incrementBy * k := le_mul_of_one_le_right hinc.le hpos
    omega

end Running

theorem needRefillCache_of_lt (hinc : 0 < o.incrementBy) (hbase : c.baseOnLastNumber = true)
    (hlast : c.lastNumber ≤ c.currNode.start)
    (hstart : c.currNode.start ≤ c.lastNumber + o.incrementBy)
    (hnext : c.lastNumber + o.incrementBy < c.currNode.stop) :
    startsBehind o c = false ∧ needRefillCache o c = (false, c) := by
  have hbehind : startsBehind o c = false := by
    unfold startsBehind
    rw [if_pos hinc, decide_eq_false_iff_not]
    omega
  have henough : notEnough o c = false := by
    rw [notEnough, hbehind, if_neg (by decide), if_pos hinc, decide_eq_false_iff_not]
    omega
  refine ⟨hbehind, ?_⟩
  rw [needRefillCache, if_neg (by omega), if_neg (by rw [hbase]; decide), henough,
    if_neg fun hc => absurd hc.1 (by decide)]

/-- The next value is in the range. -/
theorem moveNext_inside (hinc : 0 < o.incrementBy) (hbase : c.baseOnLastNumber = true)
    (hstart : c.currNode.start = c.lastNumber) (hmin : o.minValue ≤ c.lastNumber)
    (hnext : c.lastNumber + o.incrementBy < c.currNode.stop)
    (hstop : c.currNode.stop ≤ o.maxValue + 1) :
    moveNext o c =
      (.ok (c.lastNumber + o.incrementBy),
        { c with
          currNode := ⟨c.lastNumber + o.incrementBy, c.currNode.stop⟩
          lastNumber := c.lastNumber + o.incrementBy }) := by
  obtain ⟨hbehind, hrefill⟩ := needRefillCache_of_lt hinc hbase (by omega) (by omega)
    (by omega)
  have htake : takeNext o c = (c.lastNumber + o.incrementBy,
      { c with currNode := ⟨c.lastNumber + o.incrementBy, c.currNode.stop⟩ }) := by
    rw [takeNext, if_neg (by rw [hbase]; decide), hbehind, if_neg (by simp)]
    dsimp only
    rw [if_pos hinc, if_pos (by omega)]
  exact moveNext_eq_ok hrefill htake (by omega) (by omega)

/-- The next value is the first one of a new range. -/
theorem moveNext_at_start (hinc : 0 < o.incrementBy) (hbase : c.baseOnLastNumber = true)
    (hstart : c.currNode.start = c.lastNumber + o.incrementBy) (hmin : o.minValue ≤ c.lastNumber)
    (hstop : c.currNode.start < c.currNode.stop) (hmax : c.currNode.start ≤ o.maxValue) :
    moveNext o c = (.ok c.currNode.start, { c with lastNumber := c.currNode.start }) := by
  obtain ⟨hbehind, hrefill⟩ := needRefillCache_of_lt hinc hbase (by omega) (by omega)
    (by omega)
  have htake : takeNext o c = (c.currNode.start, c) := by
    rw [takeNext, if_neg (by rw [hbase]; decide), hbehind, if_neg (by simp)]
    dsimp only
    rw [if_pos hinc, if_neg (by omega)]
  exact moveNext_eq_ok hrefill htake (by omega) hmax

namespace Running

variable (h : Running o c D) (hinc : 0 < o.incrementBy)

include h hinc

theorem notEnough_eq : notEnough o c = decide (c.currNode.stop ≤ c.lastNumber + o.incrementBy) := by
  rw [notEnough, h.not_startsBehind, if_neg (by decide), if_pos hinc]
  exact decide_eq_decide.mpr ⟨fun hle => by omega, fun hle => by omega⟩

/-- The range is used up, and nothing is prefetched. -/
theorem moveNext_usedUp (hused : c.currNode.stop ≤ c.lastNumber + o.incrementBy)
    (hprefetch : c.withPrefetchNode = false) : moveNext o c = (.error .sizeOverflow, c) := by
  have henough : notEnough o c = true := by
    rw [h.notEnough_eq hinc, decide_eq_true_eq]
    exact hused
  apply moveNext_eq_sizeOverflow
  rw [needRefillCache, if_neg fun hc => h.start_ne_stop hc.1, if_neg (by rw [h.base]; decide),
    if_neg (by rw [hprefetch]; simp), henough]

/-- The range is used up, and the prefetched one is combined with it. -/
theorem needRefillCache_combine (hused : c.currNode.stop ≤ c.lastNumber + o.incrementBy)
    (hprefetch : c.withPrefetchNode = true) :
    needRefillCache o c = (notEnough o c.combinePrefetchNode, c.combinePrefetchNode) := by
  have henough : notEnough o c = true := by
    rw [h.notEnough_eq hinc, decide_eq_true_eq]
    exact hused
  rw [needRefillCache, if_neg fun hc => h.start_ne_stop hc.1, if_neg (by rw [h.base]; decide),
    if_pos ⟨henough, hprefetch⟩]

end Running

/-- A range with the batch behind it has the shape of a range. -/
theorem batchStop_shape (h : o.Valid) (hinc : 0 < o.incrementBy) (hs : s ≤ o.maxValue) :
    s < batchStop o s ∧
      (batchStop o s = o.maxValue + 1 ∨
        batchStop o s ≤ o.maxValue ∧ o.incrementBy ∣ batchStop o s - s) := by
  refine ⟨lt_batchStop h hinc hs, ?_⟩
  unfold batchStop
  split_ifs with hclip
  · exact .inl rfl
  · exact .inr ⟨not_lt.mp hclip, batchSize o, by ring⟩

/-- The item right after the first value of a batch. -/
theorem running_batch (h : o.Valid) (hinc : 0 < o.incrementBy) (hbase : c.baseOnLastNumber = true)
    (hpre : c.prefetching = false) (hprefetch : c.withPrefetchNode = false)
    (hstart : c.currNode.start = c.lastNumber) (hmin : o.minValue ≤ c.lastNumber)
    (hmax : c.lastNumber ≤ o.maxValue) (hstop : c.currNode.stop = batchStop o c.lastNumber) :
    Running o c (storedAfter o c.currNode.stop) where
  base := hbase
  prefetching := hpre
  start_eq := hstart
  min_le := hmin
  lt_stop := hstop ▸ lt_batchStop h hinc hmax
  stop_eq := hstop ▸ (batchStop_shape h hinc hmax).2
  prefetched := fun htrue => absurd htrue (by rw [hprefetch]; decide)
  stored := fun _ => rfl

/-! ### Refilling -/

theorem refillSequenceCache_of_error {err : ObError} (h : nextBatch o fails t = (.error err, t')) :
    refillSequenceCache o fails c t = (some err, c, t') := by
  rw [refillSequenceCache, h]

theorem refillSequenceCache_of_range {range : SequenceCacheNode} {base : Bool}
    (h : nextBatch o fails t = (.ok range, t')) (hcheck : checkRange o c range = (false, base)) :
    refillSequenceCache o fails c t =
      (none, { c with currNode := range, baseOnLastNumber := base }, t') := by
  rw [refillSequenceCache, h]
  dsimp only
  split
  · next hc => rw [hcheck] at hc; cases hc
  · next hc => rw [hcheck] at hc; cases hc; rfl

theorem refillSequenceCache_of_refetch {range : SequenceCacheNode} {base : Bool}
    (h : nextBatch o fails t = (.ok range, t')) (hcheck : checkRange o c range = (true, base)) :
    refillSequenceCache o fails c t =
      refillSequenceCache o fails { c with baseOnLastNumber := base } t' := by
  rw [refillSequenceCache, h]
  dsimp only
  split
  · next hc => rw [hcheck] at hc; cases hc; rfl
  · next hc => rw [hcheck] at hc; cases hc

theorem moveOrRefill_of_ok (h : moveNext o c = (.ok v, c₁)) :
    moveOrRefill o fails c t = (.ok v, c₁, t) := by
  rw [moveOrRefill, h]

theorem moveOrRefill_of_failed {err : ObError} (h : moveNext o c = (.error .sizeOverflow, c₁))
    (hrefill : refillSequenceCache o fails c₁ t = (some err, c₂, t')) :
    moveOrRefill o fails c t = (.error err, c₂, t') := by
  rw [moveOrRefill, h]
  dsimp only
  rw [hrefill]

theorem moveOrRefill_of_refilled {c3 : ObSequenceCacheItem}
    (h : moveNext o c = (.error .sizeOverflow, c₁))
    (hrefill : refillSequenceCache o fails c₁ t = (none, c₂, t'))
    (hmove : moveNext o c₂ = (.ok v, c3)) : moveOrRefill o fails c t = (.ok v, c3, t') := by
  rw [moveOrRefill, h]
  dsimp only
  rw [hrefill]
  dsimp only
  rw [hmove]

/-! ### Between two calls -/

/-- The item and the table between two calls, and the next value of the series. -/
inductive Between (o : ObSequenceOption) :
    ObSequenceCacheItem → SequenceValueTable → Option ℤ → Prop
  /-- Before the first value. -/
  | fresh (calls : ℕ) : Between o {} ⟨none, calls⟩ (some o.startWith)
  /-- The second of two fetches for a new cycle has failed. -/
  | restart {c : ObSequenceCacheItem} {t : SequenceValueTable}
    (base : c.baseOnLastNumber = false) (prefetching : c.prefetching = false)
    (prefetched : c.withPrefetchNode = false)
    (node : c.currNode = ⟨o.minValue, o.maxValue + 1⟩) (cycle : o.cycleFlag = true)
    (stored : t.nextValue = some o.minValue) : Between o c t (some o.minValue)
  | running {c : ObSequenceCacheItem} {t : SequenceValueTable} {D : ℤ} (running : Running o c D)
    (stored : t.nextValue = some D) : Between o c t (nextInSeries o c.lastNumber)

/-- What a call can do if `next` is the next value of the series and `calls` batches have been asked
for. -/
inductive Outcome (o : ObSequenceOption) (fails : ℕ → Option ObError) (calls : ℕ)
    (next : Option ℤ) : Except ObError ℤ × ObSequenceCacheItem × SequenceValueTable → Prop
  | value {v : ℤ} {c : ObSequenceCacheItem} {t : SequenceValueTable} {D : ℤ}
    (next_eq : next = some v) (running : Running o c D) (last : c.lastNumber = v)
    (stored : t.nextValue = some D) (calls_le : calls ≤ t.calls) :
    Outcome o fails calls next (.ok v, c, t)
  | failed {err : ObError} {c : ObSequenceCacheItem} {t : SequenceValueTable}
    (between : Between o c t next)
    (cause : next = none ∨ ∃ j, calls ≤ j ∧ j < t.calls ∧ (fails j).isSome)
    (calls_le : calls ≤ t.calls) : Outcome o fails calls next (.error err, c, t)

/-- The first value of a new range. -/
theorem outcome_first (h : o.Valid) (hinc : 0 < o.incrementBy) {calls : ℕ}
    (hmove : moveNext o c = (.error .sizeOverflow, c₁))
    (hrefill : refillSequenceCache o fails c₁ t =
      (none, { c₂ with currNode := ⟨D, batchStop o D⟩, baseOnLastNumber := false }, t'))
    (hpre : c₂.prefetching = false) (hprefetch : c₂.withPrefetchNode = false)
    (hmin : o.minValue ≤ D) (hmax : D ≤ o.maxValue)
    (hstored : t'.nextValue = some (storedAfter o (batchStop o D))) (hcalls : calls ≤ t'.calls) :
    Outcome o fails calls (some D) (moveOrRefill o fails c t) := by
  have hlt := lt_batchStop h hinc hmax
  have hmove' := @moveNext_of_not_base o
    { c₂ with currNode := ⟨D, batchStop o D⟩, baseOnLastNumber := false } rfl hlt.ne hmin hmax
  rw [moveOrRefill_of_refilled hmove hrefill hmove']
  exact .value rfl (running_batch h hinc rfl hpre hprefetch rfl hmin hmax rfl) rfl hstored hcalls

namespace Running

/-- The cause of a failure in the first batch that is asked for. -/
theorem cause_first {t : SequenceValueTable} {err : ObError} (hfails : fails t.calls = some err)
    (next : Option ℤ) : next = none ∨ ∃ j, t.calls ≤ j ∧ j < t.calls + 1 ∧ (fails j).isSome :=
  .inr ⟨t.calls, le_refl _, Nat.lt_succ_self _, by rw [hfails]; rfl⟩

variable (hv : o.Valid) (hinc : 0 < o.incrementBy) (h : Running o c D)
  (hD : t.nextValue = some D)

include hinc h hD

/-- The next value is in the range. -/
theorem outcome_inside (hnext : c.lastNumber + o.incrementBy < c.currNode.stop) :
    Outcome o fails t.calls (nextInSeries o c.lastNumber) (moveOrRefill o fails c t) := by
  have hstop := h.stop_le
  have hmin := h.min_le
  rw [moveOrRefill_of_ok (moveNext_inside hinc h.base h.start_eq hmin hnext hstop)]
  have hseries : nextInSeries o c.lastNumber = some (c.lastNumber + o.incrementBy) :=
    if_pos ⟨by omega, by omega⟩
  refine .value hseries ?_ rfl hD (le_refl _)
  exact
    { base := h.base
      prefetching := h.prefetching
      start_eq := rfl
      min_le := by dsimp only; omega
      lt_stop := hnext
      stop_eq := by
        rcases h.stop_eq with heq | ⟨hle, k, hk⟩
        · exact .inl heq
        · exact .inr ⟨hle, k - 1, by rw [mul_sub, mul_one]; dsimp only; omega⟩
      prefetched := h.prefetched
      stored := h.stored }

include hv

section

variable (hused : c.currNode.stop ≤ c.lastNumber + o.incrementBy)
include hused

/-- The range is used up, and the stored next value continues it. -/
theorem outcome_refill
    (hle : c.currNode.stop ≤ o.maxValue) (hprefetch : c.withPrefetchNode = false) :
    Outcome o fails t.calls (nextInSeries o c.lastNumber) (moveOrRefill o fails c t) := by
  have hstop := h.add_increment_le hinc hle
  have hmin := h.min_le
  have hmove := h.moveNext_usedUp hinc hused hprefetch
  have hseries : nextInSeries o c.lastNumber = some c.currNode.stop := by
    rw [nextInSeries, if_pos ⟨by omega, by omega⟩, le_antisymm hstop hused]
  have hstored : D = c.currNode.stop := by
    rw [h.stored hprefetch, storedAfter, if_neg (by omega)]
  rcases hfails : fails t.calls with - | err
  · have hbatch := nextBatch_of_le hinc hfails (by rw [hD, hstored]; rfl) hle
    have hlt := lt_batchStop hv hinc hle
    have hcheck :
        checkRange o c ⟨c.currNode.stop, batchStop o c.currNode.stop⟩ = (false, true) := by
      have := h.start_eq
      have := h.lt_stop
      unfold checkRange
      by_cases hcycle : o.cycleFlag = true
      · rw [if_pos ⟨hcycle, h.base⟩, if_pos hinc, if_neg (by dsimp only; omega),
          if_neg (by dsimp only; omega)]
      · rw [if_neg fun hc => hcycle hc.1, h.base]
    have hmove' := @moveNext_at_start o
      { c with
        currNode := ⟨c.currNode.stop, batchStop o c.currNode.stop⟩, baseOnLastNumber := true }
      hinc rfl (by dsimp only; omega) hmin hlt hle
    rw [moveOrRefill_of_refilled hmove (refillSequenceCache_of_range hbatch hcheck) hmove']
    exact .value hseries
      (running_batch hv hinc rfl h.prefetching hprefetch rfl (by dsimp only; omega) hle rfl) rfl rfl
      (Nat.le_succ _)
  · rw [moveOrRefill_of_failed hmove (refillSequenceCache_of_error (nextBatch_of_fails hfails))]
    exact .failed (.running h hD) (cause_first hfails _) (Nat.le_succ _)

/-- The range is used up, and the prefetched one continues it. -/
theorem outcome_combine
    (hle : c.currNode.stop ≤ o.maxValue) (hprefetch : c.withPrefetchNode = true) :
    Outcome o fails t.calls (nextInSeries o c.lastNumber) (moveOrRefill o fails c t) := by
  have hstop := h.add_increment_le hinc hle
  have hmin := h.min_le
  have hstart := h.start_eq
  obtain ⟨hps, hpsle, hpe, hDeq⟩ := h.prefetched hprefetch
  rw [storedAfter, if_neg (by omega)] at hps
  have hlt := lt_batchStop hv hinc hpsle
  have hcombine : c.combinePrefetchNode =
      { c with currNode := ⟨c.lastNumber, c.prefetchNode.stop⟩, withPrefetchNode := false } := by
    rw [ObSequenceCacheItem.combinePrefetchNode, if_pos hprefetch]
    dsimp only
    rw [if_neg (by rw [hps]; simp), hstart]
  have hbehind : startsBehind o c.combinePrefetchNode = false := by
    rw [hcombine, startsBehind, if_pos hinc]
    simp
  have henough : notEnough o c.combinePrefetchNode = false := by
    rw [notEnough, hbehind, if_neg (by decide), if_pos hinc, hcombine, decide_eq_false_iff_not]
    dsimp only
    omega
  have hrefill : needRefillCache o c = (false, c.combinePrefetchNode) := by
    rw [h.needRefillCache_combine hinc hused hprefetch, henough]
  have htake : takeNext o c.combinePrefetchNode = (c.lastNumber + o.incrementBy,
      { c with
        currNode := ⟨c.lastNumber + o.incrementBy, c.prefetchNode.stop⟩
        withPrefetchNode := false }) := by
    rw [takeNext, hbehind, if_neg (by rw [hcombine]; dsimp only; rw [h.base]; decide),
      if_neg (by simp), hcombine]
    dsimp only
    rw [if_pos hinc, if_pos (by omega)]
  have hseries : nextInSeries o c.lastNumber = some (c.lastNumber + o.incrementBy) :=
    if_pos ⟨by omega, by omega⟩
  rw [moveOrRefill_of_ok (moveNext_eq_ok hrefill htake (by omega) (by omega))]
  have hnext : c.lastNumber + o.incrementBy = c.prefetchNode.start := by omega
  refine .value hseries ?_ rfl (hD.trans (congrArg some hDeq)) (le_refl _)
  exact running_batch hv hinc h.base h.prefetching rfl rfl (by dsimp only; omega)
    (by dsimp only; omega) (by dsimp only; rw [hnext, hpe])

/-- The series has ended. -/
theorem outcome_end (hstop : c.currNode.stop = o.maxValue + 1) (hcycle : o.cycleFlag = false) :
    Outcome o fails t.calls (nextInSeries o c.lastNumber) (moveOrRefill o fails c t) := by
  have hafter : storedAfter o c.currNode.stop = o.maxValue + 1 := by
    rw [storedAfter, if_neg (by rw [hcycle]; simp), hstop]
  have hprefetch : c.withPrefetchNode = false := by
    by_contra hne
    obtain ⟨hps, hle, -⟩ := h.prefetched (Bool.of_not_eq_false hne)
    omega
  have hseries : nextInSeries o c.lastNumber = none := by
    rw [nextInSeries, if_neg (by omega), hcycle, if_neg (by decide)]
  have hgt : o.maxValue < D := by
    rw [h.stored hprefetch, hafter]
    omega
  obtain ⟨err, hbatch⟩ := nextBatch_of_gt hv hinc hcycle (by rw [hD]; rfl) hgt
  rw [moveOrRefill_of_failed (h.moveNext_usedUp hinc hused hprefetch)
    (refillSequenceCache_of_error hbatch)]
  exact .failed (.running h hD) (.inl hseries) (Nat.le_succ _)

end

theorem outcome_wrap {c0 : ObSequenceCacheItem} (hmove : moveNext o c0 = (.error .sizeOverflow, c))
    (hused : o.maxValue < c.lastNumber + o.incrementBy) (hstop : c.currNode.stop = o.maxValue + 1)
    (hcycle : o.cycleFlag = true) (hprefetch : c.withPrefetchNode = false) :
    Outcome o fails t.calls (nextInSeries o c.lastNumber) (moveOrRefill o fails c0 t) := by
  have hlast := h.min_le
  have hmax : o.minValue ≤ o.maxValue := hv.min_le_start.trans hv.start_le_max
  have hafter : storedAfter o (o.maxValue + 1) = o.minValue := if_pos ⟨rfl, hcycle⟩
  have hstored : D = o.minValue := by rw [h.stored hprefetch, hstop, hafter]
  have hseries : nextInSeries o c.lastNumber = some o.minValue := by
    rw [nextInSeries, if_neg (by omega), if_pos hcycle, if_pos hinc]
  rcases hfails : fails t.calls with - | err
  · have hbatch := nextBatch_of_le hinc hfails (by rw [hD, hstored]; rfl) hmax
    by_cases hsmall : c.currNode.start > o.minValue
    · have hcheck : checkRange o c ⟨o.minValue, batchStop o o.minValue⟩ = (false, false) := by
        rw [checkRange, if_pos ⟨hcycle, h.base⟩, if_pos hinc, if_pos hsmall]
      rw [hseries]
      exact outcome_first hv hinc hmove (refillSequenceCache_of_range hbatch hcheck)
        h.prefetching hprefetch (le_refl _) hmax rfl (Nat.le_succ _)
    · -- the last value is the smallest one, and the batch holds only this value
      have hstart := h.start_eq
      have hfull : batchStop o o.minValue = o.maxValue + 1 := by
        have := le_increment_mul_batchSize hv hinc
        rw [batchStop, if_pos (by omega)]
      rw [hfull, hafter] at hbatch
      have hcheck : checkRange o c ⟨o.minValue, o.maxValue + 1⟩ = (true, false) := by
        rw [checkRange, if_pos ⟨hcycle, h.base⟩, if_pos hinc, if_neg hsmall,
          if_pos (by dsimp only; omega)]
      have hrefill := refillSequenceCache_of_refetch hbatch hcheck
      rcases hfails' : fails (t.calls + 1) with - | err
      · have hbatch' := @nextBatch_of_le o fails ⟨some o.minValue, t.calls + 1⟩ _ hinc hfails' rfl
          hmax
        have hcheck' := @checkRange_of_not_base o { c with baseOnLastNumber := false }
          ⟨o.minValue, batchStop o o.minValue⟩ rfl
        rw [hseries]
        exact outcome_first hv hinc hmove
          (hrefill.trans (refillSequenceCache_of_range hbatch' hcheck'))
          h.prefetching hprefetch (le_refl _) hmax rfl (by dsimp only; omega)
      · have hfail := @nextBatch_of_fails o fails ⟨some o.minValue, t.calls + 1⟩ _ hfails'
        rw [moveOrRefill_of_failed hmove (hrefill.trans (refillSequenceCache_of_error hfail)),
          hseries]
        refine .failed (.restart rfl h.prefetching hprefetch ?_ hcycle rfl)
          (.inr ⟨t.calls + 1, by omega, by dsimp only; omega, by rw [hfails']; rfl⟩)
          (by dsimp only; omega)
        show c.currNode = _
        rw [← hstop, show o.minValue = c.currNode.start by omega]
  · rw [moveOrRefill_of_failed hmove (refillSequenceCache_of_error (nextBatch_of_fails hfails))]
    exact .failed (.running h hD) (cause_first hfails _) (Nat.le_succ _)

/-- A new cycle begins with the prefetched range. -/
theorem outcome_wrap_prefetched (hused : o.maxValue < c.lastNumber + o.incrementBy)
    (hstop : c.currNode.stop = o.maxValue + 1) (hcycle : o.cycleFlag = true)
    (hprefetch : c.withPrefetchNode = true) :
    Outcome o fails t.calls (nextInSeries o c.lastNumber) (moveOrRefill o fails c t) := by
  have hmin := h.min_le
  have hmax : o.minValue ≤ o.maxValue := hv.min_le_start.trans hv.start_le_max
  obtain ⟨hps, hpsle, hpe, hDeq⟩ := h.prefetched hprefetch
  rw [storedAfter, if_pos ⟨hstop, hcycle⟩] at hps
  rw [hps] at hpe
  have hcombine : c.combinePrefetchNode =
      { c with currNode := ⟨o.minValue, batchStop o o.minValue⟩, withPrefetchNode := false } := by
    rw [ObSequenceCacheItem.combinePrefetchNode, if_pos hprefetch]
    dsimp only
    rw [if_pos (by omega), hps, hpe]
  have hcond := h.needRefillCache_combine hinc (by omega) hprefetch
  have hDeq' : D = storedAfter o (batchStop o o.minValue) := by rw [hDeq, hpe]
  by_cases hsmall : o.minValue < c.lastNumber
  · have hbehind : startsBehind o c.combinePrefetchNode = true := by
      rw [hcombine, startsBehind, if_pos hinc]
      simpa using hsmall
    have hrefill : needRefillCache o c = (false, c.combinePrefetchNode) := by
      rw [hcond, notEnough, if_pos hbehind]
    have htake : takeNext o c.combinePrefetchNode = (o.minValue, c.combinePrefetchNode) := by
      rw [takeNext, if_neg (by rw [hcombine]; dsimp only; rw [h.base]; decide),
        if_pos ⟨hcycle, hbehind⟩, hcombine]
    have hseries : nextInSeries o c.lastNumber = some o.minValue := by
      rw [nextInSeries, if_neg (by omega), if_pos hcycle, if_pos hinc]
    rw [moveOrRefill_of_ok (moveNext_eq_ok hrefill htake (le_refl _) hmax), hcombine]
    refine .value hseries ?_ rfl (hD.trans (congrArg some hDeq')) (le_refl _)
    exact running_batch hv hinc h.base h.prefetching rfl rfl (le_refl _) hmax rfl
  · -- the prefetched range holds only the smallest value, which was the last one
    have hfull : batchStop o o.minValue = o.maxValue + 1 := by
      have := le_increment_mul_batchSize hv hinc
      rw [batchStop, if_pos (by omega)]
    have hlast : c.lastNumber = o.minValue := by omega
    have hrun : Running o c.combinePrefetchNode D := by
      rw [hcombine, hDeq']
      exact running_batch hv hinc h.base h.prefetching rfl hlast.symm hmin (by dsimp only; omega)
        (by dsimp only; rw [hlast])
    have hmove : moveNext o c = (.error .sizeOverflow, c.combinePrefetchNode) := by
      refine moveNext_eq_sizeOverflow (hcond.trans ?_)
      rw [hrun.notEnough_eq hinc, hcombine, decide_eq_true (by dsimp only; omega)]
    have hlast' : c.combinePrefetchNode.lastNumber = c.lastNumber := by rw [hcombine]
    rw [← hlast']
    refine hrun.outcome_wrap hv hinc hD hmove (by omega) ?_ hcycle ?_
    · rw [hcombine]
      exact hfull
    · rw [hcombine]

theorem outcome :
    Outcome o fails t.calls (nextInSeries o c.lastNumber) (moveOrRefill o fails c t) := by
  by_cases hnext : c.lastNumber + o.incrementBy < c.currNode.stop
  · exact h.outcome_inside hinc hD hnext
  · have hused := not_lt.mp hnext
    rcases h.stop_eq with hstop | ⟨hle, -⟩
    · cases hcycle : o.cycleFlag with
      | false => exact h.outcome_end hv hinc hD hused hstop hcycle
      | true =>
        cases hprefetch : c.withPrefetchNode with
        | false =>
          exact h.outcome_wrap hv hinc hD (h.moveNext_usedUp hinc hused hprefetch) (by omega) hstop
            hcycle hprefetch
        | true => exact h.outcome_wrap_prefetched hv hinc hD (by omega) hstop hcycle hprefetch
    · cases hprefetch : c.withPrefetchNode with
      | false => exact h.outcome_refill hv hinc hD hused hle hprefetch
      | true => exact h.outcome_combine hv hinc hD hused hle hprefetch

end Running

/-- **A call between two others** gives the next value of the series, unless a batch fails or the
series has ended. -/
theorem Between.moveOrRefill (hv : o.Valid) (hinc : 0 < o.incrementBy) {next : Option ℤ}
    (h : Between o c t next) : Outcome o fails t.calls next (moveOrRefill o fails c t) := by
  cases h with
  | running hrun hD => exact hrun.outcome hv hinc hD
  | restart base prefetching prefetched node cycle stored =>
    have hmax : o.minValue ≤ o.maxValue := hv.min_le_start.trans hv.start_le_max
    have hmove := moveNext_of_not_base (o := o) base (by rw [node]; dsimp only; omega)
      (by rw [node]) (by rw [node]; exact hmax)
    rw [moveOrRefill_of_ok hmove, node]
    refine .value rfl ?_ rfl stored (le_refl _)
    exact
      { base := rfl
        prefetching := prefetching
        start_eq := rfl
        min_le := le_refl _
        lt_stop := by dsimp only; omega
        stop_eq := .inl rfl
        prefetched := fun htrue => absurd (prefetched.symm.trans htrue) (by decide)
        stored := fun _ => (if_pos ⟨rfl, cycle⟩).symm }
  | fresh calls =>
    have hmove : moveNext o {} = (.error .sizeOverflow, {}) := by
      apply moveNext_eq_sizeOverflow
      rw [needRefillCache, if_pos ⟨rfl, by decide⟩]
    rcases hfails : fails calls with - | err
    · have hbatch := @nextBatch_of_le o fails ⟨none, calls⟩ _ hinc hfails rfl hv.start_le_max
      exact outcome_first hv hinc hmove
        (refillSequenceCache_of_range hbatch (checkRange_of_not_base o rfl)) rfl rfl
        hv.min_le_start hv.start_le_max rfl (Nat.le_succ _)
    · have hfail := @nextBatch_of_fails o fails ⟨none, calls⟩ _ hfails
      rw [moveOrRefill_of_failed hmove (refillSequenceCache_of_error hfail)]
      exact .failed (.fresh (calls + 1)) (@Running.cause_first fails ⟨none, calls⟩ _ hfails _)
        (Nat.le_succ _)

/-- A prefetch keeps the item in order, whether it fails or not. -/
theorem Running.prefetch (hinc : 0 < o.incrementBy) (hv : o.Valid) (h : Running o c D)
    (hD : t.nextValue = some D) :
    ∃ D', Running o (prefetch o fails c t).1 D' ∧
      (prefetch o fails c t).1.lastNumber = c.lastNumber ∧
      (prefetch o fails c t).2.nextValue = some D' ∧ t.calls ≤ (prefetch o fails c t).2.calls := by
  unfold Sequence.prefetch
  dsimp only
  split_ifs with hcond
  · obtain ⟨-, -, -, hprefetch, -⟩ := hcond
    have hstored := h.stored (Bool.of_not_eq_true hprefetch)
    have hmax : o.minValue ≤ o.maxValue := hv.min_le_start.trans hv.start_le_max
    have hkeep : Running o { c with prefetching := false } D := { h with prefetching := rfl }
    by_cases hle : D ≤ o.maxValue
    · rcases hfails : fails t.calls with - | err
      · rw [nextBatch_of_le hinc hfails (by rw [hD]; rfl) hle]
        dsimp only
        refine ⟨_, ?_, rfl, rfl, Nat.le_succ _⟩
        exact
          { base := h.base
            prefetching := rfl
            start_eq := h.start_eq
            min_le := h.min_le
            lt_stop := h.lt_stop
            stop_eq := h.stop_eq
            prefetched := fun _ => ⟨hstored, hle, rfl, rfl⟩
            stored := fun hfalse => Bool.noConfusion hfalse }
      · rw [nextBatch_of_fails hfails]
        exact ⟨D, hkeep, rfl, hD, Nat.le_succ _⟩
    · have hcycle : o.cycleFlag = false := by
        by_contra hne
        have hstop := h.stop_le
        rw [storedAfter] at hstored
        split_ifs at hstored with hc
        · omega
        · exact hc ⟨by omega, Bool.of_not_eq_false hne⟩
      obtain ⟨err, hbatch⟩ := @nextBatch_of_gt o fails t D hv hinc hcycle (by rw [hD]; rfl)
        (not_le.mp hle)
      rw [hbatch]
      exact ⟨D, hkeep, rfl, hD, Nat.le_succ _⟩
  · exact ⟨D, h, rfl, hD, le_refl _⟩

/-- What a call of `nextval` can do, with what follows it. -/
structure Follows (o : ObSequenceOption) (fails : ℕ → Option ObError) (next : Option ℤ)
    (t : SequenceValueTable)
    (r : Except ObError ℤ × ObSequenceCacheItem × SequenceValueTable) : Prop where
  value : ∀ v, r.1 = .ok v → next = some v ∧ Between o r.2.1 r.2.2 (nextInSeries o v)
  failed : ∀ err, r.1 = .error err → Between o r.2.1 r.2.2 next ∧
    (next = none ∨ ∃ j, t.calls ≤ j ∧ j < r.2.2.calls ∧ (fails j).isSome)

theorem Between.nextval (hv : o.Valid) (hinc : 0 < o.incrementBy) {next : Option ℤ}
    (h : Between o c t next) : Follows o fails next t (nextval o fails c t) := by
  have hout : Outcome o fails t.calls next (Sequence.moveOrRefill o fails c t) :=
    h.moveOrRefill hv hinc
  unfold Sequence.nextval
  generalize Sequence.moveOrRefill o fails c t = r at hout
  cases hout with
  | value next_eq running last stored calls_le =>
    obtain ⟨D', hrun, hlast, hD, -⟩ := @Running.prefetch o fails _ _ _ hinc hv running stored
    refine ⟨fun v hvalue => ?_, fun err herr => (by cases herr)⟩
    cases hvalue
    refine ⟨next_eq, ?_⟩
    rw [← last, ← hlast]
    exact .running hrun hD
  | failed between cause calls_le =>
    rename_i err c' t'
    have hfail : ∀ err', Follows o fails next t (.error err', c', t') := fun err' =>
      ⟨fun v hvalue => (by cases hvalue), fun _ _ => ⟨between, cause⟩⟩
    cases err <;> exact hfail _

end Ascending

/-! ### Descending sequences -/

section Mirror

variable {o : ObSequenceOption} {fails : ℕ → Option ObError}

/-- The options of the negated series. -/
def ObSequenceOption.mirror (o : ObSequenceOption) : ObSequenceOption :=
  { o with
    minValue := -o.maxValue
    maxValue := -o.minValue
    startWith := -o.startWith
    incrementBy := -o.incrementBy }

/-- The negated values of a range. -/
def SequenceCacheNode.mirror (n : SequenceCacheNode) : SequenceCacheNode := ⟨-n.start, -n.stop⟩

/-- The item of the negated series. -/
def ObSequenceCacheItem.mirror (c : ObSequenceCacheItem) : ObSequenceCacheItem :=
  { c with
    currNode := c.currNode.mirror
    prefetchNode := c.prefetchNode.mirror
    lastNumber := -c.lastNumber }

/-- The table of the negated series. -/
def SequenceValueTable.mirror (t : SequenceValueTable) : SequenceValueTable :=
  { t with nextValue := t.nextValue.map fun v => -v }

theorem ObSequenceOption.Valid.mirror (h : o.Valid) : o.mirror.Valid where
  min_le_start := neg_le_neg h.start_le_max
  start_le_max := neg_le_neg h.min_le_start
  increment_ne := neg_ne_zero.mpr h.increment_ne
  cacheSize_pos := h.cacheSize_pos

theorem nextInSeries_mirror (hne : o.incrementBy ≠ 0) (v : ℤ) :
    nextInSeries o.mirror (-v) = (nextInSeries o v).map fun v => -v := by
  unfold nextInSeries ObSequenceOption.mirror
  dsimp only
  split_ifs <;> simp <;> omega

variable (c : ObSequenceCacheItem) (t : SequenceValueTable)

theorem combinePrefetchNode_mirror :
    c.mirror.combinePrefetchNode = c.combinePrefetchNode.mirror := by
  unfold ObSequenceCacheItem.combinePrefetchNode ObSequenceCacheItem.mirror
    SequenceCacheNode.mirror
  dsimp only
  split_ifs <;> first | rfl | omega

theorem nextBatch_mirror :
    nextBatch o.mirror fails t.mirror =
      ((nextBatch o fails t).1.map SequenceCacheNode.mirror, (nextBatch o fails t).2.mirror) := by
  have hnext : t.mirror.nextValue.getD o.mirror.startWith = -(t.nextValue.getD o.startWith) := by
    unfold SequenceValueTable.mirror ObSequenceOption.mirror
    cases t.nextValue <;> rfl
  have hcommit (start stop next : ℤ) :
      commitBatch o.mirror ⟨t.mirror.nextValue, t.calls + 1⟩ (-start) (-stop) (-next) =
        ((commitBatch o ⟨t.nextValue, t.calls + 1⟩ start stop next).1.map SequenceCacheNode.mirror,
          (commitBatch o ⟨t.nextValue, t.calls + 1⟩ start stop next).2.mirror) := by
    unfold commitBatch ObSequenceOption.mirror
    dsimp only
    split_ifs <;> first | rfl | omega
  unfold nextBatch
  rw [show t.mirror.calls = t.calls from rfl]
  cases fails t.calls with
  | some e => rfl
  | none =>
    dsimp only
    rw [hnext]
    generalize t.nextValue.getD o.startWith = D
    have hexp : o.mirror.incrementBy * batchSize o.mirror + -D =
        -(o.incrementBy * batchSize o + D) := by
      show -o.incrementBy * batchSize o + -D = _
      ring
    rw [hexp, show o.mirror.cycleFlag = o.cycleFlag from rfl,
      show o.mirror.incrementBy = -o.incrementBy from rfl,
      show o.mirror.maxValue = -o.minValue from rfl,
      show o.mirror.minValue = -o.maxValue from rfl,
      show -o.minValue + 1 = -(o.minValue - 1) by ring,
      show -o.maxValue - 1 = -(o.maxValue + 1) by ring]
    generalize o.incrementBy * batchSize o + D = X
    split_ifs <;> first | omega | exact hcommit _ _ _ | rfl

section

variable (hne : o.incrementBy ≠ 0)
include hne

theorem startsBehind_mirror : startsBehind o.mirror c.mirror = startsBehind o c := by
  unfold startsBehind ObSequenceOption.mirror ObSequenceCacheItem.mirror SequenceCacheNode.mirror
  dsimp only
  split_ifs <;> first | omega | exact decide_eq_decide.mpr (by omega)

theorem notEnough_mirror : notEnough o.mirror c.mirror = notEnough o c := by
  rw [notEnough, notEnough, startsBehind_mirror c hne]
  unfold ObSequenceOption.mirror ObSequenceCacheItem.mirror SequenceCacheNode.mirror
  dsimp only
  split_ifs <;> first | omega | rfl | exact decide_eq_decide.mpr (by omega)

theorem needRefillCache_mirror :
    needRefillCache o.mirror c.mirror =
      ((needRefillCache o c).1, (needRefillCache o c).2.mirror) := by
  have hempty : c.mirror.currNode.start = c.mirror.currNode.stop ↔
      c.currNode.start = c.currNode.stop := neg_inj
  unfold needRefillCache
  dsimp only
  rw [notEnough_mirror c hne, combinePrefetchNode_mirror, notEnough_mirror _ hne,
    show c.mirror.withPrefetchNode = c.withPrefetchNode from rfl,
    show c.mirror.baseOnLastNumber = c.baseOnLastNumber from rfl]
  simp only [hempty]
  split_ifs <;> rfl

theorem takeNext_mirror :
    takeNext o.mirror c.mirror = (-(takeNext o c).1, (takeNext o c).2.mirror) := by
  unfold takeNext
  rw [startsBehind_mirror c hne]
  unfold ObSequenceOption.mirror ObSequenceCacheItem.mirror SequenceCacheNode.mirror
  dsimp only
  split_ifs <;> simp <;> omega

theorem moveNext_mirror :
    moveNext o.mirror c.mirror =
      ((moveNext o c).1.map fun v => -v, (moveNext o c).2.mirror) := by
  unfold moveNext
  rw [needRefillCache_mirror c hne]
  rcases needRefillCache o c with ⟨- | -, c'⟩
  · dsimp only
    rw [takeNext_mirror c' hne]
    rcases takeNext o c' with ⟨v, c''⟩
    unfold ObSequenceOption.mirror
    dsimp only
    split_ifs <;> first | rfl | omega
  · rfl

theorem checkRange_mirror (range : SequenceCacheNode) :
    checkRange o.mirror c.mirror range.mirror = checkRange o c range := by
  unfold checkRange ObSequenceOption.mirror ObSequenceCacheItem.mirror SequenceCacheNode.mirror
  dsimp only
  split_ifs <;> first | rfl | omega

theorem refillSequenceCache_mirror :
    refillSequenceCache o.mirror fails c.mirror t.mirror =
      ((refillSequenceCache o fails c t).1, (refillSequenceCache o fails c t).2.1.mirror,
        (refillSequenceCache o fails c t).2.2.mirror) := by
  induction hb : c.baseOnLastNumber.toNat using Nat.strong_induction_on generalizing c t with
  | _ n ih =>
    have hmirror := @nextBatch_mirror o fails t
    rcases hbatch : nextBatch o fails t with ⟨err | range, t'⟩
    · rw [hbatch] at hmirror
      rw [refillSequenceCache_of_error hbatch, refillSequenceCache_of_error hmirror]
    · rw [hbatch] at hmirror
      have hcheck' := checkRange_mirror c hne range
      rcases hcheck : checkRange o c range with ⟨- | -, base⟩
      · rw [hcheck] at hcheck'
        rw [refillSequenceCache_of_range hbatch hcheck,
          refillSequenceCache_of_range hmirror hcheck']
        rfl
      · -- another range is needed, and the item is no longer based on its last number
        rw [hcheck] at hcheck'
        rw [refillSequenceCache_of_refetch hbatch hcheck,
          refillSequenceCache_of_refetch hmirror hcheck']
        have hbase : base = false ∧ c.baseOnLastNumber = true := by
          unfold checkRange at hcheck
          split_ifs at hcheck <;> simp_all
        refine ih _ ?_ { c with baseOnLastNumber := base } t' rfl
        rw [← hb, hbase.1, hbase.2]
        exact Nat.zero_lt_one

theorem moveOrRefill_mirror :
    moveOrRefill o.mirror fails c.mirror t.mirror =
      ((moveOrRefill o fails c t).1.map fun v => -v, (moveOrRefill o fails c t).2.1.mirror,
        (moveOrRefill o fails c t).2.2.mirror) := by
  unfold moveOrRefill
  rw [moveNext_mirror c hne]
  rcases moveNext o c with ⟨err | v, c'⟩
  · cases err with
    | sizeOverflow =>
      dsimp only [Except.map]
      rw [refillSequenceCache_mirror c' t hne]
      rcases refillSequenceCache o fails c' t with ⟨- | err, c'', t'⟩
      · dsimp only
        rw [moveNext_mirror c'' hne]
        rfl
      · rfl
    | _ => rfl
  · rfl

omit hne in
theorem prefetch_mirror :
    prefetch o.mirror fails c.mirror t.mirror =
      ((prefetch o fails c t).1.mirror, (prefetch o fails c t).2.mirror) := by
  have hrest : ((c.mirror.currNode.stop - c.mirror.currNode.start) * 2).natAbs =
      ((c.currNode.stop - c.currNode.start) * 2).natAbs := by
    show ((-c.currNode.stop - -c.currNode.start) * 2).natAbs = _
    omega
  have hfull : (o.mirror.incrementBy * o.mirror.cacheSize).natAbs =
      (o.incrementBy * o.cacheSize).natAbs := by
    show (-o.incrementBy * o.cacheSize).natAbs = _
    rw [neg_mul, Int.natAbs_neg]
  unfold prefetch
  dsimp only
  rw [hrest, hfull, nextBatch_mirror t, show o.mirror.cacheSize = o.cacheSize from rfl,
    show o.mirror.orderFlag = o.orderFlag from rfl,
    show c.mirror.prefetching = c.prefetching from rfl,
    show c.mirror.withPrefetchNode = c.withPrefetchNode from rfl]
  split_ifs
  · rcases nextBatch o fails t with ⟨err | range, t'⟩ <;> rfl
  · rfl

/-- **A descending sequence** is the mirror image of an ascending one. -/
theorem nextval_mirror :
    nextval o.mirror fails c.mirror t.mirror =
      ((nextval o fails c t).1.map fun v => -v, (nextval o fails c t).2.1.mirror,
        (nextval o fails c t).2.2.mirror) := by
  unfold nextval
  rw [moveOrRefill_mirror c t hne]
  rcases moveOrRefill o fails c t with ⟨err | v, c', t'⟩
  · cases err <;> rfl
  · dsimp only [Except.map]
    rw [prefetch_mirror c' t']

end

end Mirror

/-! ### Runs -/

section Runs

variable {o : ObSequenceOption} {fails : ℕ → Option ObError} {c : ObSequenceCacheItem}
  {t : SequenceValueTable} {next : Option ℤ}

/-- The item and the table between two calls, for a sequence in either direction. -/
def InOrder (o : ObSequenceOption) (c : ObSequenceCacheItem) (t : SequenceValueTable)
    (next : Option ℤ) : Prop :=
  if o.incrementBy > 0 then Between o c t next
  else Between o.mirror c.mirror t.mirror (next.map fun v => -v)

theorem inOrder_new (o : ObSequenceOption) (calls : ℕ) :
    InOrder o {} ⟨none, calls⟩ (some o.startWith) := by
  unfold InOrder
  split_ifs
  · exact .fresh calls
  · exact .fresh calls

/-- A value of `nextval` is the next of the series; an error keeps the place, and the series is at
its end or a refill failed. -/
theorem InOrder.nextval (hv : o.Valid) (h : InOrder o c t next) :
    (∀ v, (nextval o fails c t).1 = .ok v → next = some v ∧
      InOrder o (nextval o fails c t).2.1 (nextval o fails c t).2.2 (nextInSeries o v)) ∧
    ∀ err, (nextval o fails c t).1 = .error err →
      InOrder o (nextval o fails c t).2.1 (nextval o fails c t).2.2 next ∧
        (next = none ∨
          ∃ j, t.calls ≤ j ∧ j < (nextval o fails c t).2.2.calls ∧ (fails j).isSome) := by
  unfold InOrder at h ⊢
  by_cases hinc : o.incrementBy > 0
  · simp only [if_pos hinc] at h ⊢
    have hfollows : Follows o fails next t (Sequence.nextval o fails c t) := h.nextval hv hinc
    exact ⟨hfollows.value, hfollows.failed⟩
  · simp only [if_neg hinc] at h ⊢
    have hne := hv.increment_ne
    have hfollows : Follows o.mirror fails (next.map fun v => -v) t.mirror
        (Sequence.nextval o.mirror fails c.mirror t.mirror) :=
      h.nextval hv.mirror (show 0 < -o.incrementBy by omega)
    rw [nextval_mirror c t hne] at hfollows
    refine ⟨fun v hok => ?_, fun err herr => ?_⟩
    · obtain ⟨hnext, hbetween⟩ := hfollows.value (-v) (by rw [hok]; rfl)
      refine ⟨?_, ?_⟩
      · obtain ⟨w, rfl, hw⟩ := Option.map_eq_some_iff.mp hnext
        rw [neg_inj.mp hw]
      · rw [← nextInSeries_mirror hne]
        exact hbetween
    · obtain ⟨hbetween, hcause⟩ := hfollows.failed err (by rw [herr]; rfl)
      refine ⟨hbetween, hcause.imp (fun hnone => ?_) id⟩
      exact Option.map_eq_none_iff.mp hnone

/-- The values of the successful calls. -/
def successes (results : List (Except ObError ℤ)) : List ℤ := results.filterMap Except.toOption

theorem nextvals_succ (n : ℕ) :
    nextvals o fails (n + 1) =
      let r := nextval o fails (nextvals o fails n).2.1 (nextvals o fails n).2.2
      ((nextvals o fails n).1 ++ [r.1], r.2.1, r.2.2) := rfl

theorem successes_append_ok (results : List (Except ObError ℤ)) (v : ℤ) :
    successes (results ++ [.ok v]) = successes results ++ [v] := List.filterMap_append

theorem successes_append_error (results : List (Except ObError ℤ)) (err : ObError) :
    successes (results ++ [.error err]) = successes results :=
  List.filterMap_append.trans (List.append_nil _)

theorem inOrder_nextvals (hv : o.Valid) (n : ℕ) :
    InOrder o (nextvals o fails n).2.1 (nextvals o fails n).2.2
        (seriesValue o (successes (nextvals o fails n).1).length) ∧
      ∀ i v, (successes (nextvals o fails n).1)[i]? = some v → seriesValue o i = some v := by
  induction n with
  | zero => exact ⟨inOrder_new o 0, fun i v hi => by cases hi⟩
  | succ n ih =>
    obtain ⟨hin, hvalues⟩ := ih
    rw [nextvals_succ]
    dsimp only
    generalize nextvals o fails n = s at hin hvalues
    obtain ⟨hok, herr⟩ := @InOrder.nextval o fails _ _ _ hv hin
    rcases hr : (Sequence.nextval o fails s.2.1 s.2.2).1 with err | v
    · rw [successes_append_error]
      exact ⟨(herr err hr).1, hvalues⟩
    · obtain ⟨hnext, hin'⟩ := hok v hr
      rw [successes_append_ok, List.length_append, List.length_singleton, seriesValue, hnext]
      refine ⟨hin', fun i w hi => ?_⟩
      rw [List.getElem?_append] at hi
      split_ifs at hi with hlt
      · exact hvalues i w hi
      · rw [List.getElem?_singleton] at hi
        split_ifs at hi with hzero
        · have hlen : i = (successes s.1).length := by omega
          rw [hlen, hnext, hi]

/-- **A sequence gives out its series.**  After any number of calls, the values of the successful
ones are the first values of the series; the next call gives the next one, or a batch has failed in
it, or the series of a sequence without cycles has ended. -/
theorem nextvals_series (o : ObSequenceOption) (hv : o.Valid) (fails : ℕ → Option ObError) (n : ℕ) :
    (∀ i v, (successes (nextvals o fails n).1)[i]? = some v → seriesValue o i = some v) ∧
    (∀ v, (nextval o fails (nextvals o fails n).2.1 (nextvals o fails n).2.2).1 = .ok v →
      seriesValue o (successes (nextvals o fails n).1).length = some v) ∧
    ∀ err, (nextval o fails (nextvals o fails n).2.1 (nextvals o fails n).2.2).1 = .error err →
      o.cycleFlag = false ∧ seriesValue o (successes (nextvals o fails n).1).length = none ∨
        ∃ j, (nextvals o fails n).2.2.calls ≤ j ∧
          j < (nextval o fails (nextvals o fails n).2.1 (nextvals o fails n).2.2).2.2.calls ∧
          (fails j).isSome := by
  obtain ⟨hin, hvalues⟩ := @inOrder_nextvals o fails hv n
  obtain ⟨hok, herr⟩ := @InOrder.nextval o fails _ _ _ hv hin
  refine ⟨hvalues, fun v h => (hok v h).1, fun err h => (herr err h).2.imp_left fun hnone => ?_⟩
  refine ⟨?_, hnone⟩
  by_contra hcycle
  exact seriesValue_ne_none (Bool.of_not_eq_false hcycle) _ hnone

/-- From 3 on in steps of 2 up to 6, in cycles from 1 on. -/
def cycling : ObSequenceOption := ⟨1, 6, 3, 2, 2, true, false, false⟩

/-- The second batch fails. -/
def secondFails (j : ℕ) : Option ObError := if j = 1 then some .eAgain else none

/-- A cycling sequence whose second refill fails. -/
theorem nextvals_series_cycle :
    (List.range 5).map (seriesValue cycling) = [some 3, some 5, some 1, some 3, some 5] ∧
    (∀ i v, (successes (nextvals cycling secondFails 5).1)[i]? = some v →
      seriesValue cycling i = some v) ∧
    (∀ v, (nextval cycling secondFails (nextvals cycling secondFails 5).2.1
        (nextvals cycling secondFails 5).2.2).1 = .ok v →
      seriesValue cycling (successes (nextvals cycling secondFails 5).1).length = some v) ∧
    ∀ err, (nextval cycling secondFails (nextvals cycling secondFails 5).2.1
        (nextvals cycling secondFails 5).2.2).1 = .error err →
      ∃ j, (nextvals cycling secondFails 5).2.2.calls ≤ j ∧ (secondFails j).isSome := by
  obtain ⟨hvalues, hok, herr⟩ :=
    nextvals_series cycling ⟨by decide, by decide, by decide, by decide⟩ secondFails 5
  refine ⟨by decide, hvalues, hok, fun err h => ?_⟩
  rcases herr err h with ⟨hcycle, -⟩ | ⟨j, hle, -, hfails⟩
  · cases hcycle
  · exact ⟨j, hle, hfails⟩

end Runs

end Andl.Sequence
