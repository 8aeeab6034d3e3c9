import Andl.Autoinc.AutoincrementService

/-!
# Auto-increment values are unique and stay in their series
-/

namespace Andl.Autoinc

open List

/-! ### The series -/

/-- The values `offset + N × increment`. -/
def InSeries (offset increment v : ℕ) : Prop := ∃ n, v = realOffset offset increment + n * increment

/-- The values of the series in a column. -/
def columnSeries (maxValue offset increment : ℕ) : Set ℕ :=
  {v | InSeries offset increment v ∧ v ≤ maxValue}

theorem InSeries.add {offset increment v : ℕ} (h : InSeries offset increment v) :
    InSeries offset increment (v + increment) := by
  obtain ⟨n, rfl⟩ := h
  exact ⟨n + 1, by ring⟩

/-- **The next value of the series**, away from the end of the words. -/
theorem calcNextValue_spec {lastNextValue offset increment : ℕ} (hinc : 1 ≤ increment)
    (hroom : lastNextValue + increment ≤ 2 ^ 64) :
    ∃ v, calcNextValue lastNextValue offset increment = .ok v ∧ lastNextValue ≤ v ∧
      InSeries offset increment v := by
  unfold calcNextValue
  rw [if_neg (by omega)]
  dsimp only
  by_cases hle : lastNextValue ≤ realOffset offset increment
  · rw [if_pos hle, if_neg (by omega)]
    exact ⟨_, rfl, hle, 0, by omega⟩
  · rw [if_neg hle]
    set x := lastNextValue - realOffset offset increment + increment - 1
    have hlow := Nat.lt_div_mul_add (a := x) hinc
    have hhigh := Nat.div_mul_le_self x increment
    have hmod : x % 2 ^ 64 = x := Nat.mod_eq_of_lt (by omega)
    rw [hmod, Nat.mod_eq_of_lt (by omega), if_neg (by omega)]
    exact ⟨_, rfl, by omega, x / increment, by omega⟩

/-- Wherever `calc_next_value` does not give up, it finds a value of the series. -/
theorem calcNextValue_cases {lastNextValue offset increment : ℕ} (hinc : 1 ≤ increment)
    (hle : increment ≤ 2 ^ 64) :
    ∃ v, calcNextValue lastNextValue offset increment = .ok v ∧
      (v = uint64Max ∨ lastNextValue ≤ v ∧ InSeries offset increment v) := by
  unfold calcNextValue
  rw [if_neg (by omega)]
  refine ⟨_, rfl, ?_⟩
  split_ifs with hoffset hlt hwrap
  · exact .inl rfl
  · exact .inr ⟨hoffset, 0, by omega⟩
  · exact .inl rfl
  · refine .inr ⟨Nat.le_of_not_lt hwrap, ?_⟩
    set x := lastNextValue - realOffset offset increment + increment - 1
    have hx : x < 2 ^ 64 := by
      by_contra hge
      -- a sum that wraps is less than an increment, and the offset is below the last value
      have hmod := Nat.mod_eq_sub_mod (Nat.le_of_not_lt hge)
      have hsub := Nat.mod_le (x - 2 ^ 64) (2 ^ 64)
      have hvalue := Nat.mod_le (x % 2 ^ 64 / increment * increment + realOffset offset increment)
        (2 ^ 64)
      have hdiv := Nat.div_mul_le_self (x % 2 ^ 64) increment
      omega
    have hhigh := Nat.div_mul_le_self x increment
    rw [Nat.mod_eq_of_lt hx] at hwrap ⊢
    have hy : x / increment * increment + realOffset offset increment < 2 ^ 64 := by
      by_contra hge
      have hmod := Nat.mod_eq_sub_mod (Nat.le_of_not_lt hge)
      have hsub := Nat.mod_le
        (x / increment * increment + realOffset offset increment - 2 ^ 64) (2 ^ 64)
      omega
    rw [Nat.mod_eq_of_lt hy]
    exact ⟨x / increment, Nat.add_comm _ _⟩

theorem isGreatest_columnSeries {maxValue offset increment v : ℕ} (hv : InSeries offset increment v)
    (hle : v ≤ maxValue) (hnext : maxValue < v + increment) :
    IsGreatest (columnSeries maxValue offset increment) v := by
  refine ⟨⟨hv, hle⟩, ?_⟩
  rintro u ⟨⟨m, rfl⟩, hu⟩
  obtain ⟨n, rfl⟩ := hv
  have hmn : m < n + 1 := by
    by_contra hge
    have := Nat.mul_le_mul_right increment (Nat.le_of_not_lt hge)
    rw [Nat.add_mul, Nat.one_mul] at this
    omega
  have := Nat.mul_le_mul_right increment (Nat.le_of_lt_succ hmn)
  omega

/-- When `calc_prev_value` stays in the series: always for an offset that is counted as it is. -/
def PrevInSeries (maxValue offset increment : ℕ) : Prop :=
  offset ≤ increment ∨ increment ∣ (if maxValue ≤ offset then maxValue else offset)

instance (maxValue offset increment : ℕ) : Decidable (PrevInSeries maxValue offset increment) :=
  inferInstanceAs (Decidable (_ ∨ _))

theorem inSeries_iff_dvd {offset increment v : ℕ} (h : ¬ offset ≤ increment) :
    InSeries offset increment v ↔ increment ∣ v := by
  rw [InSeries, realOffset, if_pos (by omega)]
  constructor
  · rintro ⟨n, rfl⟩
    exact ⟨n, by ring⟩
  · rintro ⟨n, rfl⟩
    exact ⟨n, by ring⟩

/-- **The last value of the column** is the greatest of the series, if there is one, exactly when
the offset is counted as it is or makes no difference. -/
theorem calcPrevValue_iff (maxValue offset increment : ℕ) (hinc : 1 ≤ increment) :
    (∀ v, calcPrevValue maxValue offset increment = .ok v →
      (columnSeries maxValue offset increment).Nonempty →
        IsGreatest (columnSeries maxValue offset increment) v) ↔
      PrevInSeries maxValue offset increment := by
  have hdiv := Nat.div_mul_le_self (maxValue - offset) increment
  have hdiv' := Nat.lt_div_mul_add (a := maxValue - offset) hinc
  unfold calcPrevValue PrevInSeries
  by_cases hoffset : offset ≤ increment
  · have hreal : realOffset offset increment = offset := if_neg (by omega)
    refine iff_of_true ?_ (.inl hoffset)
    rintro v hv ⟨u, ⟨n, hu⟩, hle⟩
    by_cases hmax : maxValue ≤ offset
    · rw [if_pos hmax, Except.ok.injEq] at hv
      exact isGreatest_columnSeries ⟨0, by omega⟩ hv.ge (by omega)
    · rw [if_neg hmax, if_neg (by omega), Except.ok.injEq] at hv
      exact isGreatest_columnSeries ⟨_, by rw [← hv, hreal, Nat.add_comm]⟩ (by omega) (by omega)
  · have hzero : (columnSeries maxValue offset increment).Nonempty :=
      ⟨0, (inSeries_iff_dvd hoffset).mpr (dvd_zero _), Nat.zero_le _⟩
    by_cases hmax : maxValue ≤ offset
    · simp only [if_pos hmax, Except.ok.injEq, forall_eq', hoffset, false_or]
      constructor
      · intro h
        exact (inSeries_iff_dvd hoffset).mp (h hzero).1.1
      · intro h _
        exact isGreatest_columnSeries ((inSeries_iff_dvd hoffset).mpr h) le_rfl (by omega)
    · simp only [if_neg hmax, if_neg (show ¬ increment = 0 by omega), Except.ok.injEq, forall_eq',
        hoffset, false_or]
      constructor
      · intro h
        have hdvd := (inSeries_iff_dvd hoffset).mp (h hzero).1.1
        exact (Nat.dvd_add_right (Dvd.intro_left _ rfl)).mp hdvd
      · intro h _
        refine isGreatest_columnSeries ((inSeries_iff_dvd hoffset).mpr ?_) (by omega) (by omega)
        exact (Nat.dvd_add_right (Dvd.intro_left _ rfl)).mpr h

/-! ### What `alloc_handle` sets aside -/

/-- A value of a range that was installed. -/
def Covered (installed : List CacheNode) (v : ℕ) : Prop :=
  ∃ range ∈ installed, range.cacheStart ≤ v ∧ v ≤ range.cacheEnd

/-- The values of a cached range were installed. -/
structure RangeOk (maxValue : ℕ) (installed : List CacheNode) (range : CacheNode) : Prop where
  end_le : range.cacheEnd ≤ maxValue
  covered : ∀ v, 1 ≤ v → range.cacheStart ≤ v → v ≤ range.cacheEnd → Covered installed v

/-- Both intervals of a table node were installed. -/
structure NodeOk (maxValue : ℕ) (installed : List CacheNode) (node : TableNode) : Prop where
  curr : RangeOk maxValue installed node.currNode
  prefetched : RangeOk maxValue installed node.prefetchNode

/-- The interval that a call of `alloc_handle` sets aside, if it sets one aside, does not end within
an increment of the end of the words. -/
def HasRoom (maxValue : ℕ) (node : TableNode) (offset increment desiredCount : ℕ) : Prop :=
  ∀ handle ∈ (node.allocHandle offset increment desiredCount maxValue).1.toOption,
    handle.prefetchEnd + increment < 2 ^ 64

instance (maxValue : ℕ) (node : TableNode) (offset increment desiredCount : ℕ) :
    Decidable (HasRoom maxValue node offset increment desiredCount) :=
  inferInstanceAs (Decidable (∀ handle ∈ _, _))

section Ranges

variable {maxValue : ℕ} {installed : List CacheNode} {range range' : CacheNode}

theorem Covered.mono {v : ℕ} (h : Covered installed v) (ranges : List CacheNode) :
    Covered (installed ++ ranges) v := by
  obtain ⟨r, hr, hv⟩ := h
  exact ⟨r, mem_append_left _ hr, hv⟩

theorem rangeOk_empty : RangeOk maxValue installed {} :=
  ⟨Nat.zero_le _, fun v hv _ hle => absurd hle (by show ¬ v ≤ 0; omega)⟩

theorem RangeOk.mono (h : RangeOk maxValue installed range) (ranges : List CacheNode) :
    RangeOk maxValue (installed ++ ranges) range :=
  ⟨h.end_le, fun v hpos hge hle => (h.covered v hpos hge hle).mono ranges⟩

theorem rangeOk_installed (h : range.cacheEnd ≤ maxValue) :
    RangeOk maxValue (installed ++ [range]) range :=
  ⟨h, fun _ _ hge hle => ⟨range, mem_append_right _ (mem_singleton_self _), hge, hle⟩⟩

/-- Two ranges, one right behind the other. -/
theorem RangeOk.append (h : RangeOk maxValue installed range)
    (h' : RangeOk maxValue installed range') (hnext : range'.cacheStart ≤ range.cacheEnd + 1) :
    RangeOk maxValue installed ⟨range.cacheStart, range'.cacheEnd⟩ := by
  refine ⟨h'.end_le, fun v hpos hge hle => ?_⟩
  rcases Nat.lt_or_ge range.cacheEnd v with hv | hv
  · exact h'.covered v hpos (by omega) hle
  · exact h.covered v hpos hge hv

theorem RangeOk.combine (h : RangeOk maxValue installed range)
    (h' : RangeOk maxValue installed range') {combined : CacheNode}
    (hok : range.combineCacheNode range' = .ok combined) : RangeOk maxValue installed combined := by
  unfold CacheNode.combineCacheNode at hok
  split_ifs at hok with hbad hnext
  · cases hok
    exact h.append h' (by omega)
  · cases hok
    exact h'

end Ranges

/-! ### Allocation -/

/-- What holds of a handle. -/
structure HandleOk (maxValue : ℕ) (installed : List CacheNode) (a : AllocatedHandle) : Prop where
  maxValue_eq : a.handle.maxValue = maxValue
  increment_pos : 1 ≤ a.handle.increment
  start_le : a.handle.prefetchStart ≤ a.handle.nextValue
  start_le_end : a.handle.prefetchStart ≤ a.handle.prefetchEnd
  end_le : a.handle.prefetchEnd ≤ maxValue
  /-- The next value is one of the series, unless the end of the column is reached. -/
  inSeries : a.handle.nextValue < maxValue →
    InSeries a.handle.offset a.handle.increment a.handle.nextValue
  room : a.handle.prefetchEnd + a.handle.increment < 2 ^ 64
  synced : maxValue ≤ a.handle.prefetchStart ∨ a.localSync < a.handle.prefetchStart
  covered : ∀ v, a.handle.prefetchStart ≤ v → v ≤ a.handle.prefetchEnd → v < maxValue →
    Covered installed v

namespace TableNode

variable {maxValue offset increment desiredCount : ℕ} {installed : List CacheNode}
  {node : TableNode}

theorem minValue_cases (node : TableNode) (maxValue : ℕ) :
    maxValue ≤ node.minValue maxValue ∨
      node.nextValue ≤ node.minValue maxValue ∧ node.localSync < node.minValue maxValue ∧
        node.currNode.cacheStart ≤ node.minValue maxValue := by
  unfold minValue
  dsimp only
  split_ifs <;> omega

/-- The interval is at the end of the column, or a part of the current range. -/
theorem neededInterval_spec (hinc : 1 ≤ increment) (hle : increment ≤ 2 ^ 64)
    {newNextValue needed : ℕ} (hroom : needed + increment < 2 ^ 64)
    (h : node.neededInterval offset increment desiredCount maxValue = .ok (newNextValue, needed)) :
    (newNextValue = maxValue ∧ needed = maxValue) ∨
      (node.minValue maxValue < maxValue ∧ node.minValue maxValue ≤ newNextValue ∧
        InSeries offset increment newNextValue ∧ newNextValue ≤ needed ∧
        needed ≤ node.currNode.cacheEnd) := by
  have hwords : uint64Max = 2 ^ 64 - 1 := rfl
  unfold neededInterval at h
  by_cases hpending : node.currNodeStateIsPending = true
  · rw [if_pos hpending] at h
    cases h
  rw [if_neg hpending] at h
  by_cases hmax : node.minValue maxValue ≥ maxValue
  · rw [if_pos hmax] at h
    cases h
    exact .inl ⟨rfl, rfl⟩
  rw [if_neg hmax] at h
  by_cases hend : node.minValue maxValue > node.currNode.cacheEnd
  · rw [if_pos hend] at h
    cases h
  obtain ⟨v, hv, hcases⟩ := @calcNextValue_cases (node.minValue maxValue) offset increment hinc hle
  rw [if_neg hend, hv] at h
  change (if v > node.currNode.cacheEnd then _ else _) = _ at h
  split_ifs at h <;> cases h
  · exact .inl ⟨rfl, rfl⟩
  all_goals
    obtain ⟨hmin, hseries⟩ := hcases.resolve_left (by omega)
    exact .inr ⟨by omega, hmin, hseries, by omega, by omega⟩

/-- **An allocation** from the current range. -/
theorem allocFromCurrNode_spec (hnode : NodeOk maxValue installed node)
    (hparams : Service.Allowed ⟨node, [], installed, []⟩ maxValue
      (.allocHandle offset increment desiredCount))
    {handle : CacheHandle} {node' : TableNode} (hwords : handle.prefetchEnd + increment < 2 ^ 64)
    (h : node.allocFromCurrNode offset increment desiredCount maxValue = (.ok handle, node')) :
    NodeOk maxValue installed node' ∧ HandleOk maxValue installed ⟨handle, node.localSync, false⟩ ∧
      handle.prefetchEnd < node'.nextValue ∧
      (maxValue ≤ handle.prefetchStart ∨ node.nextValue ≤ handle.prefetchStart) := by
  obtain ⟨-, ⟨hinc, hle⟩, -⟩ := hparams
  unfold allocFromCurrNode at h
  rcases hneeded : node.neededInterval offset increment desiredCount maxValue with
    err | ⟨newNextValue, needed⟩ <;> rw [hneeded] at h
  · cases h
  dsimp only at h
  by_cases hlast : needed = uint64Max
  · rw [if_pos hlast] at h
    cases h
  rw [if_neg hlast] at h
  cases h
  dsimp only at hwords
  rcases neededInterval_spec hinc (by omega) hwords hneeded with
    ⟨rfl, rfl⟩ | ⟨hlt, hmin, hseries, hle, hend⟩
  · -- at the end of the column nothing is set aside
    refine ⟨⟨hnode.curr, hnode.prefetched⟩, ⟨rfl, hinc, le_rfl, le_rfl, le_rfl, fun hlt => ?_,
      hwords, .inl le_rfl, fun v hge _ hlt => ?_⟩, ?_, .inl le_rfl⟩
    · exact absurd hlt (lt_irrefl _)
    · exact absurd hge (by dsimp only; omega)
    · dsimp only
      rw [Nat.mod_eq_of_lt hwords]
      omega
  · obtain ⟨hnext, hsync, hstart⟩ := (node.minValue_cases maxValue).resolve_left (by omega)
    refine ⟨⟨hnode.curr, hnode.prefetched⟩, ⟨rfl, hinc, le_rfl, hle, hend.trans hnode.curr.end_le,
      fun _ => hseries, hwords, .inr (by dsimp only; omega), fun v hge hle' _ => ?_⟩, ?_,
      .inr (by dsimp only; omega)⟩
    · dsimp only at hge hle'
      exact hnode.curr.covered v (by omega) (by omega) (by omega)
    · dsimp only
      rw [Nat.mod_eq_of_lt hwords]
      omega

/-- A failed allocation from the current range changes nothing. -/
theorem allocFromCurrNode_error {err : ObError} {node' : TableNode}
    (h : node.allocFromCurrNode offset increment desiredCount maxValue = (.error err, node')) :
    node' = node := by
  unfold allocFromCurrNode at h
  split at h
  · cases h
    rfl
  · split_ifs at h <;> cases h
    rfl

theorem allocHandle_cases (hnode : NodeOk maxValue installed node) :
    ∃ base, NodeOk maxValue installed base ∧
      base.nextValue = node.nextValue ∧ base.localSync = node.localSync ∧
      (node.allocHandle offset increment desiredCount maxValue =
          base.allocFromCurrNode offset increment desiredCount maxValue ∨
        ∃ err, node.allocHandle offset increment desiredCount maxValue = (.error err, base)) := by
  unfold allocHandle
  split
  · split_ifs with hprefetched
    · rcases hcombined : node.currNode.combineCacheNode node.prefetchNode with err | combined
      · exact ⟨node, hnode, rfl, rfl, .inr ⟨err, rfl⟩⟩
      · exact ⟨{ node with currNode := combined, prefetchNode := {} },
          ⟨hnode.curr.combine hnode.prefetched hcombined, rangeOk_empty⟩, rfl, rfl, .inl rfl⟩
    · exact ⟨node, hnode, rfl, rfl, .inr ⟨_, rfl⟩⟩
  · exact ⟨node, hnode, rfl, rfl, .inl rfl⟩

end TableNode

/-! ### Runs -/

/-- The values given out of intervals are distinct, covered by installed intervals, above the synced
value and in the series; a value given out at the end of the column is the last of its series. -/
structure SeriesKept (maxValue : ℕ) (s : Service) : Prop where
  distinct : ((s.returned.filter (·.source = .interval)).map (·.value)).Nodup
  covered : ∀ r ∈ s.returned, r.source = .interval → Covered s.installed r.value
  synced : ∀ r ∈ s.returned, r.source = .interval → r.localSync < r.value
  inSeries : ∀ r ∈ s.returned, r.source = .interval → InSeries r.offset r.increment r.value
  last : ∀ r ∈ s.returned, r.source = .exhausted →
    (columnSeries maxValue r.offset r.increment).Nonempty →
      IsGreatest (columnSeries maxValue r.offset r.increment) r.value

/-- A handle has given out a value of its interval. -/
def GivenOut (maxValue : ℕ) (value : ℕ) (handle : CacheHandle) : Prop :=
  handle.prefetchStart ≤ value ∧ value ≤ handle.prefetchEnd ∧ value < handle.nextValue ∧
    value < maxValue

/-- The invariant of a table node and its handles. -/
structure Sound (maxValue : ℕ) (s : Service) : Prop where
  node : NodeOk maxValue s.installed s.node
  handles : ∀ (i : ℕ) a, s.handles[i]? = some a →
    HandleOk maxValue s.installed a ∧ a.handle.prefetchEnd < s.node.nextValue
  /-- The intervals lie one behind the other. -/
  apart : ∀ (i j : ℕ) a b, i < j → s.handles[i]? = some a → s.handles[j]? = some b →
    maxValue ≤ b.handle.prefetchStart ∨ a.handle.prefetchEnd < b.handle.prefetchStart
  returned : ∀ r ∈ s.returned, r.source = .interval →
    ∃ a, s.handles[r.owner]? = some a ∧ GivenOut maxValue r.value a.handle
  kept : SeriesKept maxValue s

/-- An allocation is away from the end of the words, and a handle that has reached the end of the
column has an offset that `calc_prev_value` counts right when a value is taken from it. -/
def Safe (maxValue : ℕ) (s : Service) : Event → Prop
  | .allocHandle offset increment desiredCount =>
    HasRoom maxValue s.node offset increment desiredCount
  | .nextValue owner => ∀ a ∈ s.handleInUse owner, a.handle.valueSource = .exhausted →
    PrevInSeries maxValue a.handle.offset a.handle.increment
  | _ => True

instance (maxValue : ℕ) (s : Service) : ∀ e, Decidable (Safe maxValue s e)
  | .allocHandle offset increment desiredCount =>
    inferInstanceAs (Decidable (HasRoom maxValue s.node offset increment desiredCount))
  | .nextValue owner => inferInstanceAs (Decidable (∀ a ∈ s.handleInUse owner, _ → _))
  | .fetched _ _ | .prefetched _ _ | .fetchedBeyond _ _ | .raiseLocalSync _ |
    .pushInsertValue _ _ _ | .syncInsertValue _ _ | .rowDuplicate _ => isTrue trivial

theorem HandleOk.mono {maxValue : ℕ} {installed : List CacheNode} {a : AllocatedHandle}
    (h : HandleOk maxValue installed a) (ranges : List CacheNode) :
    HandleOk maxValue (installed ++ ranges) a :=
  { h with covered := fun v hge hle hlt => (h.covered v hge hle hlt).mono ranges }

theorem NodeOk.mono {maxValue : ℕ} {installed : List CacheNode} {node : TableNode}
    (h : NodeOk maxValue installed node) (ranges : List CacheNode) :
    NodeOk maxValue (installed ++ ranges) node :=
  ⟨h.curr.mono ranges, h.prefetched.mono ranges⟩

theorem NodeOk.raiseLocalSync {maxValue : ℕ} {installed : List CacheNode} {node : TableNode}
    (h : NodeOk maxValue installed node) (value : ℕ) :
    NodeOk maxValue installed (node.raiseLocalSync value) := by
  unfold TableNode.raiseLocalSync
  split_ifs
  · exact h
  · exact ⟨h.curr, h.prefetched⟩

namespace TableNode

variable (node : TableNode)

theorem raiseLocalSync_nextValue (value : ℕ) :
    (node.raiseLocalSync value).nextValue = node.nextValue := by
  unfold raiseLocalSync
  split_ifs <;> rfl

theorem installFetched_nextValue (range : CacheNode) (syncValue : ℕ) :
    (node.installFetched range syncValue).nextValue = node.nextValue :=
  node.raiseLocalSync_nextValue syncValue

theorem installPrefetched_nextValue (range : CacheNode) (syncValue : ℕ) :
    (node.installPrefetched range syncValue).nextValue = node.nextValue := by
  unfold installPrefetched
  split_ifs
  · rfl
  · exact node.raiseLocalSync_nextValue syncValue

/-- An inserted value raises `local_sync_`, or leaves it as it is. -/
theorem pushInsertValue_eq (maxValue insertValue cacheSize globalSyncValue : ℕ) :
    ∃ value, node.pushInsertValue maxValue insertValue cacheSize globalSyncValue =
      node.raiseLocalSync value := by
  unfold pushInsertValue
  dsimp only
  split_ifs with hle
  · exact ⟨insertValue, (if_pos hle).symm⟩
  · exact ⟨_, rfl⟩
  · exact ⟨_, rfl⟩

end TableNode

namespace Sound

variable {maxValue : ℕ} {s : Service}

theorem start (maxValue : ℕ) (pending : Bool) : Sound maxValue (Service.start pending) where
  node := ⟨rangeOk_empty, rangeOk_empty⟩
  handles _ _ h := by simp [Service.start] at h
  apart _ _ _ _ _ h := by simp [Service.start] at h
  returned _ h := by simp [Service.start] at h
  kept := by constructor <;> simp [Service.start]

/-- A step on the node that sets nothing aside. -/
theorem of_node (h : Sound maxValue s) {node : TableNode} {ranges : List CacheNode}
    (hnode : NodeOk maxValue (s.installed ++ ranges) node)
    (hnext : node.nextValue = s.node.nextValue) :
    Sound maxValue { s with node := node, installed := s.installed ++ ranges } where
  node := hnode
  handles i a ha := ⟨(h.handles i a ha).1.mono ranges, hnext ▸ (h.handles i a ha).2⟩
  apart := h.apart
  returned := h.returned
  kept := { h.kept with covered := fun r hr hs => (h.kept.covered r hr hs).mono ranges }

/-- A step on the node that installs nothing. -/
theorem of_node_same (h : Sound maxValue s) {node : TableNode}
    (hnode : NodeOk maxValue s.installed node) (hnext : node.nextValue = s.node.nextValue) :
    Sound maxValue { s with node := node } := by
  have h' := @of_node maxValue s h node [] (by rwa [append_nil]) hnext
  rwa [append_nil] at h'

variable {i : ℕ} {a : AllocatedHandle}

theorem getElem?_setHandle {j : ℕ} {b : AllocatedHandle} (hi : s.handles[i]? = some a)
    {a' : AllocatedHandle} (hj : (s.setHandle i a').handles[j]? = some b) :
    (i = j ∧ b = a') ∨ (i ≠ j ∧ s.handles[j]? = some b) := by
  have hlt : i < s.handles.length := (List.getElem?_eq_some_iff.mp hi).1
  rw [Service.setHandle, getElem?_set] at hj
  split_ifs at hj with heq
  · exact .inl ⟨heq, (Option.some.inj hj).symm⟩
  · exact .inr ⟨heq, hj⟩

/-- A step on a handle, which keeps its interval and moves forward in it. -/
theorem setHandle (h : Sound maxValue s) {i : ℕ} {a a' : AllocatedHandle}
    (hi : s.handles[i]? = some a) (ha' : HandleOk maxValue s.installed a')
    (hstart : a'.handle.prefetchStart = a.handle.prefetchStart)
    (hend : a'.handle.prefetchEnd = a.handle.prefetchEnd)
    (hnext : a.handle.nextValue ≤ a'.handle.nextValue) : Sound maxValue (s.setHandle i a') where
  node := h.node
  handles j b hj := by
    rcases getElem?_setHandle hi hj with ⟨-, rfl⟩ | ⟨-, hj⟩
    · exact ⟨ha', hend ▸ (h.handles i a hi).2⟩
    · exact h.handles j b hj
  apart j k b c hlt hj hk := by
    rcases getElem?_setHandle hi hj with ⟨rfl, rfl⟩ | ⟨-, hj'⟩ <;>
      rcases getElem?_setHandle hi hk with ⟨rfl, rfl⟩ | ⟨-, hk'⟩
    · exact absurd hlt (lt_irrefl _)
    · rw [hend]
      exact h.apart _ _ _ _ hlt hi hk'
    · rw [hstart]
      exact h.apart _ _ _ _ hlt hj' hi
    · exact h.apart _ _ _ _ hlt hj' hk'
  returned r hr hs := by
    obtain ⟨b, hb, hge, hle, hlt, hmax⟩ := h.returned r hr hs
    have hlen : i < s.handles.length := (List.getElem?_eq_some_iff.mp hi).1
    by_cases heq : i = r.owner
    · subst heq
      cases hi.symm.trans hb
      refine ⟨a', ?_, by omega, by omega, by omega, hmax⟩
      rw [Service.setHandle, getElem?_set_self hlen]
    · exact ⟨b, (getElem?_set_ne heq).trans hb, hge, hle, hlt, hmax⟩
  kept := { h.kept with }

/-- A value of the series is given out for the first time. -/
theorem give_interval (h : Sound maxValue s) {r : ReturnedValue} (hsource : r.source = .interval)
    (ha : s.handles[r.owner]? = some a) (hgiven : GivenOut maxValue r.value a.handle)
    (hfresh : ∀ r' ∈ s.returned, r'.source = .interval → r'.value ≠ r.value)
    (hcovered : Covered s.installed r.value) (hsynced : r.localSync < r.value)
    (hseries : InSeries r.offset r.increment r.value) :
    Sound maxValue { s with returned := s.returned ++ [r] } where
  node := h.node
  handles := h.handles
  apart := h.apart
  returned r' hr' hs := by
    rcases mem_append.mp hr' with hr' | hr'
    · exact h.returned r' hr' hs
    · cases mem_singleton.mp hr'
      exact ⟨a, ha, hgiven⟩
  kept := by
    have hall {p : ReturnedValue → Prop} (hold : ∀ r' ∈ s.returned, r'.source = .interval → p r')
        (hnew : p r) : ∀ r' ∈ s.returned ++ [r], r'.source = .interval → p r' := by
      intro r' hr' hs
      rcases mem_append.mp hr' with hr' | hr'
      · exact hold r' hr' hs
      · exact mem_singleton.mp hr' ▸ hnew
    refine ⟨?_, hall h.kept.covered hcovered, hall h.kept.synced hsynced,
      hall h.kept.inSeries hseries, fun r' hr' hs => ?_⟩
    · rw [filter_append, map_append, nodup_append]
      refine ⟨h.kept.distinct, ?_, fun v hv w hw => ?_⟩
      · simp [hsource]
      · obtain ⟨r', hr', rfl⟩ := mem_map.mp hv
        obtain ⟨hmem, hs⟩ := mem_filter.mp hr'
        obtain ⟨r'', hr'', rfl⟩ := mem_map.mp hw
        cases mem_singleton.mp (mem_filter.mp hr'').1
        exact hfresh r' hmem (of_decide_eq_true hs)
    · rcases mem_append.mp hr' with hr' | hr'
      · exact h.kept.last r' hr' hs
      · cases mem_singleton.mp hr'
        rw [hsource] at hs
        cases hs

/-- A value is given out that is not from an interval. -/
theorem give_other (h : Sound maxValue s) {r : ReturnedValue} (hsource : r.source ≠ .interval)
    (hlast : r.source = .exhausted → (columnSeries maxValue r.offset r.increment).Nonempty →
      IsGreatest (columnSeries maxValue r.offset r.increment) r.value) :
    Sound maxValue { s with returned := s.returned ++ [r] } := by
  have hmem {r' : ReturnedValue} (hr' : r' ∈ s.returned ++ [r]) (hs : r'.source = .interval) :
      r' ∈ s.returned := by
    rcases mem_append.mp hr' with hr' | hr'
    · exact hr'
    · exact absurd (mem_singleton.mp hr' ▸ hs) hsource
  refine ⟨h.node, h.handles, h.apart, fun r' hr' hs => h.returned r' (hmem hr' hs) hs, ?_,
    fun r' hr' hs => h.kept.covered r' (hmem hr' hs) hs,
    fun r' hr' hs => h.kept.synced r' (hmem hr' hs) hs,
    fun r' hr' hs => h.kept.inSeries r' (hmem hr' hs) hs, fun r' hr' hs => ?_⟩
  · have hfilter : [r].filter (fun r' => decide (r'.source = .interval)) = [] := by simp [hsource]
    rw [filter_append, hfilter, append_nil]
    exact h.kept.distinct
  · rcases mem_append.mp hr' with hr' | hr'
    · exact h.kept.last r' hr' hs
    · cases mem_singleton.mp hr'
      exact hlast hs

/-- No value of the rest of an interval has been given out. -/
theorem fresh (h : Sound maxValue s) (ha : s.handles[i]? = some a) {value : ℕ}
    (hge : a.handle.nextValue ≤ value) (hle : value ≤ a.handle.prefetchEnd)
    (hlt : value < maxValue) : ∀ r ∈ s.returned, r.source = .interval → r.value ≠ value := by
  intro r hr hs
  obtain ⟨b, hb, hgiven⟩ := h.returned r hr hs
  have hstart := (h.handles i a ha).1.start_le
  rcases Nat.lt_trichotomy r.owner i with howner | rfl | howner
  · have := h.apart _ _ _ _ howner hb ha
    have := hgiven.2.1
    omega
  · cases ha.symm.trans hb
    have := hgiven.2.2.1
    omega
  · have := h.apart _ _ _ _ howner ha hb
    have := hgiven.1
    have := hgiven.2.2.2
    omega

/-- A handle is allocated. -/
theorem allocHandle (h : Sound maxValue s) {offset increment desiredCount : ℕ}
    (hparams : s.Allowed maxValue (.allocHandle offset increment desiredCount))
    (hsafe : Safe maxValue s (.allocHandle offset increment desiredCount)) :
    Sound maxValue (s.step maxValue (.allocHandle offset increment desiredCount)) := by
  obtain ⟨base, hbase, hnext, hsync, hcases⟩ :=
    @TableNode.allocHandle_cases maxValue offset increment desiredCount _ _ h.node
  have hfailed {err : ObError}
      (heq : s.node.allocHandle offset increment desiredCount maxValue = (.error err, base)) :
      Sound maxValue (s.step maxValue (.allocHandle offset increment desiredCount)) := by
    simp only [Service.step, heq]
    exact h.of_node_same hbase hnext
  rcases hcases with heq | ⟨err, heq⟩
  · rcases halloc : base.allocFromCurrNode offset increment desiredCount maxValue with
      ⟨err | handle, node⟩
    · rw [halloc, TableNode.allocFromCurrNode_error halloc] at heq
      exact hfailed heq
    · have hroom : handle.prefetchEnd + increment < 2 ^ 64 :=
        hsafe handle (by rw [heq.trans halloc]; rfl)
      obtain ⟨hnode, hhandle, hend, hstart⟩ :=
        TableNode.allocFromCurrNode_spec hbase hparams hroom halloc
      rw [hsync] at hhandle
      simp only [Service.step, heq.trans halloc]
      have hbehind (i : ℕ) (a : AllocatedHandle) (ha : s.handles[i]? = some a) :
          maxValue ≤ handle.prefetchStart ∨ a.handle.prefetchEnd < handle.prefetchStart := by
        have := (h.handles i a ha).2
        omega
      have hold (i : ℕ) (a : AllocatedHandle)
          (ha : (s.handles ++ [⟨handle, s.node.localSync, false⟩])[i]? = some a) :
          s.handles[i]? = some a ∨
            (i = s.handles.length ∧ a = ⟨handle, s.node.localSync, false⟩) := by
        rcases Nat.lt_or_ge i s.handles.length with hi | hi
        · exact .inl ((getElem?_append_left hi).symm.trans ha)
        · rw [getElem?_append_right hi, getElem?_singleton] at ha
          split_ifs at ha with hzero
          exact .inr ⟨by omega, (Option.some.inj ha).symm⟩
      refine ⟨hnode, fun i a ha => ?_, fun i j a b hlt ha hb => ?_, fun r hr hs => ?_,
        { h.kept with }⟩
      · rcases hold i a ha with ha | ⟨-, rfl⟩
        · refine ⟨(h.handles i a ha).1, ?_⟩
          have hold' := (h.handles i a ha).2
          have hmax := (h.handles i a ha).1.end_le
          have hle : handle.prefetchStart ≤ handle.prefetchEnd := hhandle.start_le_end
          dsimp only
          omega
        · exact ⟨hhandle, hend⟩
      · rcases hold i a ha with ha | ⟨rfl, rfl⟩ <;> rcases hold j b hb with hb | ⟨rfl, rfl⟩
        · exact h.apart _ _ _ _ hlt ha hb
        · exact hbehind i a ha
        · have := (List.getElem?_eq_some_iff.mp hb).1
          omega
        · omega
      · obtain ⟨a, ha, hgiven⟩ := h.returned r hr hs
        refine ⟨a, ?_, hgiven⟩
        exact (getElem?_append_left (List.getElem?_eq_some_iff.mp ha).1).trans ha
  · exact hfailed heq

theorem getElem?_of_handleInUse (h : s.handleInUse i = some a) : s.handles[i]? = some a :=
  (Option.filter_eq_some_iff.mp h).1

/-- A value is taken from a handle. -/
theorem nextValue (h : Sound maxValue s) {owner : ℕ}
    (hsafe : Safe maxValue s (.nextValue owner)) : Sound maxValue (s.nextValue owner) := by
  unfold Service.nextValue
  rcases hin : s.handleInUse owner with - | a
  · exact h
  have ha := getElem?_of_handleInUse hin
  have hok := (h.handles owner a ha).1
  dsimp only
  rcases hsource : a.handle.valueSource with - | - | -
  · simp only [CacheHandle.takeNextValue, hsource]
    have hset := @setHandle _ _ h _ _ { a with handle := { a.handle with lastRowDupFlag := false } }
      ha { hok with } rfl rfl le_rfl
    refine hset.give_other ?_ ?_ <;> simp
  · -- the interval of the handle
    have hlt : a.handle.nextValue < maxValue := by
      unfold CacheHandle.valueSource at hsource
      split_ifs at hsource with _ hge
      exact hok.maxValue_eq ▸ Nat.lt_of_not_ge hge
    by_cases hend : a.handle.nextValue > a.handle.prefetchEnd
    · simp only [CacheHandle.takeNextValue, hsource, if_pos hend]
      exact h.setHandle ha hok rfl rfl le_rfl
    simp only [CacheHandle.takeNextValue, hsource, if_neg hend]
    have hstart := hok.start_le
    have hwords : a.handle.nextValue + a.handle.increment < 2 ^ 64 := by
      have := hok.room
      omega
    rw [Nat.mod_eq_of_lt hwords]
    have hset := @setHandle _ _ h _ _
      { a with handle :=
        { a.handle with
          lastValueToConfirm := a.handle.nextValue
          lastRowDupFlag := false
          nextValue := a.handle.nextValue + a.handle.increment } } ha
      { hok with
        start_le := hstart.trans (Nat.le_add_right _ _)
        inSeries := fun _ => (hok.inSeries hlt).add }
      rfl rfl (Nat.le_add_right _ _)
    have hpos := hok.increment_pos
    refine hset.give_interval rfl
      (getElem?_set_self (List.getElem?_eq_some_iff.mp ha).1)
      ⟨hstart, Nat.le_of_not_lt hend, by dsimp only; omega, hlt⟩
      (h.fresh ha le_rfl (Nat.le_of_not_lt hend) hlt)
      (hok.covered _ hstart (Nat.le_of_not_lt hend) hlt) ?_ (hok.inSeries hlt)
    have := hok.synced
    dsimp only
    omega
  · -- the end of the column
    simp only [CacheHandle.takeNextValue, hsource]
    rcases hprev : calcPrevValue a.handle.maxValue a.handle.offset a.handle.increment with err | v
    · exact h.setHandle ha hok rfl rfl le_rfl
    · refine (h.setHandle ha hok rfl rfl le_rfl).give_other ?_ fun _ => ?_
      · simp
      rw [hok.maxValue_eq] at hprev
      exact (calcPrevValue_iff _ _ _ hok.increment_pos).mpr (hsafe a hin hsource) v hprev

/-- A statement inserts a value. -/
theorem syncInsertValue (h : Sound maxValue s) (owner insertValue : ℕ) :
    Sound maxValue (s.syncInsertValue owner insertValue) := by
  unfold Service.syncInsertValue
  rcases hin : s.handleInUse owner with - | a
  · exact h
  have ha := getElem?_of_handleInUse hin
  have hok := (h.handles owner a ha).1
  dsimp only
  unfold CacheHandle.syncInsertValue
  by_cases hend : insertValue < a.handle.prefetchEnd
  · rw [if_pos hend]
    by_cases hnext : insertValue ≥ a.handle.nextValue
    · obtain ⟨v, hv, hle, hseries⟩ := @calcNextValue_spec (insertValue + 1) a.handle.offset
        a.handle.increment hok.increment_pos (by have := hok.room; omega)
      rw [if_pos hnext, hv]
      have hstart := hok.start_le
      exact h.setHandle ha
        { hok with start_le := by dsimp only; omega, inSeries := fun _ => hseries } rfl rfl
        (by dsimp only; omega)
    · rw [if_neg hnext]
      exact h.setHandle ha hok rfl rfl le_rfl
  · rw [if_neg hend]
    exact h.setHandle ha { hok with } rfl rfl le_rfl

theorem rowDuplicate (h : Sound maxValue s) (owner : ℕ) :
    Sound maxValue (s.rowDuplicate owner) := by
  unfold Service.rowDuplicate
  rcases hin : s.handleInUse owner with - | a
  · exact h
  · have ha := getElem?_of_handleInUse hin
    exact h.setHandle ha { (h.handles owner a ha).1 with } rfl rfl le_rfl

/-- **Every step** that the callers allow and that is safe keeps the invariant. -/
theorem step (h : Sound maxValue s) {e : Event} (hallowed : s.Allowed maxValue e)
    (hsafe : Safe maxValue s e) : Sound maxValue (s.step maxValue e) := by
  cases e with
  | allocHandle offset increment desiredCount => exact h.allocHandle hallowed hsafe
  | fetched range syncValue =>
    have hrange := @rangeOk_installed _ s.installed _ hallowed.2.2.1
    refine h.of_node ⟨?_, rangeOk_empty⟩ (s.node.installFetched_nextValue range syncValue)
    dsimp only [TableNode.installFetched]
    split_ifs with hnext
    · exact (h.node.curr.mono [range]).append hrange
        (hnext ▸ (Nat.mod_le _ _))
    · exact hrange
  | prefetched range syncValue =>
    refine h.of_node ?_ (s.node.installPrefetched_nextValue range syncValue)
    unfold TableNode.installPrefetched
    split_ifs
    · exact h.node.mono [range]
    · exact ⟨(h.node.raiseLocalSync syncValue).curr.mono [range],
        rangeOk_installed hallowed.2.2.1⟩
  | fetchedBeyond insertValue range =>
    simp only [Service.step, TableNode.installBeyond]
    by_cases hbeyond : insertValue ≥ s.node.currNode.cacheEnd ∧
        insertValue ≥ s.node.prefetchNode.cacheEnd
    · rw [if_pos hbeyond]
      refine h.of_node ⟨?_, rangeOk_empty⟩ rfl
      dsimp only
      split_ifs
      · exact rangeOk_installed hallowed.2.2.1
      · exact h.node.curr.mono [range]
    · rw [if_neg hbeyond]
      exact h.of_node (h.node.mono [range]) rfl
  | raiseLocalSync value =>
    exact h.of_node_same (h.node.raiseLocalSync value) (s.node.raiseLocalSync_nextValue value)
  | pushInsertValue insertValue cacheSize globalSyncValue =>
    obtain ⟨value, hvalue⟩ :=
      s.node.pushInsertValue_eq maxValue insertValue cacheSize globalSyncValue
    simp only [Service.step, hvalue]
    exact h.of_node_same (h.node.raiseLocalSync value) (s.node.raiseLocalSync_nextValue value)
  | nextValue owner => exact h.nextValue hsafe
  | syncInsertValue owner insertValue => exact h.syncInsertValue owner insertValue
  | rowDuplicate owner => exact h.rowDuplicate owner

end Sound

/-- The runs of a table node all of whose steps are safe. -/
def safeService (maxValue : ℕ) : Machine Service Event where
  ok s e := s.Allowed maxValue e ∧ Safe maxValue s e
  next s e := s.step maxValue e

/-- **Auto-increment values are unique and stay in their series** in every run whose allocations
keep away from the end of the words, if `calc_prev_value` counts the offset right for each handle
that has to give the last value of the column. -/
theorem seriesKept_of_accepts (maxValue : ℕ) (pending : Bool) (es : List Event)
    (h : (safeService maxValue).Accepts (Service.start pending) es) :
    SeriesKept maxValue ((service maxValue).run (Service.start pending) es) :=
  (h.invariant (Sound maxValue) (fun _ _ hs hok => hs.step hok.1 hok.2)
    (Sound.start maxValue pending)).kept

instance (maxValue : ℕ) (s : Service) (e : Event) : Decidable ((safeService maxValue).ok s e) :=
  inferInstanceAs (Decidable (_ ∧ _))

/-- Two statements, one of which inserts a value of its own. -/
theorem seriesKept_of_accepts_twoHandles :
    let es := [.fetched ⟨1, 100⟩ 0, .allocHandle 1 2 3, .allocHandle 1 5 2, .nextValue 1,
      .nextValue 0, .syncInsertValue 0 3, .nextValue 0]
    SeriesKept 255 ((service 255).run (Service.start false) es) ∧
      (((service 255).run (Service.start false) es).returned.map (·.value)) = [11, 1, 5] :=
  ⟨seriesKept_of_accepts 255 false _ (by decide), by decide⟩

/-- A value can be given out twice at the end of a column. -/
theorem not_seriesKept :
    (∃ es, (service 255).Accepts (Service.start false) es ∧
      ¬ SeriesKept 255 ((service 255).run (Service.start false) es)) ∧
    ∃ es, (service uint64Max).Accepts (Service.start false) es ∧
      ¬ SeriesKept uint64Max ((service uint64Max).run (Service.start false) es) := by
  refine ⟨⟨[.fetched ⟨1, 255⟩ 0, .raiseLocalSync 255, .allocHandle 5 3 1, .nextValue 0],
    by decide, fun h => ?_⟩,
    ⟨[.fetched ⟨2 ^ 64 - 10, 2 ^ 64 - 1⟩ 0, .allocHandle 6 10 1, .nextValue 0, .allocHandle 6 10 1,
      .nextValue 1], by decide, fun h => absurd h.distinct (by decide)⟩⟩
  -- the series has the multiples of 3, and 254 is given out
  have hmem : (255 : ℕ) ∈ columnSeries 255 5 3 := ⟨⟨85, by decide⟩, le_rfl⟩
  exact absurd ((h.last ⟨0, 254, .exhausted, 5, 3, 255⟩ (by decide) rfl ⟨255, hmem⟩).2 hmem)
    (by decide)

end Andl.Autoinc
