import Andl.Common.Member
import Andl.Lib.Run

/-!
# Auto-increment values

`TableNode`, `CacheHandle` and the parts of `ObAutoincrementService` that allocate values in the
mode without order, of `share/ob_autoincrement_service`.
-/

namespace Andl.Autoinc

/-- `UINT64_MAX`. -/
def uint64Max : ℕ := 2 ^ 64 - 1

/-- A cached range of values, both ends included. -/
structure CacheNode where
  cacheStart : ℕ := 0
  cacheEnd : ℕ := 0
deriving DecidableEq

/-- The interval set aside for a statement. -/
structure CacheHandle where
  prefetchStart : ℕ
  prefetchEnd : ℕ
  nextValue : ℕ
  offset : ℕ
  increment : ℕ
  maxValue : ℕ
  lastValueToConfirm : ℕ := 0
  lastRowDupFlag : Bool := false
deriving DecidableEq

/-- The cache of a column. -/
structure TableNode where
  nextValue : ℕ := 0
  localSync : ℕ := 0
  currNode : CacheNode := {}
  prefetchNode : CacheNode := {}
  currNodeStateIsPending : Bool := false
deriving DecidableEq

/-! ### The series -/

/-- The offset that `calc_next_value` counts with. -/
def realOffset (offset increment : ℕ) : ℕ := if offset > increment then 0 else offset

/-- `calc_next_value`: the least value of the series from `lastNextValue` on. -/
def calcNextValue (lastNextValue offset increment : ℕ) : ObResult ℕ :=
  if increment = 0 then .error .errUnexpected
  else
    let newNextValue :=
      if lastNextValue ≤ realOffset offset increment then realOffset offset increment
      else
        ((lastNextValue - realOffset offset increment + increment - 1) % 2 ^ 64
          / increment * increment + realOffset offset increment) % 2 ^ 64
    .ok (if newNextValue < lastNextValue then uint64Max else newNextValue)

/-- `calc_prev_value`, which counts with the offset as it is. -/
def calcPrevValue (maxValue offset increment : ℕ) : ObResult ℕ :=
  if maxValue ≤ offset then .ok maxValue
  else if increment = 0 then .error .errUnexpected
  else .ok ((maxValue - offset) / increment * increment + offset)

/-- `calc_next_cache_boundary`. -/
def calcNextCacheBoundary (insertValue cacheSize maxValue : ℕ) : ℕ :=
  let v := if insertValue % cacheSize = 0 then 0 else 1
  let rounded := (insertValue / cacheSize + v) * cacheSize % 2 ^ 64
  if rounded < insertValue ∨ rounded > maxValue then maxValue else rounded

/-! ### Handles -/

/-- `CacheNode::combine_cache_node`, for a new node that is not empty. -/
def CacheNode.combineCacheNode (node newNode : CacheNode) : ObResult CacheNode :=
  if node.cacheEnd < node.cacheStart ∨ newNode.cacheEnd < newNode.cacheStart ∨
      node.cacheEnd > newNode.cacheStart then .error .errUnexpected
  else if node.cacheEnd > 0 ∧ node.cacheEnd = newNode.cacheStart - 1 then
    .ok ⟨node.cacheStart, newNode.cacheEnd⟩
  else .ok newNode

namespace TableNode

variable (node : TableNode) (offset increment desiredCount maxValue : ℕ)

/-- The least value that `alloc_handle` may give out. -/
def minValue : ℕ :=
  let unused :=
    if node.localSync < node.nextValue then node.nextValue
    else if node.localSync ≥ maxValue then maxValue
    else node.localSync + 1
  if unused < node.currNode.cacheStart then node.currNode.cacheStart else unused

/-- The interval that `alloc_handle` sets aside, from `new_next_value` to `needed_interval`. -/
def neededInterval : ObResult (ℕ × ℕ) :=
  if node.currNodeStateIsPending then .error .sizeOverflow
  else if node.minValue maxValue ≥ maxValue then .ok (maxValue, maxValue)
  else if node.minValue maxValue > node.currNode.cacheEnd then .error .sizeOverflow
  else do
    let newNextValue ← calcNextValue (node.minValue maxValue) offset increment
    if newNextValue > node.currNode.cacheEnd then
      -- at the upper limit no range is fetched any more
      if maxValue = node.currNode.cacheEnd then .ok (maxValue, maxValue) else .error .sizeOverflow
    else
      let sum := (newNextValue + increment * (desiredCount - 1)) % 2 ^ 64
      let needed := if sum < newNextValue then uint64Max else sum
      if needed > node.currNode.cacheEnd then
        if maxValue = node.currNode.cacheEnd then .ok (newNextValue, maxValue)
        else .error .sizeOverflow
      else .ok (newNextValue, needed)

/-- `alloc_handle` from the current range. -/
def allocFromCurrNode : ObResult CacheHandle × TableNode :=
  match node.neededInterval offset increment desiredCount maxValue with
  | .error err => (.error err, node)
  | .ok (newNextValue, needed) =>
    if needed = uint64Max then (.error .errReachAutoincMax, node)
    else
      (.ok
        { prefetchStart := newNextValue, prefetchEnd := needed, nextValue := newNextValue,
          offset := offset, increment := increment, maxValue := maxValue },
        { node with nextValue := (needed + increment) % 2 ^ 64 })

/-- `TableNode::alloc_handle`. -/
def allocHandle : ObResult CacheHandle × TableNode :=
  match node.allocFromCurrNode offset increment desiredCount maxValue with
  | (.error .sizeOverflow, _) =>
    if node.prefetchNode.cacheStart > 0 then
      match node.currNode.combineCacheNode node.prefetchNode with
      | .error err => (.error err, node)
      | .ok combined =>
        { node with currNode := combined, prefetchNode := {} }.allocFromCurrNode
          offset increment desiredCount maxValue
    else (.error .sizeOverflow, node)
  | result => result

/-- `atomic_update` of `local_sync_`. -/
def raiseLocalSync (value : ℕ) : TableNode :=
  if value ≤ node.localSync then node else { node with localSync := value }

/-- What `get_handle_noorder` does with a range it has fetched. -/
def installFetched (fetched : CacheNode) (syncValue : ℕ) : TableNode :=
  let synced := node.raiseLocalSync syncValue
  { synced with
    prefetchNode := {}
    currNode :=
      if fetched.cacheStart = (node.currNode.cacheEnd + 1) % 2 ^ 64 then
        ⟨node.currNode.cacheStart, fetched.cacheEnd⟩
      else fetched
    currNodeStateIsPending := false }

/-- What `get_handle_noorder` does with a range it has prefetched. -/
def installPrefetched (prefetched : CacheNode) (syncValue : ℕ) : TableNode :=
  if node.prefetchNode.cacheStart ≠ 0 ∨ prefetched.cacheStart ≤ node.currNode.cacheEnd then node
  else
    let synced := node.raiseLocalSync syncValue
    { synced with prefetchNode := prefetched }

/-- What `sync_insert_value_noorder` does to `local_sync_`, with the value it gets back from the
global service. -/
def pushInsertValue (insertValue cacheSize globalSyncValue : ℕ) : TableNode :=
  if insertValue ≤ node.localSync then node
  else
    let valueToSync := calcNextCacheBoundary insertValue cacheSize maxValue
    if valueToSync ≤ globalSyncValue then node.raiseLocalSync globalSyncValue
    else node.raiseLocalSync valueToSync

/-- What `sync_insert_value_noorder` does with a range that it has fetched for an inserted value
beyond the cached ones. -/
def installBeyond (insertValue : ℕ) (fetched : CacheNode) : TableNode :=
  if insertValue ≥ node.currNode.cacheEnd ∧ insertValue ≥ node.prefetchNode.cacheEnd then
    { node with
      prefetchNode := {}
      currNode := if fetched.cacheEnd > node.currNode.cacheEnd then fetched else node.currNode }
  else node

end TableNode

/-- Where `next_value` takes the value from. -/
inductive ValueSource where
  /-- The value of the last row, which was a duplicate. -/
  | lastRow
  /-- The interval of the handle. -/
  | interval
  /-- The handle has reached the end of the column. -/
  | exhausted
deriving DecidableEq

namespace CacheHandle

variable (handle : CacheHandle)

/-- The case that `next_value` is in. -/
def valueSource : ValueSource :=
  if handle.lastRowDupFlag ∧ handle.lastValueToConfirm ≠ 0 then .lastRow
  else if handle.nextValue ≥ handle.maxValue then .exhausted
  else .interval

/-- `CacheHandle::next_value`. -/
def takeNextValue : ObResult ℕ × CacheHandle :=
  match handle.valueSource with
  | .lastRow => (.ok handle.lastValueToConfirm, { handle with lastRowDupFlag := false })
  | .exhausted => (calcPrevValue handle.maxValue handle.offset handle.increment, handle)
  | .interval =>
    if handle.nextValue > handle.prefetchEnd then (.error .errUnexpected, handle)
    else
      (.ok handle.nextValue,
        { handle with
          lastValueToConfirm := handle.nextValue
          lastRowDupFlag := false
          nextValue := (handle.nextValue + handle.increment) % 2 ^ 64 })

/-- What `sync_insert_value_noorder` does with the handle in use. -/
def syncInsertValue (offset increment insertValue : ℕ) : ObResult (Option CacheHandle) :=
  if insertValue < handle.prefetchEnd then
    if insertValue ≥ handle.nextValue then do
      let nextValue ← calcNextValue (insertValue + 1) offset increment
      .ok (some { handle with nextValue := nextValue })
    else .ok (some handle)
  else .ok none

end CacheHandle

/-! ### The system -/

/-- A handle that was allocated, with the `local_sync_` seen then. -/
structure AllocatedHandle where
  handle : CacheHandle
  localSync : ℕ
  freed : Bool := false
deriving DecidableEq

/-- A value that was given out, with the number of its handle. -/
structure ReturnedValue where
  owner : ℕ
  value : ℕ
  source : ValueSource
  offset : ℕ
  increment : ℕ
  localSync : ℕ
deriving DecidableEq

/-- A table node, its handles, the ranges installed in it and the values given out. -/
structure Service where
  node : TableNode
  handles : List AllocatedHandle := []
  installed : List CacheNode := []
  returned : List ReturnedValue := []
deriving DecidableEq

/-- The steps. -/
inductive Event where
  | allocHandle (offset increment desiredCount : ℕ)
  | fetched (range : CacheNode) (syncValue : ℕ)
  | prefetched (range : CacheNode) (syncValue : ℕ)
  | fetchedBeyond (insertValue : ℕ) (range : CacheNode)
  | raiseLocalSync (value : ℕ)
  | pushInsertValue (insertValue cacheSize globalSyncValue : ℕ)
  | nextValue (owner : ℕ)
  | syncInsertValue (owner insertValue : ℕ)
  | rowDuplicate (owner : ℕ)

namespace Service

variable (s : Service)

/-- A handle in use. -/
def handleInUse (owner : ℕ) : Option AllocatedHandle :=
  (s.handles[owner]?).filter fun a => !a.freed

/-- The handle of a statement is replaced. -/
def setHandle (owner : ℕ) (a : AllocatedHandle) : Service :=
  { s with handles := s.handles.set owner a }

/-- A statement takes a value from its handle. -/
def nextValue (owner : ℕ) : Service :=
  match s.handleInUse owner with
  | none => s
  | some a =>
    let next := s.setHandle owner { a with handle := a.handle.takeNextValue.2 }
    match a.handle.takeNextValue.1 with
    | .error _ => next
    | .ok value =>
      { next with
        returned := s.returned ++
          [⟨owner, value, a.handle.valueSource, a.handle.offset, a.handle.increment,
            a.localSync⟩] }

/-- A statement inserts a value of its own. -/
def syncInsertValue (owner insertValue : ℕ) : Service :=
  match s.handleInUse owner with
  | none => s
  | some a =>
    match a.handle.syncInsertValue a.handle.offset a.handle.increment insertValue with
    | .error _ => s
    | .ok none => s.setHandle owner { a with freed := true }
    | .ok (some handle) => s.setHandle owner { a with handle := handle }

/-- A row of the statement is a duplicate. -/
def rowDuplicate (owner : ℕ) : Service :=
  match s.handleInUse owner with
  | none => s
  | some a => s.setHandle owner { a with handle := { a.handle with lastRowDupFlag := true } }

/-- One step, for a column whose greatest value is `maxValue`. -/
def step (maxValue : ℕ) : Event → Service
  | .allocHandle offset increment desiredCount =>
    let result := s.node.allocHandle offset increment desiredCount maxValue
    match result.1 with
    | .error _ => { s with node := result.2 }
    | .ok handle =>
      { s with node := result.2, handles := s.handles ++ [⟨handle, s.node.localSync, false⟩] }
  | .fetched range syncValue =>
    { s with node := s.node.installFetched range syncValue, installed := s.installed ++ [range] }
  | .prefetched range syncValue =>
    { s with node := s.node.installPrefetched range syncValue, installed := s.installed ++ [range] }
  | .fetchedBeyond insertValue range =>
    { s with node := s.node.installBeyond insertValue range, installed := s.installed ++ [range] }
  | .raiseLocalSync value => { s with node := s.node.raiseLocalSync value }
  | .pushInsertValue insertValue cacheSize globalSyncValue =>
    { s with node := s.node.pushInsertValue maxValue insertValue cacheSize globalSyncValue }
  | .nextValue owner => s.nextValue owner
  | .syncInsertValue owner insertValue => s.syncInsertValue owner insertValue
  | .rowDuplicate owner => s.rowDuplicate owner

/-- What the callers see to: parameters from 1 to 65535, and ranges up to `maxValue`, each above
those before it. -/
def Allowed (maxValue : ℕ) : Event → Prop
  | .allocHandle offset increment desiredCount =>
    (1 ≤ offset ∧ offset ≤ 65535) ∧ (1 ≤ increment ∧ increment ≤ 65535) ∧
      1 ≤ desiredCount ∧ desiredCount ≤ 65535
  | .fetched range _ | .prefetched range _ | .fetchedBeyond _ range =>
    1 ≤ range.cacheStart ∧ range.cacheStart ≤ range.cacheEnd ∧ range.cacheEnd ≤ maxValue ∧
      ∀ r ∈ s.installed, r.cacheEnd < range.cacheStart
  | .pushInsertValue _ cacheSize _ => 1 ≤ cacheSize
  | _ => True

instance (maxValue : ℕ) : ∀ e, Decidable (s.Allowed maxValue e)
  | .allocHandle _ _ _ => inferInstanceAs (Decidable (_ ∧ _))
  | .fetched _ _ | .prefetched _ _ | .fetchedBeyond _ _ => inferInstanceAs (Decidable (_ ∧ _))
  | .pushInsertValue _ _ _ => inferInstanceAs (Decidable (_ ≤ _))
  | .raiseLocalSync _ | .nextValue _ | .syncInsertValue _ _ | .rowDuplicate _ => isTrue trivial

end Service

/-- The runs of a table node. -/
def service (maxValue : ℕ) : Machine Service Event where
  ok s e := s.Allowed maxValue e
  next s e := s.step maxValue e

instance (maxValue : ℕ) (s : Service) (e : Event) : Decidable ((service maxValue).ok s e) :=
  inferInstanceAs (Decidable (s.Allowed maxValue e))

/-- A table node as it is made, or as it is reset for a new version of the column. -/
def Service.start (pending : Bool) : Service := { node := { currNodeStateIsPending := pending } }

end Andl.Autoinc
