import Andl.Common.Member

/-!
# The fixed sliding window

`FixedSlidingWindow` keeps the tasks of the logs with ids in `[beginSn, endSn)` in an array of
`size` slots, `size` a power of two; the slot of an id are its low bits.
-/

namespace Andl.Palf

/-- `FixedSlidingWindowSlot`: the reference count and the task. -/
structure FixedSlidingWindowSlot (α : Type) where
  ref : Int
  data : α

/-- What is to be seen of a call. -/
inductive SwEvent where
  /-- `sliding_cb` was called for an id, and returned `OB_SUCCESS` or not -/
  | slidingCb (sn : Nat) (succ : Bool)
  /-- a slot was reset -/
  | reset (idx : Nat)
  /-- the window was moved to begin at an id -/
  | resetBeginSn (sn : Nat)
deriving DecidableEq, Repr

/-- `FixedSlidingWindow`. -/
structure FixedSlidingWindow (α : Type) where
  isInited : Bool
  beginSn : Nat
  endSn : Nat
  size : Nat
  array : Nat → FixedSlidingWindowSlot α

namespace FixedSlidingWindow

variable {α : Type} [Inhabited α]

/-- A window that is not initialised. -/
def uninit : FixedSlidingWindow α := ⟨false, 0, 0, 0, fun _ => ⟨0, default⟩⟩

/-- `FixedSlidingWindow::init`, with the memory at hand. -/
def init (w : FixedSlidingWindow α) (startId size : Nat) : ObResult (FixedSlidingWindow α) :=
  if w.isInited then .error .initTwice
  else if 1 ≥ size ∨ size &&& (size - 1) ≠ 0 then .error .invalidArgument
  else .ok ⟨true, startId, startId + size, size, fun _ => ⟨0, default⟩⟩

/-- `FixedSlidingWindow::calc_idx_`. -/
def calcIdx (w : FixedSlidingWindow α) (logId : Nat) : Nat := logId &&& (w.size - 1)

/-- `FixedSlidingWindow::check_id_in_range_`. -/
def checkIdInRange (w : FixedSlidingWindow α) (id : Nat) : ObResult Unit :=
  if id < w.beginSn then .error .errOutOfLowerBound
  else if id ≥ w.endSn then .error .errOutOfUpperBound
  else .ok ()

/-- The window with another reference count in a slot. -/
def setRef (w : FixedSlidingWindow α) (idx : Nat) (ref : Int) : FixedSlidingWindow α :=
  { w with array := Function.update w.array idx { w.array idx with ref := ref } }

/-- The window with another task in a slot. -/
def setData (w : FixedSlidingWindow α) (idx : Nat) (data : α) : FixedSlidingWindow α :=
  { w with array := Function.update w.array idx { w.array idx with data := data } }

/-- The window with a slot reset. -/
def resetSlot (w : FixedSlidingWindow α) (idx : Nat) : FixedSlidingWindow α :=
  w.setData idx default

/-- `FixedSlidingWindow::get`. -/
def get (w : FixedSlidingWindow α) (gId : Nat) : ObResult (FixedSlidingWindow α) :=
  if !w.isInited then .error .notInit
  else do
    w.checkIdInRange gId
    return w.setRef (w.calcIdx gId) ((w.array (w.calcIdx gId)).ref + 1)

/-- The loop of `revert_` that reclaims slots. -/
def reclaim (w : FixedSlidingWindow α) (i tmpEnd tmpId : Nat) :
    FixedSlidingWindow α × List SwEvent :=
  if i = w.calcIdx tmpEnd ∧ tmpId < w.beginSn then
    if ¬ (tmpEnd = w.endSn ∧ (w.array i).ref = 0) then (w, [])
    else
      let w' := { w.resetSlot i with endSn := tmpEnd + 1 }
      let (w'', es) := reclaim w' (w.calcIdx (i + 1)) (tmpEnd + 1) (tmpId + 1)
      (w'', .reset i :: es)
  else (w, [])
termination_by w.beginSn - tmpId
decreasing_by simp only [resetSlot, setData]; omega

/-- `FixedSlidingWindow::revert_`. -/
def revert' (w : FixedSlidingWindow α) (rId : Nat) :
    ObResult (FixedSlidingWindow α × List SwEvent) :=
  if rId ≥ w.endSn then .error .errUnexpected
  else
    let idx := w.calcIdx rId
    let currRef := (w.array idx).ref - 1
    let w' := w.setRef idx currRef
    if 0 > currRef then .error .errUnexpected
    else if 0 = currRef then .ok (w'.reclaim idx w'.endSn rId)
    else .ok (w', [])

/-- `FixedSlidingWindow::revert`. -/
def revert (w : FixedSlidingWindow α) (rId : Nat) :
    ObResult (FixedSlidingWindow α × List SwEvent) :=
  if !w.isInited then .error .notInit
  else if rId + w.size < w.beginSn then .error .errUnexpected
  else w.revert' rId

/-- The loop body of `FixedSlidingWindow::slide`, with the result `slide` returns if it ends here.
-/
def slide (w : FixedSlidingWindow α) (canBeSlid : α → Bool) (cb : Nat → α → ObResult Unit) :
    ObResult Unit × FixedSlidingWindow α × List SwEvent :=
  if !w.isInited then (.error .notInit, w, [])
  else
    let currBegin := w.beginSn
    let idx := w.calcIdx currBegin
    if w.endSn ≤ currBegin then (.ok (), w, [])
    else if !canBeSlid (w.array idx).data then (.ok (), w, [])
    else
      match cb currBegin (w.array idx).data with
      | .error e => (.error e, w, [.slidingCb currBegin false])
      | .ok () =>
        let w' := { w with beginSn := currBegin + 1 }
        if (w'.array idx).ref = 0 ∧ w'.calcIdx w'.endSn = idx then
          (.ok (), { w'.resetSlot idx with endSn := w'.endSn + 1 },
            [.slidingCb currBegin true, .reset idx])
        else (.ok (), w', [.slidingCb currBegin true])

/-- `FixedSlidingWindow::range_truncate_`. -/
def rangeTruncate (w : FixedSlidingWindow α) : List Nat →
    Option (FixedSlidingWindow α × List SwEvent)
  | [] => some (w, [])
  | i :: is =>
    let idx := w.calcIdx i
    if (w.array idx).ref ≠ 0 then none
    else do
      let (w', es) ← rangeTruncate (w.resetSlot idx) is
      some (w', .reset idx :: es)

/-- The ids from `beginTid` on, below `endTid`. -/
def tids (beginTid endTid : Nat) : List Nat := List.range' beginTid (endTid - beginTid)

/-- `FixedSlidingWindow::truncate`. -/
def truncate (w : FixedSlidingWindow α) (tId : Nat) :
    Option (ObResult (FixedSlidingWindow α × List SwEvent)) :=
  if !w.isInited then some (.error .notInit)
  else
    match w.checkIdInRange tId with
    | .error .errOutOfUpperBound => some (.ok (w, []))
    | .error .errOutOfLowerBound => some (.error .errUnexpected)
    | .error e => some (.error e)
    | .ok () => (w.rangeTruncate (tids tId w.endSn)).map .ok

/-- `FixedSlidingWindow::truncate_and_reset_begin_sn`. -/
def truncateAndResetBeginSn (w : FixedSlidingWindow α) (tId : Nat) :
    Option (ObResult (FixedSlidingWindow α × List SwEvent)) :=
  if !w.isInited then some (.ok (w, []))
  else if tId < w.beginSn then some (.error .invalidArgument)
  else if w.calcIdx w.beginSn ≠ w.calcIdx w.endSn then some (.error .errUnexpected)
  else do
    let range := match w.checkIdInRange tId with
      | .error _ => tids w.beginSn w.endSn
      | .ok () => tids w.beginSn tId
    let (w', es) ← w.rangeTruncate range
    some (.ok ({ w' with beginSn := tId, endSn := tId + w'.size }, es ++ [.resetBeginSn tId]))

end FixedSlidingWindow

end Andl.Palf
