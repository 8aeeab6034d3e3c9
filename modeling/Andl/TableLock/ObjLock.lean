import Andl.Container.PlacementHashSet
import Andl.TableLock.Common

/-!
# The lock of one object

`ObOBJLock` keeps, for each of the five modes, the list of the lock and unlock operations recorded
for it, and counts the row share and row exclusive locks of data manipulation, which are not
recorded.
-/

namespace Andl.TableLock

open Andl.Storage (ObTransID)
open Andl.Container (ObIteratableHashSet)

/-- `ObOBJLock`: the fields the modelled functions read. -/
structure ObOBJLock where
  map : Fin tableLockModeCount → Option ObTableLockOpList
  rowShare : ℕ
  rowExclusive : ℕ
  own_mode : ∀ i, ∀ node ∈ (map i).getD [], node.lockOp.lockMode = getLockModeByIndex i

/-- `ObTxIDSet`. -/
abbrev ObTxIDSet := ObIteratableHashSet ObTransID 16

/-! ### The operations of the same mode -/

/-- `check_op_allow_lock_from_list_`. -/
def checkOpAllowLockFromList (lockOp : ObTableLockOp) :
    ObTableLockOpList → ObResult Unit → ObResult Unit
  | [], ret => ret
  | curr :: rest, ret =>
    match lockOp.opType with
    | .inTransDmlLock | .inTransCommonLock =>
      if curr.lockOp.createTransId = lockOp.createTransId ∧
          (curr.lockOp.opType = .inTransDmlLock ∨ curr.lockOp.opType = .inTransCommonLock) then
        if curr.lockOp.lockId.objType = .dbmsLock then
          checkOpAllowLockFromList lockOp rest (.error .objLockExist)
        else if curr.lockOp.lockOpStatus ≠ .doing then .error .errUnexpected
        else checkOpAllowLockFromList lockOp rest ret
      else checkOpAllowLockFromList lockOp rest ret
    | .outTransLock =>
      if curr.lockOp.ownerId = lockOp.ownerId then
        match curr.lockOp.opType with
        | .outTransLock =>
          match curr.lockOp.lockOpStatus with
          | .doing => .error .tryLockRowConflict
          | .complete => checkOpAllowLockFromList lockOp rest (.error .objLockExist)
          | .unknownStatus => .error .errUnexpected
        | .outTransUnlock => .error .tryLockRowConflict
        | .inTransCommonLock =>
          if curr.lockOp.createTransId = lockOp.createTransId then
            checkOpAllowLockFromList lockOp rest ret
          else .error .tryLockRowConflict
        | _ => .error .errUnexpected
      else checkOpAllowLockFromList lockOp rest ret
    | _ => .error .errUnexpected

/-- `check_op_allow_lock_`. -/
def checkOpAllowLock (obj : ObOBJLock) (lockOp : ObTableLockOp) : ObResult Unit :=
  if lockOp.isValid = false then .error .invalidArgument
  else
    match obj.map (getIndexByLockMode lockOp.lockMode) with
    | none => .ok ()
    | some opList => checkOpAllowLockFromList lockOp opList (.ok ())

/-! ### The modes held by others -/

/-- Whether two operations of one owner are a committed lock and its running unlock by `transId`,
the lock first. -/
def isReplaced (transId : ObTransID) (lock unlock : ObTableLockOp) : Bool :=
  lock.opType = .outTransLock ∧ unlock.opType = .outTransUnlock ∧
    lock.lockOpStatus = .complete ∧ unlock.lockOpStatus = .doing ∧
    transId = unlock.createTransId

/-- The loop of `check_allow_replace_from_list_`. -/
def replaceLoop (transId : ObTransID) :
    ObTableLockOpList → (ℤ → Option ObTableLockOp) → ℤ → ℤ
  | [], _, lockOpCnt => lockOpCnt
  | curr :: rest, lockOpMap, lockOpCnt =>
    match lockOpMap curr.lockOp.ownerId.id with
    | none =>
      replaceLoop transId rest
        (Function.update lockOpMap curr.lockOp.ownerId.id (some curr.lockOp)) lockOpCnt
    | some lockOp =>
      if isReplaced transId lockOp curr.lockOp || isReplaced transId curr.lockOp lockOp then
        replaceLoop transId rest lockOpMap (lockOpCnt - 2)
      else lockOpCnt

/-- `check_allow_replace_from_list_`. -/
def checkAllowReplaceFromList (opList : ObTableLockOpList) (transId : ObTransID) : Bool :=
  replaceLoop transId opList (fun _ => none) opList.length = 0

/-- The number of operations in the list of a mode. -/
def ObOBJLock.listSize (obj : ObOBJLock) (i : Fin tableLockModeCount) : ℕ :=
  ((obj.map i).getD []).length

/-- The locks of data manipulation that have no operation in the list of a mode. -/
def ObOBJLock.unnamed (obj : ObOBJLock) (mode : ObTableLockMode) : ℕ :=
  match mode with
  | .rowShare => obj.rowShare
  | .rowExclusive => obj.rowExclusive
  | _ => 0

/-- Whether the list of a mode is taken as empty because the transaction is replacing all of it
(step 2.1 of `get_other_trans_lock_mode_`). -/
def ObOBJLock.isListReplaced (obj : ObOBJLock) (cnt : ℤ) (transId : ObTransID)
    (isForReplace : Bool) (i : Fin tableLockModeCount) : Bool :=
  isForReplace && decide (2 ≤ cnt) &&
    match obj.map i with
    | none => false
    | some opList => decide (2 ≤ opList.length) && checkAllowReplaceFromList opList transId

/-- `lock_mode_cnt[i]` of `get_other_trans_lock_mode_`. -/
def ObOBJLock.lockModeCnt (obj : ObOBJLock) (cntInSameTrans : Fin tableLockModeCount → ℕ)
    (transId : ObTransID) (isForReplace : Bool) (i : Fin tableLockModeCount) : ℤ :=
  let cnt : ℤ := obj.listSize i + obj.unnamed (getLockModeByIndex i) - cntInSameTrans i
  if obj.isListReplaced cnt transId isForReplace i then 0 else cnt

/-- `get_other_trans_lock_mode_`. -/
def ObOBJLock.getOtherTransLockMode (obj : ObOBJLock)
    (cntInSameTrans : Fin tableLockModeCount → ℕ) (transId : ObTransID) (isForReplace : Bool) :
    ℕ :=
  (List.finRange tableLockModeCount).foldl
    (fun lockModes i =>
      lockModes |||
        (if 0 < obj.lockModeCnt cntInSameTrans transId isForReplace i then
          (getLockModeByIndex i).bits else 0)) 0

/-! ### The transactions in the way -/

/-- `exist_others_` over one list. -/
def existOthersInList (myself : ObTableLockOp) (opList : ObTableLockOpList) : Bool :=
  opList.any fun curr =>
    myself.createTransId ≠ curr.lockOp.createTransId ∧
      ¬(myself.ownerId.isDefault = false ∧ myself.ownerId = curr.lockOp.ownerId)

/-- `exist_others_` over the lists of the modes that share an elementary lock with `lockModes`. -/
def ObOBJLock.existOthers (obj : ObOBJLock) (myself : ObTableLockOp) (lockModes : ℕ) : Bool :=
  if ObTableLockMode.rowShare.bits &&& lockModes ≠ 0 ∧ obj.rowShare ≠ 0 then true
  else if ObTableLockMode.rowExclusive.bits &&& lockModes ≠ 0 ∧ obj.rowExclusive ≠ 0 then true
  else
    (List.finRange tableLockModeCount).any fun i =>
      decide ((getLockModeByIndex i).bits &&& lockModes ≠ 0) &&
        existOthersInList myself ((obj.map i).getD [])

/-- `get_tx_id_set_` over one list. -/
def getTxIdSetFromList (hash : ObTransID → ℕ) (myselfTx : ObTransID) (includeFinishTx : Bool) :
    ObTableLockOpList → ObTxIDSet → ObTxIDSet × ObResult Unit
  | [], txIdSet => (txIdSet, .ok ())
  | curr :: rest, txIdSet =>
    if (includeFinishTx ∨ curr.lockOp.lockOpStatus = .doing) ∧
        myselfTx ≠ curr.lockOp.createTransId then
      match txIdSet.setRefactored hash curr.lockOp.createTransId with
      | .ok txIdSet' => getTxIdSetFromList hash myselfTx includeFinishTx rest txIdSet'
      | .error .hashExist => getTxIdSetFromList hash myselfTx includeFinishTx rest txIdSet
      | .error e => (txIdSet, .error e)
    else getTxIdSetFromList hash myselfTx includeFinishTx rest txIdSet

/-- The loop of `get_tx_id_set_` over the modes. -/
def getTxIdSetLoop (obj : ObOBJLock) (hash : ObTransID → ℕ) (myselfTx : ObTransID)
    (lockModes : ℕ) (includeFinishTx : Bool) :
    List (Fin tableLockModeCount) → ObTxIDSet → ObTxIDSet × ObResult Unit
  | [], txIdSet => (txIdSet, .ok ())
  | i :: rest, txIdSet =>
    let currMode := (getLockModeByIndex i).bits
    if currMode &&& lockModes = currMode then
      match getTxIdSetFromList hash myselfTx includeFinishTx ((obj.map i).getD []) txIdSet with
      | (txIdSet', .ok ()) =>
        getTxIdSetLoop obj hash myselfTx lockModes includeFinishTx rest txIdSet'
      | (txIdSet', .error e) => (txIdSet', .error e)
    else getTxIdSetLoop obj hash myselfTx lockModes includeFinishTx rest txIdSet

/-- `get_tx_id_set_`. -/
def ObOBJLock.getTxIdSet (obj : ObOBJLock) (hash : ObTransID → ℕ) (myselfTx : ObTransID)
    (lockModes : ℕ) (includeFinishTx : Bool) : ObTxIDSet × ObResult Unit :=
  getTxIdSetLoop obj hash myselfTx lockModes includeFinishTx
    (List.finRange tableLockModeCount) .empty

/-! ### The check of a request -/

/-- What `check_allow_lock_` hands back. -/
structure CheckAllowLock where
  ret : ObResult Unit
  conflictTxSet : ObTxIDSet
  conflictWithDmlLock : Bool

/-- Whether a conflict is with a lock of data manipulation. -/
def ObOBJLock.isDmlConflict (obj : ObOBJLock) (conflictModes : ℕ) : Bool :=
  (decide (conflictModes &&& ObTableLockMode.rowShare.bits ≠ 0) && decide (obj.rowShare ≠ 0)) ||
    (decide (conflictModes &&& ObTableLockMode.rowExclusive.bits ≠ 0) &&
      decide (obj.rowExclusive ≠ 0))

/-- The return code and the conflicting elementary locks of the first half of `check_allow_lock_`.
-/
def ObOBJLock.checkModes (obj : ObOBJLock) (lockOp : ObTableLockOp)
    (cntInSameTrans : Fin tableLockModeCount → ℕ) (checkForReplace : Bool) :
    ObResult Unit × ℕ :=
  match if lockOp.needRecordLockOp then checkOpAllowLock obj lockOp else .ok () with
  | .error e => (.error e, 0)
  | .ok () =>
    let currLockMode :=
      obj.getOtherTransLockMode cntInSameTrans lockOp.createTransId checkForReplace
    let r := requestLock currLockMode lockOp.lockMode.bits
    if r.1 = false ∧ obj.existOthers lockOp r.2 then (.error .tryLockRowConflict, r.2)
    else (.ok (), r.2)

/-- `check_allow_lock_`. -/
def ObOBJLock.checkAllowLock (obj : ObOBJLock) (hash : ObTransID → ℕ) (lockOp : ObTableLockOp)
    (cntInSameTrans : Fin tableLockModeCount → ℕ) (includeFinishTx onlyCheckDmlLock : Bool)
    (checkForReplace : Bool) : CheckAllowLock :=
  let r := obj.checkModes lockOp cntInSameTrans checkForReplace
  let conflictModes := r.2
  let conflictTxSet :=
    if r.1 = .error .tryLockRowConflict ∧ conflictModes ≠ 0 then
      (obj.getTxIdSet hash lockOp.createTransId conflictModes includeFinishTx).1
    else .empty
  let ret :=
    if r.1 = .error .tryLockRowConflict ∧ onlyCheckDmlLock then
      if obj.isDmlConflict conflictModes then .error .tryLockRowConflict else .ok ()
    else r.1
  ⟨ret, conflictTxSet,
    decide (ret = .error .tryLockRowConflict) && obj.isDmlConflict conflictModes⟩

/-! ### Compaction -/

/-- `get_first_complete_unlock_op_`. -/
def getFirstCompleteUnlockOp (opList : ObTableLockOpList) : Option ObTableLockOp :=
  (opList.find? (·.isCompleteOuttransUnlock)).map (·.lockOp)

/-- The search of `compact_tablelock_` for a lock and an unlock like `unlockOp`. -/
def findPair (unlockOp : ObTableLockOp) :
    ObTableLockOpList → ℕ → Option ℕ → Option ℕ → Option ℕ × Option ℕ
  | [], _, lockOpPtr, unlockOpPtr => (lockOpPtr, unlockOpPtr)
  | curr :: rest, pos, lockOpPtr, unlockOpPtr =>
    if curr.lockOp.ownerId = unlockOp.ownerId ∧ curr.lockOp.lockMode = unlockOp.lockMode then
      let lockOpPtr' := if curr.isCompleteOuttransLock then some pos else lockOpPtr
      let unlockOpPtr' :=
        if curr.isCompleteOuttransLock = false ∧ curr.isCompleteOuttransUnlock then some pos
        else unlockOpPtr
      if lockOpPtr'.isSome ∧ unlockOpPtr'.isSome then (lockOpPtr', unlockOpPtr')
      else findPair unlockOp rest (pos + 1) lockOpPtr' unlockOpPtr'
    else findPair unlockOp rest (pos + 1) lockOpPtr unlockOpPtr

/-- `ObDList::remove` for the nodes at the given positions, `pos` being the one of the head. -/
def removeNodes (ptrs : List ℕ) : ObTableLockOpList → ℕ → ObTableLockOpList
  | [], _ => []
  | curr :: rest, pos =>
    if pos ∈ ptrs then removeNodes ptrs rest (pos + 1)
    else curr :: removeNodes ptrs rest (pos + 1)

/-- `compact_tablelock_` for one unlock operation. -/
def compactOp (unlockOp : ObTableLockOp) (opList : ObTableLockOpList) (isForce : Bool) :
    ObResult (ObTableLockOpList × Bool) :=
  if unlockOp.isValid = false then .error .invalidArgument
  else
    let p := findPair unlockOp opList 0 none none
    let isCompact := p.1.isSome
    if (isCompact ∨ isForce) ∧ p.2.isSome then
      .ok (removeNodes (p.1.toList ++ p.2.toList) opList 0, true)
    else .ok (removeNodes p.1.toList opList 0, isCompact)

/-- The loop of `compact_tablelock_` over one list, with `fuel` rounds at most. -/
def compactLoop (isForce : Bool) :
    ℕ → ObTableLockOpList → Bool → Option (ObResult (ObTableLockOpList × Bool))
  | 0, _, _ => none
  | fuel + 1, opList, isCompact =>
    match getFirstCompleteUnlockOp opList with
    | none => some (.ok (opList, isCompact))
    | some unlockOp =>
      match compactOp unlockOp opList isForce with
      | .error e => some (.error e)
      | .ok (opList', true) => compactLoop isForce fuel opList' true
      | .ok (opList', false) => some (.ok (opList', isCompact))

/-- `compact_tablelock_` for one list, which is dropped if an unlock operation was found and nothing
is left. -/
def compactList (isForce : Bool) (fuel : ℕ) (opList : Option ObTableLockOpList) :
    Option (ObResult (Option ObTableLockOpList × Bool)) :=
  match opList with
  | none => some (.ok (none, false))
  | some ops =>
    (compactLoop isForce fuel ops false).map fun r => do
      let (ops', isCompact) ← r
      if (getFirstCompleteUnlockOp ops).isSome ∧ ops' = [] then pure (none, isCompact)
      else pure (some ops', isCompact)

end Andl.TableLock
