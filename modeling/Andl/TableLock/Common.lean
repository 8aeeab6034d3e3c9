import Andl.Common.Member
import Andl.Storage.TxData

/-!
# Table lock modes and operations

The five lock modes are sets of the four elementary locks exclusive, share, row exclusive and row
share, one bit each; share row exclusive is share and row exclusive together.
-/

namespace Andl.TableLock

open Andl.Storage (ObTransID)

/-! ### Lock modes -/

/-- The values of `ObTableLockMode` that `ob_table_lock_def.h` names. -/
inductive ObTableLockMode where
  | noLock
  | rowShare
  | rowExclusive
  | share
  | shareRowExclusive
  | exclusive
deriving DecidableEq, Repr

namespace ObTableLockMode

/-- The elementary locks of a mode as bits. -/
def bits : ObTableLockMode → ℕ
  | noLock => 0x0
  | rowShare => 0x8
  | rowExclusive => 0x4
  | share => 0x2
  | shareRowExclusive => 0x6
  | exclusive => 0x1

end ObTableLockMode

/-- `TABLE_LOCK_MODE_COUNT`. -/
abbrev tableLockModeCount : ℕ := 5

/-- `MAX_LOCK_MODE`. -/
def maxLockMode : ℕ := 0xf

/-- `compatibility_matrix`: for each elementary lock, from the lowest bit up, the elementary locks
it is compatible with. -/
def compatibilityMatrix : List ℕ := [0x0, 0xa, 0xc, 0xe]

/-- `is_lock_mode_valid`. -/
def isLockModeValid (lockMode : ℕ) : Bool := lockMode < maxLockMode

/-- `get_index_by_lock_mode`. -/
def getIndexByLockMode : ObTableLockMode → Fin tableLockModeCount
  | .noLock => 0
  | .exclusive => 0
  | .share => 1
  | .rowExclusive => 2
  | .shareRowExclusive => 3
  | .rowShare => 4

/-- `get_lock_mode_by_index`. -/
def getLockModeByIndex (index : Fin tableLockModeCount) : ObTableLockMode :=
  match index with
  | 0 => .exclusive
  | 1 => .share
  | 2 => .rowExclusive
  | 3 => .shareRowExclusive
  | 4 => .rowShare

-- The tables are the shifts of the source.
example (m : ObTableLockMode) : (getIndexByLockMode m).val = m.bits >>> 1 := by cases m <;> rfl
example : ∀ i, i ≠ 0 → (getLockModeByIndex i).bits = i.val <<< 1 := by decide

/-- The loop of `request_lock` over the elementary locks held, the lowest bit first. -/
def requestLoop (newLock : ℕ) : List ℕ → ℕ → ℕ → ℕ → ℕ → ℕ × ℕ
  | [], _, _, compat, conflictModes => (compat, conflictModes)
  | row :: rows, index, currLock, compat, conflictModes =>
    if 0 < currLock ∧ 0 < compat then
      if currLock % 2 = 1 then
        requestLoop newLock rows (index + 1) (currLock / 2) (compat &&& row)
          (if newLock = (row &&& newLock) then conflictModes else conflictModes ||| 1 <<< index)
      else requestLoop newLock rows (index + 1) (currLock / 2) compat conflictModes
    else (compat, conflictModes)

/-- `request_lock`: whether the new lock is compatible with what is held, and the elementary locks
it conflicts with. -/
def requestLock (currLock newLock : ℕ) : Bool × ℕ :=
  if !isLockModeValid currLock || !isLockModeValid newLock then (false, 0)
  else
    let r := requestLoop newLock compatibilityMatrix 0 currLock 0xf 0
    (newLock = (r.1 &&& newLock), r.2)

/-! ### Operations -/

/-- `ObTableLockOpType`. -/
inductive ObTableLockOpType where
  | unknownType
  | inTransDmlLock
  | outTransLock
  | outTransUnlock
  | inTransCommonLock
  | tabletSplit
deriving DecidableEq, Repr

/-- `ObTableLockOpStatus`. -/
inductive ObTableLockOpStatus where
  | unknownStatus
  | doing
  | complete
deriving DecidableEq, Repr

/-- `ObLockOBJType`. -/
inductive ObLockOBJType where
  | invalid
  | table
  | tablet
  | commonObj
  | ls
  | tenant
  | externalTableRefresh
  | onlineDdlTable
  | onlineDdlTablet
  | databaseName
  | objectName
  | dbmsLock
  | materializedView
  | mysqlLockFunc
  | refreshVectorIndex
deriving DecidableEq, Repr

/-- `ObLockID`, without its hash. -/
structure ObLockID where
  objType : ObLockOBJType
  objId : ℕ
deriving DecidableEq, Repr

/-- `ObLockID::is_valid`; `OB_INVALID_ID` is the largest 64-bit number. -/
def ObLockID.isValid (id : ObLockID) : Bool := id.objId ≠ 2 ^ 64 - 1 ∧ id.objType ≠ .invalid

/-- `ObTableLockOwnerID`, without its hash. -/
structure ObTableLockOwnerID where
  type : ℕ
  id : ℤ
deriving DecidableEq, Repr

/-- `ObTableLockOwnerID::is_default`. -/
def ObTableLockOwnerID.isDefault (o : ObTableLockOwnerID) : Bool := o.type = 0 ∧ o.id = 0

/-- `ObTableLockOp`: the fields that the lock and the compaction read. -/
structure ObTableLockOp where
  lockId : ObLockID
  lockMode : ObTableLockMode
  ownerId : ObTableLockOwnerID
  createTransId : ObTransID
  opType : ObTableLockOpType
  lockOpStatus : ObTableLockOpStatus
  commitScn : SCN
deriving DecidableEq

namespace ObTableLockOp

/-- `ObTableLockOp::is_out_trans_lock_op`. -/
def isOutTransLockOp (op : ObTableLockOp) : Bool :=
  op.opType = .outTransLock ∨ op.opType = .outTransUnlock

/-- `ObTableLockOp::is_need_record_lock_mode_`. -/
def isNeedRecordLockMode (op : ObTableLockOp) : Bool :=
  op.lockMode = .share ∨ op.lockMode = .shareRowExclusive ∨ op.lockMode = .exclusive

/-- `ObTableLockOp::need_record_lock_op`. -/
def needRecordLockOp (op : ObTableLockOp) : Bool :=
  op.isOutTransLockOp || op.isNeedRecordLockMode || decide (op.opType = .inTransCommonLock)

/-- `ObTableLockOp::is_valid`. -/
def isValid (op : ObTableLockOp) : Bool :=
  if op.opType = .tabletSplit then
    op.commitScn.isValid && decide (op.commitScn.val ≠ 0) && op.lockId.isValid
  else if op.isOutTransLockOp ∧ op.ownerId.id = 0 then false
  else
    op.lockId.isValid && isLockModeValid op.lockMode.bits && decide (0 < op.createTransId) &&
      decide (op.opType ≠ .unknownType) && decide (op.lockOpStatus ≠ .unknownStatus)

end ObTableLockOp

/-- `ObTableLockOpLinkNode`: its `init` refuses an invalid operation. -/
structure ObTableLockOpLinkNode where
  lockOp : ObTableLockOp
  valid : lockOp.isValid = true
deriving DecidableEq

namespace ObTableLockOpLinkNode

/-- `ObTableLockOpLinkNode::is_complete_outtrans_lock`. -/
def isCompleteOuttransLock (node : ObTableLockOpLinkNode) : Bool :=
  node.lockOp.opType = .outTransLock ∧ node.lockOp.lockOpStatus = .complete

/-- `ObTableLockOpLinkNode::is_complete_outtrans_unlock`. -/
def isCompleteOuttransUnlock (node : ObTableLockOpLinkNode) : Bool :=
  node.lockOp.opType = .outTransUnlock ∧ node.lockOp.lockOpStatus = .complete

end ObTableLockOpLinkNode

/-- `ObTableLockOpList`. -/
abbrev ObTableLockOpList := List ObTableLockOpLinkNode

end Andl.TableLock
