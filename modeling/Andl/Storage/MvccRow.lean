import Andl.Common.Member
import Andl.Storage.TxData

/-!
# The row of a memtable

`ObMvccRow` holds the versions of a row, newest first.
-/

namespace Andl.Storage

/-- `ObDmlFlag`. -/
inductive ObDmlFlag where
  | notExist
  | lock
  | update
  | insert
  | delete
deriving DecidableEq

/-! ### Nodes -/

/-- The bits of `ObMvccTransNode::flag_`. -/
structure NodeFlag where
  weakReadBarrier : Bool := false
  strongReadBarrier : Bool := false
  committed : Bool := false
  elr : Bool := false
  aborted : Bool := false
  delayedCleanout : Bool := false
  incomplete : Bool := false
deriving DecidableEq

/-- `NDT_NORMAL`, `NDT_COMPACT`. -/
inductive NodeType where
  | normal
  | compact
deriving DecidableEq

/-- `ObMvccTransNode`; `dmlFlag` and `row` are the data in its buffer, a column that the write does
not touch being `none`. -/
structure ObMvccTransNode (δ : Type) where
  addr : Nat
  txId : ObTransID
  transVersion : SCN
  scn : SCN
  seqNo : ObTxSEQ
  writeEpoch : Int
  type : NodeType
  flag : NodeFlag
  dmlFlag : ObDmlFlag
  row : List (Option δ)

namespace ObMvccTransNode

variable {δ : Type}

/-- `ObMvccTransNode::is_committed`. -/
def isCommitted (n : ObMvccTransNode δ) : Bool := n.flag.committed

/-- `ObMvccTransNode::is_elr`. -/
def isElr (n : ObMvccTransNode δ) : Bool := n.flag.elr

/-- `ObMvccTransNode::is_aborted`. -/
def isAborted (n : ObMvccTransNode δ) : Bool := n.flag.aborted

/-- `ObMvccTransNode::is_delayed_cleanout`. -/
def isDelayedCleanout (n : ObMvccTransNode δ) : Bool := n.flag.delayedCleanout

/-- `ObMvccTransNode::is_incomplete`. -/
def isIncomplete (n : ObMvccTransNode δ) : Bool := n.flag.incomplete

/-- `ObMvccTransNode::is_lock_node`. -/
def isLockNode (n : ObMvccTransNode δ) : Bool := n.dmlFlag = .lock

/-- `ObMvccTransNode::trans_commit`. -/
def transCommit (n : ObMvccTransNode δ) (commitVersion : SCN) : ObMvccTransNode δ :=
  { n with transVersion := commitVersion, flag := { n.flag with committed := true } }

/-- `ObMvccTransNode::trans_abort`, `set_aborted`. -/
def transAbort (n : ObMvccTransNode δ) : ObMvccTransNode δ :=
  { n with flag := { n.flag with aborted := true } }

/-- `ObMvccTransNode::remove_callback`. -/
def removeCallback (n : ObMvccTransNode δ) : ObMvccTransNode δ :=
  { n with flag := { n.flag with delayedCleanout := true } }

/-- `ObMvccTransNode::set_elr`, with the version of the early release. -/
def setElr (n : ObMvccTransNode δ) (elrCommitVersion : SCN) : ObMvccTransNode δ :=
  { n with transVersion := elrCommitVersion, flag := { n.flag with elr := true } }

/-- `ObMvccTransNode::need_elr`. -/
def needElr (n : ObMvccTransNode δ) : Bool :=
  (n.dmlFlag = .lock || n.dmlFlag = .update) && n.flag ≠ { elr := true } &&
    n.flag ≠ { committed := true } && n.flag ≠ { aborted := true }

/-- `ObCleanoutTxNodeOperation::need_cleanout`. -/
def needCleanout (n : ObMvccTransNode δ) : Bool :=
  !(n.isCommitted || n.isAborted) && n.isDelayedCleanout

end ObMvccTransNode

/-! ### Rows -/

/-- `ObMvccRow`. -/
structure ObMvccRow (δ : Type) where
  nodes : List (ObMvccTransNode δ)
  totalTransNodeCnt : Int
  maxTransVersion : SCN
  maxElrTransVersion : SCN
  maxTransId : ObTransID
  maxElrTransId : ObTransID
  firstDmlFlag : ObDmlFlag
  lastDmlFlag : ObDmlFlag
  maxModifyScn : SCN
  minModifyScn : SCN

namespace ObMvccRow

variable {δ : Type}

/-- `ObMvccRow::reset`. -/
def reset : ObMvccRow δ :=
  { nodes := []
    totalTransNodeCnt := 0
    maxTransVersion := .minScn
    maxElrTransVersion := .minScn
    maxTransId := 0
    maxElrTransId := 0
    firstDmlFlag := .notExist
    lastDmlFlag := .notExist
    maxModifyScn := .invalid
    minModifyScn := .invalid }

/-- A node of the list has changed. -/
def setNode (r : ObMvccRow δ) (n : ObMvccTransNode δ) : ObMvccRow δ :=
  { r with nodes := r.nodes.map fun m => if m.addr = n.addr then n else m }

/-- `ObMvccRow::unlink_trans_node`. -/
def unlinkTransNode (r : ObMvccRow δ) (n : ObMvccTransNode δ) : ObResult (ObMvccRow δ) :=
  if r.nodes.any (·.addr = n.addr) then
    .ok { r with
      nodes := r.nodes.filter (·.addr ≠ n.addr)
      totalTransNodeCnt := r.totalTransNodeCnt - 1 }
  else .error .errUnexpected

/-- `ObMvccRow::update_max_trans_version`. -/
def updateMaxTransVersion (r : ObMvccRow δ) (v : SCN) (txId : ObTransID) : ObMvccRow δ :=
  let updated := r.maxTransVersion.incUpdate v
  { r with
    maxTransVersion := updated
    maxTransId := if updated = v then txId else r.maxTransId }

/-- `ObMvccRow::update_max_elr_trans_version`. -/
def updateMaxElrTransVersion (r : ObMvccRow δ) (v : SCN) (txId : ObTransID) : ObMvccRow δ :=
  let updated := r.maxElrTransVersion.incUpdate v
  { r with
    maxElrTransVersion := updated
    maxElrTransId := if updated = v then txId else r.maxElrTransId }

/-- `ObMvccRow::update_dml_flag_`. -/
def updateDmlFlag (r : ObMvccRow δ) (flag : ObDmlFlag) (modifyScn : SCN) : ObMvccRow δ :=
  if flag = .lock then r
  else
    let r := if !r.maxModifyScn.isValid || r.maxModifyScn.le modifyScn then
      { r with maxModifyScn := modifyScn, lastDmlFlag := flag } else r
    if !r.minModifyScn.isValid || r.minModifyScn.gt modifyScn then
      { r with minModifyScn := modifyScn, firstDmlFlag := flag } else r

/-- `ObMvccRow::trans_commit`. -/
def transCommit (r : ObMvccRow δ) (commitVersion : SCN) (n : ObMvccTransNode δ) :
    ObResult (ObMvccRow δ) :=
  if !commitVersion.isValid then .error .invalidArgument
  else .ok (((r.updateDmlFlag n.dmlFlag n.scn).updateMaxTransVersion commitVersion n.txId)
    |>.updateMaxElrTransVersion commitVersion n.txId)

/-- The loop of `ObMvccRow::elr`, over the nodes of the transaction at the head. -/
def elrNodes (txId : ObTransID) (elrCommitVersion : SCN) :
    List (ObMvccTransNode δ) → ObResult Unit × List (ObMvccTransNode δ)
  | [] => (.ok (), [])
  | n :: ns =>
    if txId ≠ n.txId then (.ok (), n :: ns)
    else if n.transVersion ≠ .maxScn && n.transVersion.gt elrCommitVersion then
      (.error .errUnexpected, n :: ns)
    else
      let (ret, ns) := elrNodes txId elrCommitVersion ns
      (ret, n.setElr elrCommitVersion :: ns)

/-- `ObMvccRow::elr`. -/
def elr (r : ObMvccRow δ) (txId : ObTransID) (elrCommitVersion : SCN) :
    ObResult Unit × ObMvccRow δ :=
  if (r.nodes.head?.map (·.needElr)).getD false then
    let (ret, nodes) := elrNodes txId elrCommitVersion r.nodes
    (ret, { r with
      nodes := nodes
      maxElrTransVersion := r.maxElrTransVersion.incUpdate elrCommitVersion })
  else (.ok (), r)

/-- `ObMvccRow::mvcc_undo`. -/
def mvccUndo (r : ObMvccRow δ) : ObMvccRow δ :=
  match r.nodes with
  | [] => r
  | _ :: ns => { r with nodes := ns, totalTransNodeCnt := r.totalTransNodeCnt - 1 }

/-! ### The end of a transaction -/

/-- `ObMvccRowCallback::trans_commit`. -/
def commitCallback (r : ObMvccRow δ) (commitVersion : SCN) (n : ObMvccTransNode δ) :
    ObResult (ObMvccRow δ) := do
  let r ← r.transCommit commitVersion n
  let n := n.transCommit commitVersion
  let r := r.setNode n
  if n.isLockNode then
    match r.unlinkTransNode n with
    | .ok r => return r
    | .error _ => return r
  else return r

/-- `ObMvccRowCallback::trans_abort`. -/
def abortCallback (r : ObMvccRow δ) (n : ObMvccTransNode δ) : ObMvccRow δ :=
  if !(n.isCommitted || n.isAborted) then
    let r := r.setNode n.transAbort
    match r.unlinkTransNode n with
    | .ok r => r
    | .error _ => r
  else r

/-- `ObCleanoutTxNodeOperation::operator()`. -/
def cleanoutTxNodeOperation (d : ObTxDataCheckData) (r : ObMvccRow δ) (n : ObMvccTransNode δ) :
    ObMvccRow δ × ObMvccTransNode δ :=
  let writeBackAbort :=
    match r.unlinkTransNode n with
    | .error _ => (r, n)
    | .ok r => (r, n.transAbort)
  if d.state = .running && !d.isRollback then (r, n)
  else if n.needCleanout then
    if d.isRollback then writeBackAbort
    else
      match d.state with
      | .running => (r, n)
      -- an early release can still fail
      | .elrCommit => (r, n)
      | .commit =>
        match r.transCommit d.commitVersion n with
        | .error _ => (r, n)
        | .ok r =>
          let n := n.transCommit d.commitVersion
          let r := r.setNode n
          if n.isLockNode then
            match r.unlinkTransNode n with
            | .error _ => (r, n)
            | .ok r => (r, n)
          else (r, n)
      | .abort => writeBackAbort
  else (r, n)

/-- `ObTxTable::cleanout_tx_node`. -/
def cleanoutTxNode (txTable : ObTxTable) (r : ObMvccRow δ) (n : ObMvccTransNode δ) :
    ObMvccRow δ × ObMvccTransNode δ :=
  if n.needCleanout then
    cleanoutTxNodeOperation ((txTable n.txId).checkData n.seqNo) r n
  else (r, n)

end ObMvccRow

/-! ### Writing -/

/-- `ObWriteFlag`. -/
structure ObWriteFlag where
  isTableApi : Bool := false
  isDmlBatchOpt : Bool := false
  isInsertUp : Bool := false
  isWriteOnlyIndex : Bool := false

/-- What a write reads of `ObStoreCtx`. -/
structure ObStoreCtx where
  txId : ObTransID
  snapshotVersion : SCN
  /-- `snapshot_.scn_` -/
  readerSeqNo : ObTxSEQ
  writeFlag : ObWriteFlag
  txTable : ObTxTable

/-- `ObStoreRowLockState`. -/
structure ObStoreRowLockState where
  isLocked : Bool := false
  lockTransId : ObTransID := 0
  lockDataSequence : ObTxSEQ := ⟨0⟩
  lockDmlFlag : ObDmlFlag := .notExist
  isDelayedCleanout : Bool := false
  transScn : SCN := .maxScn

/-- `ObStoreRowLockState::row_exist`. -/
def ObStoreRowLockState.rowExist (s : ObStoreRowLockState) : Bool :=
  s.lockDmlFlag = .lock || s.lockDmlFlag = .update || s.lockDmlFlag = .insert

/-- `ObMvccWriteResult`; `txNode` is the address of the node inserted. -/
structure ObMvccWriteResult where
  canInsert : Bool := false
  needInsert : Bool := false
  isNewLocked : Bool := false
  isMvccUndo : Bool := false
  isChecked : Bool := false
  lockState : ObStoreRowLockState := {}
  txNode : Option Nat := none

/-- `concurrent_control::check_sequence_set_violation`. -/
def checkSequenceSetViolation (writeFlag : ObWriteFlag) (readerSeqNo : ObTxSEQ)
    (writerTxId : ObTransID) (writerDmlFlag : ObDmlFlag) (writerSeqNo : ObTxSEQ)
    (lockerTxId : ObTransID) (lockerDmlFlag : ObDmlFlag) (lockerSeqNo : ObTxSEQ) :
    ObResult Unit :=
  if writerTxId = lockerTxId then do
    if readerSeqNo.lt lockerSeqNo then
      if writerDmlFlag = .insert ∧ (lockerDmlFlag = .insert ∨ lockerDmlFlag = .update) then
        throw .errPrimaryKeyDuplicate
      else if lockerDmlFlag = .lock then pure ()
      else if writerDmlFlag = .insert ∧ lockerDmlFlag = .delete then pure ()
      else if (writerDmlFlag = .update ∨ writerDmlFlag = .delete) ∧ lockerDmlFlag = .insert then
        pure ()
      else if writeFlag.isTableApi then pure ()
      else if writeFlag.isDmlBatchOpt then throw .batchedMultiStmtRollback
      else if writerDmlFlag = .delete ∧ lockerDmlFlag = .delete then pure ()
      else if writeFlag.isInsertUp then pure ()
      else if writeFlag.isWriteOnlyIndex then throw .errPrimaryKeyDuplicate
      else if writerDmlFlag = .update ∧ lockerDmlFlag = .update then throw .errDefensiveCheck
      else throw .errUnexpected
    if writerSeqNo.lt lockerSeqNo then throw .seqNoReorderUnderPdml
  else .ok ()

namespace ObMvccRow

variable {δ : Type}

/-- `ObMvccRow::mvcc_sanity_check_`. -/
def mvccSanityCheck (snapshotVersion : SCN) (writeFlag : ObWriteFlag)
    (node prev : ObMvccTransNode δ) : ObResult Unit :=
  if node.dmlFlag = .insert && prev.dmlFlag ≠ .delete && prev.isCommitted &&
      snapshotVersion.ge prev.transVersion then
    .error .errPrimaryKeyDuplicate
  else if prev.txId = node.txId && prev.isIncomplete && !writeFlag.isTableApi then
    .error .seqNoReorderUnderPdml
  else if prev.txId = node.txId && prev.writeEpoch = node.writeEpoch &&
      prev.seqNo.getBranch ≠ node.seqNo.getBranch then
    .error .seqNoReorderUnderPdml
  else .ok ()

/-- The loop of `ObMvccRow::mvcc_write_` over the nodes from `iter` on, without a filter. -/
def findWritePos (ctx : ObStoreCtx) (isLockNode : Bool) (r : ObMvccRow δ)
    (res : ObMvccWriteResult) : (iter : List (ObMvccTransNode δ)) →
      ObMvccRow δ × ObMvccWriteResult × Option (ObMvccTransNode δ)
  | [] =>
    (r, { res with
      canInsert := true
      needInsert := true
      isNewLocked := true
      lockState := { res.lockState with lockDmlFlag := .notExist } }, none)
  | n :: prevs =>
    let (r, n) := r.cleanoutTxNode ctx.txTable n
    if n.isCommitted || n.isElr then
      (r, { res with
        canInsert := true
        needInsert := true
        isNewLocked := true
        lockState := { res.lockState with lockDmlFlag := n.dmlFlag } }, some n)
    else if n.isAborted then findWritePos ctx isLockNode r res prevs
    else if n.txId = ctx.txId then
      (r, { res with
        canInsert := true
        needInsert := !isLockNode
        isNewLocked := false
        lockState := { res.lockState with lockDmlFlag := n.dmlFlag } }, some n)
    else
      (r, { res with
        canInsert := false
        needInsert := false
        isNewLocked := false
        lockState :=
          { isLocked := true
            lockTransId := n.txId
            lockDataSequence := n.seqNo
            lockDmlFlag := n.dmlFlag
            isDelayedCleanout := n.isDelayedCleanout
            transScn := n.scn } }, some n)

/-- What a call returns, leaves behind and reports. -/
abbrev Written (δ : Type) := ObResult Unit × ObMvccRow δ × ObMvccWriteResult

/-- `ObMvccRow::mvcc_write_`. -/
def mvccWriteInner (ctx : ObStoreCtx) (r : ObMvccRow δ) (node : ObMvccTransNode δ) : Written δ :=
  let (r, res, iter) := r.findWritePos ctx node.isLockNode {} r.nodes
  if res.canInsert && res.needInsert then
    match iter with
    | none =>
      (.ok (), { r with nodes := node :: r.nodes, totalTransNodeCnt := r.totalTransNodeCnt + 1 },
        { res with txNode := some node.addr })
    | some n =>
      match checkSequenceSetViolation ctx.writeFlag ctx.readerSeqNo ctx.txId node.dmlFlag node.seqNo
        n.txId n.dmlFlag n.seqNo with
      | .error e => (.error e, r, { res with isMvccUndo := true })
      | .ok () =>
        match mvccSanityCheck ctx.snapshotVersion ctx.writeFlag node n with
        | .error e => (.error e, r, { res with isChecked := true, isMvccUndo := true })
        | .ok () =>
          (.ok (), { r with
            nodes := node :: r.nodes, totalTransNodeCnt := r.totalTransNodeCnt + 1 },
            { res with isChecked := true, txNode := some node.addr })
  else (.ok (), r, res)

/-- A version newer than the snapshot was committed on the row. -/
def hasNewerVersion (r : ObMvccRow δ) (snapshotVersion : SCN) : Bool :=
  r.maxTransVersion.gt snapshotVersion || r.maxElrTransVersion.gt snapshotVersion

/-- The node that was inserted is taken back. -/
def undoInserted (e : ObError) (r : ObMvccRow δ) (res : ObMvccWriteResult) : Written δ :=
  if res.txNode.isSome then (.error e, r.mvccUndo, { res with isMvccUndo := true })
  else (.error e, r, res)

/-- `ObMvccRow::mvcc_write`. -/
def mvccWrite (ctx : ObStoreCtx) (r : ObMvccRow δ) (node : ObMvccTransNode δ) (checkExist : Bool) :
    Written δ :=
  if r.hasNewerVersion ctx.snapshotVersion then (.error .transactionSetViolation, r, {})
  else
    match r.mvccWriteInner ctx node with
    | (.error e, r, res) => (.error e, r, res)
    | (.ok (), r, res) =>
      if !res.canInsert then (.error .tryLockRowConflict, r, res)
      else if r.hasNewerVersion ctx.snapshotVersion then
        undoInserted .transactionSetViolation r res
      else if checkExist && res.lockState.rowExist then
        undoInserted .errPrimaryKeyDuplicate r res
      else (.ok (), r, res)

end ObMvccRow

end Andl.Storage
