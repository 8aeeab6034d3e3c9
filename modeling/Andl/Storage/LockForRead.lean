import Andl.Storage.MvccRow

/-!
# Reading a row at a snapshot

`lockForRead` walks the versions of a row from the newest one on and stops at the one that the
reader is to see.
-/

namespace Andl.Storage

/-- `ObTxCCCtx`. -/
structure ObTxCCCtx where
  prepareVersion : SCN

/-- What a read uses of `ObQueryFlag`. -/
structure ObQueryFlag where
  isReadLatest : Bool := false
  iterUncommittedRow : Bool := false

/-- What a read uses of `ObMvccAccessCtx`. -/
structure ObMvccAccessCtx where
  snapshotVersion : SCN
  /-- `snapshot_.tx_id_`; a cursor's is not that of the reader -/
  snapshotTxId : ObTransID
  /-- `snapshot_.scn_` -/
  snapshotSeqNo : ObTxSEQ
  /-- `tx_id_`, the reader -/
  txId : ObTransID
  /-- `tx_ctx_` is not null -/
  hasTxCtx : Bool
  isWeakRead : Bool
  txTable : ObTxTable
  txCCCtx : ObTransID → Option ObTxCCCtx

namespace ObMvccAccessCtx

/-- The case of `LockForReadFunctor::inner_lock_for_read` in which the transaction has not ended. -/
def readActive (ctx : ObMvccAccessCtx) (flag : ObQueryFlag) (dataTxId : ObTransID)
    (dataSqlSequence : ObTxSEQ) : ObResult Bool :=
  let txData := ctx.txTable dataTxId
  let isRollback := txData.undoStatusList.isContain dataSqlSequence
  if flag.iterUncommittedRow then .ok !isRollback
  else if flag.isReadLatest && ctx.txId = dataTxId then .ok !isRollback
  else if ctx.snapshotTxId = dataTxId then
    .ok (dataSqlSequence.le ctx.snapshotSeqNo && !isRollback)
  else
    match ctx.txCCCtx dataTxId with
    -- the source does not check again for a missing context
    | none => .error .errUnexpected
    | some txCCCtx =>
      if txCCCtx.prepareVersion = .maxScn then .ok false
      else if txCCCtx.prepareVersion.gt ctx.snapshotVersion then .ok false
      else if isRollback then .ok false
      else if txData.state = .elrCommit && ctx.hasTxCtx then
        .ok (ctx.snapshotVersion.ge txData.commitVersion)
      else .error .errSharedLockConflict

/-- `LockForReadFunctor::inner_lock_for_read`. -/
def innerLockForRead (ctx : ObMvccAccessCtx) (flag : ObQueryFlag) (dataTxId : ObTransID)
    (dataSqlSequence : ObTxSEQ) : ObResult Bool :=
  let txData := ctx.txTable dataTxId
  let isRollback := txData.undoStatusList.isContain dataSqlSequence
  match txData.state with
  | .commit =>
    if flag.iterUncommittedRow then .ok !isRollback
    else .ok (ctx.snapshotVersion.ge txData.commitVersion && !isRollback)
  | .running | .elrCommit => ctx.readActive flag dataTxId dataSqlSequence
  | .abort => .ok false

/-- `LockForReadFunctor::operator()`. -/
def lockForReadFunctor (ctx : ObMvccAccessCtx) (flag : ObQueryFlag) (dataTxId : ObTransID)
    (dataSqlSequence : ObTxSEQ) : ObResult Bool :=
  if (ctx.txCCCtx dataTxId).isNone && (ctx.txTable dataTxId).state = .running then
    .error .replicaNotReadable
  else ctx.innerLockForRead flag dataTxId dataSqlSequence

variable {δ : Type}

/-- The reader sees a node that was released early, by its flag. -/
def readElr (ctx : ObMvccAccessCtx) (n : ObMvccTransNode δ) : Bool := ctx.hasTxCtx && n.isElr

/-- The node belongs to the transaction of the snapshot, or to that of the reader, who wants the
latest data. -/
def isOwn (ctx : ObMvccAccessCtx) (flag : ObQueryFlag) (n : ObMvccTransNode δ) : Bool :=
  n.txId = ctx.snapshotTxId || (flag.isReadLatest && n.txId = ctx.txId)

/-- The node is decided, or needs no cleanout to be read. -/
def isDecided (ctx : ObMvccAccessCtx) (flag : ObQueryFlag) (n : ObMvccTransNode δ) : Bool :=
  (n.isCommitted || n.isAborted || (ctx.readElr n && !n.isDelayedCleanout)) ||
    (!n.isDelayedCleanout && ctx.isOwn flag n)

/-- The cases of `lock_for_read_inner_` in which the node is decided, or needs no cleanout. -/
def readDecided (ctx : ObMvccAccessCtx) (flag : ObQueryFlag) (n : ObMvccTransNode δ) :
    ObResult Bool :=
  if n.isCommitted || ctx.readElr n then
    if flag.iterUncommittedRow then .ok true
    else .ok (ctx.snapshotVersion.ge n.transVersion)
  else if n.isAborted then .ok false
  else if flag.iterUncommittedRow then .ok true
  else if flag.isReadLatest && n.txId = ctx.txId then .ok true
  else if ctx.snapshotTxId = n.txId then .ok (n.seqNo.le ctx.snapshotSeqNo)
  else .error .errUnexpected

end ObMvccAccessCtx

namespace ObMvccRow

variable {δ : Type}

/-- `ObMvccValueIterator::lock_for_read_inner_`. -/
def lockForReadInner (ctx : ObMvccAccessCtx) (flag : ObQueryFlag) (r : ObMvccRow δ)
    (iter : ObMvccTransNode δ) : ObResult (Bool × ObMvccRow δ × ObMvccTransNode δ) :=
  if iter.isIncomplete then .ok (false, r, iter)
  else if ctx.isDecided flag iter then do
    let canRead ← ctx.readDecided flag iter
    return (canRead, r, iter)
  else do
    let canRead ← ctx.lockForReadFunctor flag iter.txId iter.seqNo
    let (r, iter) :=
      if iter.isDelayedCleanout && iter.needCleanout then
        cleanoutTxNodeOperation ((ctx.txTable iter.txId).checkData iter.seqNo) r iter
      else (r, iter)
    return (canRead, r, iter)

/-- The loop of `ObMvccValueIterator::lock_for_read_` over the nodes from `iter` on. -/
def lockForReadLoop (ctx : ObMvccAccessCtx) (flag : ObQueryFlag) (r : ObMvccRow δ) :
    (iter : List (ObMvccTransNode δ)) →
      ObResult (Option (ObMvccTransNode δ)) × ObMvccRow δ
  | [] => (.ok none, r)
  | iter :: prevs =>
    match r.lockForReadInner ctx flag iter with
    | .error e => (.error e, r)
    | .ok (true, r, iter) => (.ok (some iter), r)
    | .ok (false, r, _) => lockForReadLoop ctx flag r prevs

/-- `ObMvccValueIterator::lock_for_read_`. -/
def lockForRead (ctx : ObMvccAccessCtx) (flag : ObQueryFlag) (r : ObMvccRow δ) :
    ObResult (Option (ObMvccTransNode δ)) × ObMvccRow δ :=
  match r.lockForReadLoop ctx flag r.nodes with
  | (.ok (some n), r) =>
    if ctx.isWeakRead then
      let n := { n with flag := { n.flag with weakReadBarrier := true } }
      (.ok (some n), r.setNode n)
    else (.ok (some n), r)
  | p => p

end ObMvccRow

end Andl.Storage
