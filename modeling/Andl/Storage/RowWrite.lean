import Andl.Storage.MvccRow

/-!
# Writes and lock checks on a row

`ObMvccRow::mvcc_write` and `ObMvccRow::check_row_locked` in their general form: the outcome of a
transaction may be unknown to the transaction table, a tablet that is being transferred has the
table of its source as well, and a row filter can hide versions.
-/

namespace Andl.Storage

/-! ### Transaction tables -/

/-- `ObTxTableGuard`: the data of a transaction, or why there is none. -/
abbrev ObTxTableGuard := ObTransID → ObResult ObTxData

/-- `ObTxTableGuard::check_with_tx_data` with a `CleanoutTxStateFunctor`. -/
def ObTxTableGuard.checkWithTxData (guard : ObTxTableGuard) (txId : ObTransID) (seqNo : ObTxSEQ) :
    ObResult ObTxDataCheckData :=
  (guard txId).map (·.checkData seqNo)

/-- `ObITxDataCheckFunctor::is_decided`. -/
def ObTxDataCheckData.isDecided (d : ObTxDataCheckData) : Bool := d.isRollback || d.state = .abort

/-- `ObTxTableGuards`; the guard of the source is there if it is valid. -/
structure ObTxTableGuards where
  txTableGuard : ObTxTableGuard
  srcTxTableGuard : Option ObTxTableGuard := none

/-- `ObTxTableGuards::check_with_tx_data`, where the source decides if the destination does not know
the transaction, or has not decided about it and the source has. -/
def ObTxTableGuards.checkWithTxData (guards : ObTxTableGuards) (txId : ObTransID)
    (seqNo : ObTxSEQ) : ObResult ObTxDataCheckData :=
  match guards.srcTxTableGuard with
  | none => guards.txTableGuard.checkWithTxData txId seqNo
  | some src =>
    match guards.txTableGuard.checkWithTxData txId seqNo with
    | .error e =>
      if e = .transCtxNotExist then src.checkWithTxData txId seqNo else .error e
    | .ok dest =>
      if dest.isDecided then .ok dest
      else
        match src.checkWithTxData txId seqNo with
        | .error e => if e = .transCtxNotExist then .ok dest else .error e
        | .ok d => if d.isDecided then .ok d else .ok dest

/-! ### Contexts -/

/-- `ObMvccRowFilter`: what `read_row_and_check` says about a node, `complete` and `filtered`, after
it has read some other nodes. -/
abbrev ObMvccRowFilter (δ : Type) :=
  List (ObMvccTransNode δ) → ObMvccTransNode δ → ObResult (Bool × Bool)

/-- What a write and a lock check read of `ObMvccAccessCtx`. -/
structure WriteAccessCtx (δ : Type) where
  txId : ObTransID
  snapshotVersion : SCN
  /-- `snapshot_.scn_` -/
  readerSeqNo : ObTxSEQ
  writeFlag : ObWriteFlag
  txTableGuards : ObTxTableGuards
  /-- the outcome of `ObMvccRowFilter::init`, if `mds_filter_` is valid -/
  mdsFilter : Option (ObResult (ObMvccRowFilter δ)) := none

/-- `ObMvccWriteResult::has_insert`. -/
def ObMvccWriteResult.hasInsert (res : ObMvccWriteResult) : Bool :=
  res.canInsert && res.needInsert && !res.isMvccUndo

/-- `ObStoreRowLockState` with the version that only `check_row_locked` fills in. -/
structure CheckedLockState extends ObStoreRowLockState where
  transVersion : SCN := .minScn

/-- `ObStoreRowLockState::is_locked_not_by`. -/
def CheckedLockState.isLockedNotBy (s : CheckedLockState) (txId : ObTransID) : Bool :=
  s.isLocked && s.lockTransId ≠ txId

namespace ObMvccRow

variable {δ : Type}

/-- The cleanout at the start of both loops, with what the transaction table says. -/
def cleanoutWith (check : ObTransID → ObTxSEQ → ObResult ObTxDataCheckData) (r : ObMvccRow δ)
    (n : ObMvccTransNode δ) : ObResult (ObMvccRow δ × ObMvccTransNode δ) :=
  if n.needCleanout then
    match check n.txId n.seqNo with
    | .error e => .error e
    | .ok d => .ok (cleanoutTxNodeOperation d r n)
  else .ok (r, n)

/-- `ObMvccRow::get_max_trans_version`. -/
def getMaxTransVersion (r : ObMvccRow δ) : SCN :=
  if r.maxElrTransVersion.gt r.maxTransVersion then r.maxElrTransVersion else r.maxTransVersion

/-- What the filter says about a committed node. -/
def checkFilter (filter : Option (ObMvccRowFilter δ)) (read : List (ObMvccTransNode δ))
    (n : ObMvccTransNode δ) : ObResult (Bool × Bool) :=
  match filter with
  | some f => if n.isCommitted then f read n else .ok (true, false)
  | none => .ok (true, false)

/-! ### Writing -/

/-- The loop of `ObMvccRow::mvcc_write_` over the nodes from `iter` on. -/
def mvccWriteLoop (ctx : WriteAccessCtx δ) (filter : Option (ObMvccRowFilter δ)) (isLockNode : Bool)
    (r : ObMvccRow δ) (res : ObMvccWriteResult) (read : List (ObMvccTransNode δ)) :
    (iter : List (ObMvccTransNode δ)) →
      ObResult Unit × ObMvccRow δ × ObMvccWriteResult × Option (ObMvccTransNode δ)
  | [] =>
    (.ok (), r, { res with
      canInsert := true
      needInsert := true
      isNewLocked := true
      lockState := { res.lockState with lockDmlFlag := .notExist } }, none)
  | n :: prevs =>
    match r.cleanoutWith ctx.txTableGuards.txTableGuard.checkWithTxData n with
    | .error e => (.error e, r, res, some n)
    | .ok (r, n) =>
      if n.isCommitted || n.isElr then
        match checkFilter filter read n with
        | .error e => (.error e, r, res, some n)
        | .ok (complete, filtered) =>
          if !complete then mvccWriteLoop ctx filter isLockNode r res (read ++ [n]) prevs
          else
            (.ok (), r, { res with
              canInsert := true
              needInsert := true
              isNewLocked := true
              lockState := { res.lockState with
                lockDmlFlag := if filtered then .notExist else n.dmlFlag } },
              if filtered then none else some n)
      else if n.isAborted then mvccWriteLoop ctx filter isLockNode r res read prevs
      else if n.txId = ctx.txId then
        (.ok (), r, { res with
          canInsert := true
          needInsert := !isLockNode
          isNewLocked := false
          lockState := { res.lockState with lockDmlFlag := n.dmlFlag } }, some n)
      else
        (.ok (), r, { res with
          canInsert := false
          needInsert := false
          isNewLocked := false
          lockState :=
            { isLocked := true
              lockTransId := n.txId
              lockDataSequence := n.seqNo
              lockDmlFlag := n.dmlFlag
              isDelayedCleanout := n.isDelayedCleanout
              transScn := n.scn } }, some n)

/-- The checks of `mvcc_write_` against the node found, which decide whether the new node may go
onto the list. -/
def checkPosition (ctx : WriteAccessCtx δ) (node n : ObMvccTransNode δ)
    (res : ObMvccWriteResult) : ObResult Unit × ObMvccWriteResult :=
  match checkSequenceSetViolation ctx.writeFlag ctx.readerSeqNo ctx.txId node.dmlFlag node.seqNo
    n.txId n.dmlFlag n.seqNo with
  | .error e => (.error e, { res with isMvccUndo := true })
  | .ok () =>
    match mvccSanityCheck ctx.snapshotVersion ctx.writeFlag node n with
    | .error e => (.error e, { res with isChecked := true, isMvccUndo := true })
    | .ok () => (.ok (), { res with isChecked := true })

/-- The node becomes the head of the list. -/
def linkNode (r : ObMvccRow δ) (node : ObMvccTransNode δ) : ObMvccRow δ :=
  { r with nodes := node :: r.nodes, totalTransNodeCnt := r.totalTransNodeCnt + 1 }

/-- The end of `mvcc_write_`, behind its loop. -/
def insertNode (ctx : WriteAccessCtx δ) (r : ObMvccRow δ) (node : ObMvccTransNode δ)
    (res : ObMvccWriteResult) (iter : Option (ObMvccTransNode δ)) : Written δ :=
  if res.canInsert && res.needInsert then
    match iter with
    | none => (.ok (), r.linkNode node, { res with txNode := some node.addr })
    | some n =>
      match checkPosition ctx node n res with
      | (.error e, res) => (.error e, r, res)
      | (.ok (), res) => (.ok (), r.linkNode node, { res with txNode := some node.addr })
  else (.ok (), r, res)

/-- `ObMvccRow::mvcc_write_`. -/
def mvccWriteInnerWith (ctx : WriteAccessCtx δ) (r : ObMvccRow δ) (node : ObMvccTransNode δ) :
    Written δ :=
  match ctx.mdsFilter with
  | some (.error e) => (.error e, r, {})
  | some (.ok filter) => walk (some filter)
  | none => walk none
where
  /-- The rest of the function, with the filter. -/
  walk (filter : Option (ObMvccRowFilter δ)) : Written δ :=
    match r.mvccWriteLoop ctx filter node.isLockNode {} [] r.nodes with
    | (.error e, r, res, _) => (.error e, r, res)
    | (.ok (), r, res, iter) => r.insertNode ctx node res iter

/-- A node that was inserted is taken back. -/
def undoInsert (e : ObError) (r : ObMvccRow δ) (res : ObMvccWriteResult) : Written δ :=
  if res.hasInsert then (.error e, r.mvccUndo, { res with isMvccUndo := true })
  else (.error e, r, res)

/-- `ObMvccRow::mvcc_write`. -/
def mvccWriteWith (ctx : WriteAccessCtx δ) (r : ObMvccRow δ) (node : ObMvccTransNode δ)
    (checkExist : Bool) : Written δ :=
  if r.hasNewerVersion ctx.snapshotVersion then (.error .transactionSetViolation, r, {})
  else
    match r.mvccWriteInnerWith ctx node with
    | (.error e, r, res) => (.error e, r, res)
    | (.ok (), r, res) =>
      if !res.canInsert then (.error .tryLockRowConflict, r, res)
      else if r.hasNewerVersion ctx.snapshotVersion then
        undoInsert .transactionSetViolation r res
      else if checkExist && res.lockState.rowExist then
        undoInsert .errPrimaryKeyDuplicate r res
      else (.ok (), r, res)

/-! ### Checking the lock -/

/-- The loop of `ObMvccRow::check_row_locked` over the nodes from `iter` on. -/
def checkRowLockedLoop (ctx : WriteAccessCtx δ) (filter : Option (ObMvccRowFilter δ))
    (r : ObMvccRow δ) (lockState : CheckedLockState) (read : List (ObMvccTransNode δ)) :
    (iter : List (ObMvccTransNode δ)) → ObResult Unit × ObMvccRow δ × CheckedLockState
  | [] =>
    (.ok (), r, { lockState with
      isLocked := false, transVersion := .minScn, lockTransId := 0, lockDmlFlag := .notExist })
  | n :: prevs =>
    match r.cleanoutWith ctx.txTableGuards.checkWithTxData n with
    | .error e => (.error e, r, lockState)
    | .ok (r, n) =>
      if n.isCommitted || n.isElr then
        match checkFilter filter read n with
        | .error e => (.error e, r, lockState)
        | .ok (complete, filtered) =>
          if !complete then checkRowLockedLoop ctx filter r lockState (read ++ [n]) prevs
          else if filtered then
            (.ok (), r, { lockState with
              isLocked := false, lockTransId := 0
              transVersion := .minScn, lockDmlFlag := .notExist })
          else
            (.ok (), r, { lockState with
              isLocked := false, lockTransId := 0
              transVersion := r.getMaxTransVersion, lockDmlFlag := n.dmlFlag })
      else if n.isAborted then checkRowLockedLoop ctx filter r lockState read prevs
      else
        (.ok (), r,
          { isLocked := true
            transVersion := .minScn
            lockTransId := n.txId
            lockDataSequence := n.seqNo
            lockDmlFlag := n.dmlFlag
            isDelayedCleanout := n.isDelayedCleanout
            transScn := n.scn })

/-- `ObMvccRow::check_row_locked`. -/
def checkRowLocked (ctx : WriteAccessCtx δ) (r : ObMvccRow δ) :
    ObResult Unit × ObMvccRow δ × CheckedLockState :=
  match ctx.mdsFilter with
  | some (.error e) => (.error e, r, {})
  | some (.ok filter) => r.checkRowLockedLoop ctx (some filter) {} [] r.nodes
  | none => r.checkRowLockedLoop ctx none {} [] r.nodes

end ObMvccRow

end Andl.Storage
