import Andl.Common.Member
import Andl.Storage.TxData

/-!
# Callback lists

`ObTxCallbackList` keeps the writes of a transaction from the moment they are made to its end.
-/

namespace Andl.Storage

/-! ### The checksum -/

section Checksum

variable (crcByte : UInt64 → UInt8 → UInt64)

/-- `ob_crc64`: the CRC of the isa-l library takes its input byte by byte into the register. -/
def obCrc64 (crc : UInt64) (buf : List UInt8) : UInt64 := buf.foldl crcByte crc

/-- `ObBatchChecksum`: the first `pos_` bytes of `buffer_`, and `base_`. -/
structure ObBatchChecksum where
  buffer : List UInt8 := []
  base : UInt64 := 0
deriving DecidableEq

namespace ObBatchChecksum

/-- `ObBatchChecksum::BUFFER_SIZE`. -/
def bufferSize : ℕ := 64

/-- One byte of `ObBatchChecksum::fill`. -/
def fillByte (c : ObBatchChecksum) (b : UInt8) : ObBatchChecksum :=
  let buffer := c.buffer ++ [b]
  if buffer.length ≥ bufferSize then ⟨[], obCrc64 crcByte c.base buffer⟩ else ⟨buffer, c.base⟩

/-- `ObBatchChecksum::fill`. -/
def fill (c : ObBatchChecksum) (bytes : List UInt8) : ObBatchChecksum :=
  bytes.foldl (fillByte crcByte) c

/-- `ObBatchChecksum::calc`: what is in the buffer goes into the CRC. -/
def calcCrc (c : ObBatchChecksum) : ObBatchChecksum :=
  if 0 < c.buffer.length then ⟨[], obCrc64 crcByte c.base c.buffer⟩ else c

end ObBatchChecksum

end Checksum

/-! ### Callbacks -/

/-- `ObITransCallback`, with what its subclasses add that the list reads. -/
structure ObITransCallback where
  /-- The address of the callback. -/
  addr : ℕ
  needSubmitLog : Bool := true
  scn : SCN := SCN.maxScn
  epoch : ℤ := 0
  /-- `get_seq_no`. -/
  seqNo : ObTxSEQ
  /-- `get_memtable`, by its address. -/
  memtable : ℕ
  /-- The memory that `calc_checksum` fills in, in this order. -/
  checksumData : Option (List (List UInt8))
deriving DecidableEq

/-- `TxChecksum`. -/
structure TxChecksum where
  batch : ObBatchChecksum := {}
  cnt : ℕ := 0
  scn : SCN := SCN.invalid
  calls : List (SCN × ObITransCallback) := []
deriving DecidableEq

/-- `INT64_MAX`. -/
def int64Max : ℤ := 2 ^ 63 - 1

section Callbacks

variable (crcByte : UInt64 → UInt8 → UInt64)

/-- `ObBatchChecksum::calc` on the checksum of a transaction. -/
def TxChecksum.calcCrc (c : TxChecksum) : TxChecksum := { c with batch := c.batch.calcCrc crcByte }

/-- `ObITransCallback::calc_checksum`. -/
def ObITransCallback.calcChecksum (cb : ObITransCallback) (checksumScn : SCN) (c : TxChecksum) :
    TxChecksum :=
  let c := { c with calls := c.calls ++ [(checksumScn, cb)] }
  match cb.checksumData with
  | none => c
  | some fields =>
    if SCN.le checksumScn cb.scn then
      { c with
        batch := fields.foldl (ObBatchChecksum.fill crcByte) c.batch
        cnt := c.cnt + 1
        scn := cb.scn }
    else
      c

/-- `ObITransCallback::checkpoint_callback`. -/
def ObITransCallback.checkpointCallback (cb : ObITransCallback) : ObResult Unit :=
  if cb.needSubmitLog then .error .errUnexpected else .ok ()

/-- `ObITransCallback::log_submitted_cb`. -/
def ObITransCallback.logSubmittedCb (cb : ObITransCallback) (scn : SCN) : ObITransCallback :=
  if cb.needSubmitLog then
    { cb with
      scn := if cb.scn = SCN.maxScn then scn else cb.scn
      needSubmitLog := false }
  else
    cb

/-- `ObITransCallback::before_append_cb` on the leader. -/
def ObITransCallback.beforeAppendCb (cb : ObITransCallback) : ObITransCallback :=
  { cb with needSubmitLog := true }

/-! ### Functors -/

/-- What a functor returns, with its state and the checksum after the call. -/
structure FunctorResult (σ : Type) where
  ret : ObResult Unit
  state : σ
  checksum : TxChecksum
  needRemoveCallback : Bool

/-- `ObITxCallbackFunctor`, over the functor's own fields. -/
structure ObITxCallbackFunctor (σ : Type) where
  isIterEnd : σ → ObITransCallback → Bool
  call : σ → TxChecksum → ObITransCallback → FunctorResult σ

/-- The fields of `ObRemoveCallbacksForFastCommitFunctor` that change. -/
structure FastCommitState where
  needRemoveCount : ℤ
  lastScnForRemove : SCN := SCN.minScn

/-- `ObRemoveCallbacksForFastCommitFunctor`. -/
def ObRemoveCallbacksForFastCommitFunctor (syncScn checksumScn : SCN) (checksumer : Bool) :
    ObITxCallbackFunctor FastCommitState where
  isIterEnd f cb :=
    if cb.needSubmitLog then true
    else if SCN.lt syncScn cb.scn then true
    else if cb.scn = SCN.minScn then true
    else 0 ≥ f.needRemoveCount && cb.scn ≠ f.lastScnForRemove
  call f c cb :=
    let c :=
      if checksumer && SCN.ge cb.scn checksumScn then cb.calcChecksum crcByte checksumScn c else c
    match cb.checkpointCallback with
    | .error e => ⟨.error e, f, c, false⟩
    | .ok _ => ⟨.ok (), ⟨f.needRemoveCount - 1, cb.scn⟩, c, true⟩

/-- `ObRemoveSyncCallbacksWCondFunctor` in the list's order, without removal of the data. -/
def ObRemoveSyncCallbacksWCondFunctor (condForRemove condForStop : ObITransCallback → Bool)
    (checksumScn : SCN) (needChecksum : Bool) : ObITxCallbackFunctor SCN where
  isIterEnd _ cb :=
    if cb.needSubmitLog then true
    else if cb.scn = SCN.maxScn then true
    else condForStop cb
  call last c cb :=
    if cb.needSubmitLog then
      ⟨.error .errUnexpected, last, c, false⟩
    else
      let count := needChecksum && SCN.ge cb.scn checksumScn
      let c := if count then cb.calcChecksum crcByte checksumScn c else c
      let last := if count then cb.scn else last
      if condForRemove cb then
        match cb.checkpointCallback with
        | .error e => ⟨.error e, last, c, false⟩
        | .ok _ => ⟨.ok (), last, c, true⟩
      else
        ⟨.ok (), last, c, false⟩

/-- `ObRemoveCallbacksWCondFunctor` with removal of the data, which does not fail. -/
def ObRemoveCallbacksWCondFunctor (condForRemove : ObITransCallback → ObResult Bool)
    (rightBound checksumScn : SCN) (checksumer : Bool) : ObITxCallbackFunctor SCN where
  isIterEnd _ cb := SCN.gt cb.scn rightBound
  call last c cb :=
    match condForRemove cb with
    | .error e => ⟨.error e, last, c, false⟩
    | .ok needRemove =>
      if cb.needSubmitLog then
        ⟨.ok (), last, c, needRemove⟩
      else
        let c :=
          if checksumer && SCN.ge cb.scn checksumScn then cb.calcChecksum crcByte checksumScn c
          else c
        ⟨.ok (), if checksumer then cb.scn else last, c, needRemove⟩

/-- `ObCalcChecksumFunctor`. -/
def ObCalcChecksumFunctor (targetScn checksumScn : SCN) : ObITxCallbackFunctor SCN where
  isIterEnd _ cb := SCN.gt cb.scn targetScn
  call last c cb :=
    if SCN.gt cb.scn targetScn then
      ⟨.error .errUnexpected, last, c, false⟩
    else
      let c := if SCN.ge cb.scn checksumScn then cb.calcChecksum crcByte checksumScn c else c
      ⟨.ok (), cb.scn, c, false⟩

end Callbacks

/-! ### The list -/

/-- `ObTxCallbackList` on the leader. -/
structure ObTxCallbackList where
  callbacks : List ObITransCallback := []
  logCursor : Option ℕ := none
  logEpoch : ℤ := int64Max
  length : ℤ := 0
  appended : ℤ := 0
  logged : ℤ := 0
  synced : ℤ := 0
  removed : ℤ := 0
  unlogRemoved : ℤ := 0
  branchRemoved : ℤ := 0
  syncScn : SCN := SCN.minScn
  batchChecksum : TxChecksum := {}
  checksumScn : SCN := SCN.minScn
  checksum : UInt64 := 0
  tmpChecksum : UInt64 := 0
  /-- `is_skip_checksum_`. -/
  skipChecksum : Bool := false

/-- What a traversal changes besides the links of the list. -/
structure Traversal (σ : Type) where
  functor : σ
  batchChecksum : TxChecksum
  logCursor : Option ℕ
  logEpoch : ℤ
  removed : ℤ
  unlogRemoved : ℤ
  removeCount : ℤ

section List

variable (crcByte : UInt64 → UInt8 → UInt64)

/-- The branch of `callback_` that deletes a callback. -/
def Traversal.remove {σ : Type} (t : Traversal σ) (cb : ObITransCallback)
    (next : Option ObITransCallback) : Traversal σ :=
  { t with
    -- the checksum is printed with every ten thousandth deletion
    batchChecksum :=
      if t.removed ≠ 0 ∧ t.removed % 10000 = 0 then t.batchChecksum.calcCrc crcByte
      else t.batchChecksum
    logCursor := if t.logCursor = some cb.addr then next.map (·.addr) else t.logCursor
    logEpoch := if t.logCursor = some cb.addr then next.elim int64Max (·.epoch) else t.logEpoch
    removed := t.removed + 1
    unlogRemoved := if cb.needSubmitLog then t.unlogRemoved + 1 else t.unlogRemoved
    removeCount := t.removeCount + 1 }

/-- The loop of `ObTxCallbackList::callback_` over the callbacks from `iter` on, up to `last`
(exclusive, null for `&head_`). -/
def callbackLoop {σ : Type} (f : ObITxCallbackFunctor σ) (last : Option ℕ) :
    List ObITransCallback → Traversal σ → List ObITransCallback × Traversal σ × ObResult Unit
  | [], t => ([], t, .ok ())
  | iter :: rest, t =>
    if last = some iter.addr then
      (iter :: rest, t, .ok ())
    else if iter.scn = SCN.minScn then
      (iter :: rest, t, .error .errUnexpected)
    else if f.isIterEnd t.functor iter then
      (iter :: rest, t, .ok ())
    else
      let r := f.call t.functor t.batchChecksum iter
      let t := { t with functor := r.state, batchChecksum := r.checksum }
      match r.ret with
      | .error e => (iter :: rest, t, .error e)
      | .ok _ =>
        if r.needRemoveCallback then
          callbackLoop f last rest (t.remove crcByte iter rest.head?)
        else
          let (left, t, ret) := callbackLoop f last rest t
          (iter :: left, t, ret)

namespace ObTxCallbackList

/-- The list after a traversal that left `callbacks`. -/
def traversed {σ : Type} (l : ObTxCallbackList) (callbacks : List ObITransCallback)
    (t : Traversal σ) : ObTxCallbackList :=
  { l with
    callbacks := callbacks
    batchChecksum := t.batchChecksum
    logCursor := t.logCursor
    logEpoch := t.logEpoch
    removed := t.removed
    unlogRemoved := t.unlogRemoved
    length := l.length - t.removeCount }

/-- `ObTxCallbackList::callback_` from the head of the list up to `last`. -/
def callback {σ : Type} (l : ObTxCallbackList) (f : ObITxCallbackFunctor σ) (state : σ)
    (last : Option ℕ) : ObTxCallbackList × σ × ObResult Unit :=
  let (callbacks, t, ret) := callbackLoop crcByte f last l.callbacks
    ⟨state, l.batchChecksum, l.logCursor, l.logEpoch, l.removed, l.unlogRemoved, 0⟩
  (l.traversed callbacks t, t.functor, ret)

/-- `set_log_cursor_`. -/
def setLogCursor (l : ObTxCallbackList) (cursor : Option ObITransCallback) : ObTxCallbackList :=
  { l with logCursor := cursor.map (·.addr), logEpoch := cursor.elim int64Max (·.epoch) }

/-- `ObTxCallbackList::append_callback` of a chain of callbacks, or of one, where no `before_append`
fails. -/
def appendCallback (l : ObTxCallbackList) (chain : List ObITransCallback) :
    ObTxCallbackList × ObResult Unit :=
  match chain.map (·.beforeAppendCb) with
  | [] => (l, .error .errUnexpected)
  | head :: rest =>
    let reposLc := l.logCursor = none
    let l := { l with callbacks := l.callbacks ++ head :: rest }
    let l := if reposLc then l.setLogCursor (some head) else l
    ({ l with
        appended := l.appended + chain.length
        length := l.length + chain.length }, .ok ())

/-- The callbacks from the log cursor on. -/
def fromLogCursor (l : ObTxCallbackList) : List ObITransCallback :=
  l.callbacks.dropWhile (fun cb => l.logCursor ≠ some cb.addr)

/-- The callbacks before the log cursor. -/
def beforeLogCursor (l : ObTxCallbackList) : List ObITransCallback :=
  l.callbacks.takeWhile (fun cb => l.logCursor ≠ some cb.addr)

/-- `ObTransCallbackMgr::log_submitted` for a scope of `cnt` callbacks of the list, which starts at
the log cursor. -/
def logSubmitted (l : ObTxCallbackList) (cnt : ℕ) (scn : SCN) : ObTxCallbackList :=
  let scope := (l.fromLogCursor.take cnt).map (·.logSubmittedCb scn)
  let next := l.fromLogCursor.drop cnt
  let l := { l with callbacks := l.beforeLogCursor ++ scope ++ next }
  let l := l.setLogCursor next.head?
  { l with logged := l.logged + cnt }

/-- `ObTxCallbackList::sync_log_succ`. -/
def syncLogSucc (l : ObTxCallbackList) (scn : SCN) (syncCnt : ℕ) : ObTxCallbackList :=
  { l with syncScn := scn, synced := l.synced + syncCnt }

/-- `ObTxCallbackList::ensure_checksum_`. -/
def ensureChecksum (l : ObTxCallbackList) (scn : SCN) : ObTxCallbackList :=
  if l.skipChecksum then l
  else if scn.isValid = false then l
  else if scn = SCN.minScn then l
  else if SCN.lt scn l.checksumScn then l
  else
    let batch := l.batchChecksum.calcCrc crcByte
    let value := if batch.batch.base = 0 then 1 else batch.batch.base
    if scn = SCN.maxScn then
      { l with batchChecksum := batch, checksumScn := SCN.maxScn, checksum := value }
    else
      { l with batchChecksum := batch, checksumScn := scn.plus 1, tmpChecksum := value }

/-- `calc_need_remove_count_for_fast_commit_`. -/
def calcNeedRemoveCountForFastCommit (l : ObTxCallbackList) (fastCommitCallbackCount : ℤ) : ℤ :=
  l.length - (fastCommitCallbackCount + 1).tdiv 2

/-- `ObTxCallbackList::remove_callbacks_for_fast_commit`, where no other thread is at it. -/
def removeCallbacksForFastCommit (l : ObTxCallbackList) (fastCommitCallbackCount : ℤ)
    (stopScn : SCN) : ObTxCallbackList × ObResult Unit :=
  let rightBound :=
    if stopScn.isValid = false then l.syncScn
    else if l.syncScn ≠ SCN.minScn then SCN.min stopScn l.syncScn
    else stopScn
  let (l', state, ret) := l.callback crcByte
    (ObRemoveCallbacksForFastCommitFunctor crcByte rightBound l.checksumScn (!l.skipChecksum))
    ⟨l.calcNeedRemoveCountForFastCommit fastCommitCallbackCount, SCN.minScn⟩ l.logCursor
  match ret with
  | .error e => (l', .error e)
  | .ok _ => (l'.ensureChecksum crcByte state.lastScnForRemove, .ok ())

/-- `ObTxCallbackList::remove_callbacks_for_remove_memtable`. -/
def removeCallbacksForRemoveMemtable (l : ObTxCallbackList) (memtableSet : List ℕ)
    (stopScn : SCN) : ObTxCallbackList × ObResult Unit :=
  let (l', last, ret) := l.callback crcByte
    (ObRemoveSyncCallbacksWCondFunctor crcByte (fun cb => cb.memtable ∈ memtableSet)
      (fun cb => SCN.gt cb.scn stopScn) l.checksumScn (!l.skipChecksum))
    SCN.minScn none
  match ret with
  | .error e => (l', .error e)
  | .ok _ => (l'.ensureChecksum crcByte (if l.skipChecksum then SCN.invalid else last), .ok ())

/-- The `cond_for_remove` of `remove_callbacks_for_rollback_to`. -/
def condForRollback (toSeq fromSeq : ObTxSEQ) (cb : ObITransCallback) : ObResult Bool :=
  if toSeq.getBranch = 0 ∨ toSeq.getBranch = cb.seqNo.getBranch then
    if cb.seqNo.getSeq ≥ fromSeq.getSeq then .error .errUnexpected
    else .ok (cb.seqNo.getSeq > toSeq.getSeq)
  else
    .ok false

/-- `ObTxCallbackList::remove_callbacks_for_rollback_to`. -/
def removeCallbacksForRollbackTo (l : ObTxCallbackList) (toSeq fromSeq : ObTxSEQ)
    (replayScn : SCN) : ObTxCallbackList × ObResult Unit :=
  let rightBound := if replayScn.isValid then replayScn else SCN.maxScn
  let (l', last, ret) := l.callback crcByte
    (ObRemoveCallbacksWCondFunctor crcByte (condForRollback toSeq fromSeq) rightBound
      l.checksumScn (!l.skipChecksum))
    SCN.minScn none
  match ret with
  | .error e => (l', .error e)
  | .ok _ =>
    let l' :=
      if toSeq.supportBranch && toSeq.getBranch ≠ 0 then
        { l' with branchRemoved := l'.branchRemoved + (l.length - l'.length) }
      else
        l'
    (l'.ensureChecksum crcByte (if l.skipChecksum then SCN.invalid else last), .ok ())

/-- `ObTxCallbackList::tx_calc_checksum_before_scn`. -/
def txCalcChecksumBeforeScn (l : ObTxCallbackList) (scn : SCN) :
    ObTxCallbackList × ObResult Unit :=
  let stopScn := if scn = SCN.maxScn then l.syncScn else scn
  let (l', last, ret) := l.callback crcByte
    (ObCalcChecksumFunctor crcByte stopScn l.checksumScn) SCN.minScn none
  match ret with
  | .error e => (l', .error e)
  | .ok _ => (l'.ensureChecksum crcByte last, .ok ())

/-- `ObTxCallbackList::tx_calc_checksum_all`. -/
def txCalcChecksumAll (l : ObTxCallbackList) : ObTxCallbackList × ObResult Unit :=
  if l.checksumScn = SCN.maxScn ∧ l.checksum ≠ 0 then
    (l, .ok ())
  else
    let (l', _, ret) := l.callback crcByte
      (ObCalcChecksumFunctor crcByte SCN.maxScn l.checksumScn) SCN.minScn none
    match ret with
    | .error e => (l', .error e)
    | .ok _ => (l'.ensureChecksum crcByte SCN.maxScn, .ok ())

end ObTxCallbackList

end List

end Andl.Storage
