import Andl.Common.Member
import Andl.Lib.MachineInt
import Andl.Palf.Lsn
import Andl.Share.Scn

/-!
# Allocating log positions

`LSNAllocator` hands out positions, log ids and scns for the leader's logs.
-/

namespace Andl.Palf

/-- `PALF_BLOCK_SIZE`: 64 MB less the info block. -/
def palfBlockSize : Nat := 2 ^ 26 - 4096

/-- `MAX_LOG_BODY_SIZE`. -/
def maxLogBodySize : Nat := 3 * 1024 * 1024 + 512 * 1024

/-- `CLOG_FILE_TAIL_PADDING_TRIGGER`. -/
def clogFileTailPaddingTrigger : Nat := 4096

/-- `LogGroupEntryHeader::HEADER_SER_SIZE`, the size of the struct. -/
def logGroupEntryHeaderSize : Nat := 56

/-- `LogEntryHeader::HEADER_SER_SIZE`, the size of the struct. -/
def logEntryHeaderSize : Nat := 32

/-- `OB_INVALID_LOG_ID`. -/
def obInvalidLogId : Int := -1

/-- `LOG_MAX_BLOCK_ID`. -/
def logMaxBlockId : Nat := (2 ^ 64 - 1) / palfBlockSize - 1

/-- `is_valid_block_id`. -/
def isValidBlockId (blockId : Nat) : Bool := blockId < logMaxBlockId

/-- `LSNAllocator::LSNTsMeta`, one 128-bit word. -/
structure LSNTsMeta where
  isNeedCut : Bool
  logIdDelta : Nat
  scnDelta : Nat
  lsnVal : Nat
deriving DecidableEq, Repr

/-- A word with the given bit fields. -/
def LSNTsMeta.pack (isNeedCut : Bool) (logIdDelta scnDelta lsnVal : Nat) : LSNTsMeta :=
  ⟨isNeedCut, logIdDelta % 2 ^ 28, scnDelta % 2 ^ 35, lsnVal % 2 ^ 64⟩

/-- `LSNAllocator`. -/
structure LSNAllocator where
  lsnTsMeta : LSNTsMeta
  logIdBase : Int
  scnBase : Nat
  isInited : Bool
deriving DecidableEq

namespace LSNAllocator

/-- `LOG_ID_DELTA_UPPER_BOUND`. -/
def logIdDeltaUpperBound : Nat := 2 ^ 28 - 1000

/-- `LOG_TS_DELTA_UPPER_BOUND`. -/
def logTsDeltaUpperBound : Nat := 2 ^ 35 - 1000

/-- `LOG_CUT_TRIGGER`: logs are not aggregated across 2 MB. -/
def logCutTrigger : Nat := 2 ^ 21

/-- The allocator after `reset`. -/
def reset : LSNAllocator := ⟨⟨true, 0, 0, 0⟩, obInvalidLogId, 0, false⟩

/-- `LSNAllocator::init`. -/
def init (a : LSNAllocator) (logId : Int) (scn : SCN) (startLsn : LSN) : ObResult LSNAllocator :=
  if a.isInited then .error .initTwice
  else if logId = obInvalidLogId ∨ scn.isValid = false ∨ startLsn.isValid = false then
    .error .invalidArgument
  else .ok ⟨.pack true 0 0 startLsn.val, logId, scn.val, true⟩

/-- `last_log_id`. -/
def lastLogId (a : LSNAllocator) : Int := a.logIdBase + a.lsnTsMeta.logIdDelta

/-- `last_scn`, in unsigned 64-bit arithmetic. -/
def lastScn (a : LSNAllocator) : Nat := (a.scnBase + a.lsnTsMeta.scnDelta) % 2 ^ 64

/-- `LSNAllocator::get_max_log_id`. -/
def getMaxLogId (a : LSNAllocator) : Int := if a.isInited then a.lastLogId else obInvalidLogId

/-- `LSNAllocator::get_max_scn`. -/
def getMaxScn (a : LSNAllocator) : SCN :=
  if a.isInited then (SCN.convertForLogservice a.lastScn).getD SCN.invalid else SCN.invalid

/-- `LSNAllocator::get_curr_end_lsn`. -/
def getCurrEndLsn (a : LSNAllocator) : LSN := LSN.ofNat a.lsnTsMeta.lsnVal

/-- The common part of `try_freeze` and `try_freeze_by_time`. -/
def freeze (a : LSNAllocator) : LSNAllocator :=
  { a with lsnTsMeta := .pack true a.lsnTsMeta.logIdDelta a.lsnTsMeta.scnDelta a.lsnTsMeta.lsnVal }

/-- `LSNAllocator::try_freeze`. -/
def tryFreeze (a : LSNAllocator) : ObResult LSNAllocator :=
  if a.isInited = false then .error .notInit
  else if a.lsnTsMeta.isNeedCut then .ok a
  else .ok a.freeze

/-- `LSNAllocator::try_freeze_by_time`, which fails if the last log has been cut already. -/
def tryFreezeByTime (a : LSNAllocator) : ObResult LSNAllocator :=
  if a.isInited = false then .error .notInit
  else if a.lsnTsMeta.isNeedCut then .error .stateNotMatch
  else .ok a.freeze

/-- `LSNAllocator::inc_update_scn_base`. -/
def incUpdateScnBase (a : LSNAllocator) (refScn : SCN) : ObResult LSNAllocator :=
  if a.isInited = false then .error .notInit
  else if refScn.isValid = false then .error .invalidArgument
  else if a.lastScn > refScn.val then .ok a
  else .ok { a with
    lsnTsMeta := .pack true a.lsnTsMeta.logIdDelta 0 a.lsnTsMeta.lsnVal
    scnBase := refScn.val }

/-! ### The last log of another replica -/

/-- `LSNAllocator::truncate`. -/
def truncate (a : LSNAllocator) (lsn : LSN) (logId : Int) (scn : SCN) : ObResult LSNAllocator :=
  if a.isInited = false then .error .notInit
  else if lsn.isValid = false ∨ logId = obInvalidLogId ∨ scn.isValid = false then
    .error .invalidArgument
  else .ok { a with lsnTsMeta := .pack true 0 0 lsn.val, logIdBase := logId, scnBase := scn.val }

/-- The log is not behind the last one. -/
def isAhead (a : LSNAllocator) (lsn : LSN) (logId : Int) : Bool :=
  !(logId < a.lastLogId || lsn.val < a.lsnTsMeta.lsnVal)

/-- The part of `inc_update_last_log_info` under the write lock. -/
def incUpdateWithBase (a : LSNAllocator) (lsn : LSN) (logId : Int) (scn : SCN) : LSNAllocator :=
  if a.isAhead lsn logId then
    { a with lsnTsMeta := .pack true 0 0 lsn.val, logIdBase := logId, scnBase := scn.val }
  else a

/-- `scn.get_val_for_logservice() - scn_base_`, in unsigned 64-bit arithmetic. -/
def scnDeltaOf (a : LSNAllocator) (scn : SCN) : Nat := (2 ^ 64 + scn.val - a.scnBase) % 2 ^ 64

/-- `log_id - log_id_base_`. -/
def logIdDeltaOf (a : LSNAllocator) (logId : Int) : Int := int64 (logId - a.logIdBase)

/-- The part of `inc_update_last_log_info` under the read lock. -/
def incUpdateWithDelta (a : LSNAllocator) (lsn : LSN) (logId : Int) (scn : SCN) :
    Option LSNAllocator :=
  if a.isAhead lsn logId = false then some a
  else if a.logIdDeltaOf logId ≥ logIdDeltaUpperBound then none
  else if a.scnDeltaOf scn ≥ logTsDeltaUpperBound then none
  else some { a with
    lsnTsMeta := .pack true (a.logIdDeltaOf logId % 2 ^ 64).toNat (a.scnDeltaOf scn) lsn.val }

/-- `LSNAllocator::inc_update_last_log_info`. -/
def incUpdateLastLogInfo (a : LSNAllocator) (lsn : LSN) (logId : Int) (scn : SCN) :
    ObResult LSNAllocator :=
  if a.isInited = false then .error .notInit
  else if lsn.isValid = false ∨ scn.isValid = false ∨ logId = obInvalidLogId then
    .error .invalidArgument
  else
    match a.incUpdateWithDelta lsn logId scn with
    | some a' => .ok a'
    | none => .ok (a.incUpdateWithBase lsn logId scn)

/-! ### One allocation -/

/-- `tmp_next_scn`. -/
def tmpNextScn (a : LSNAllocator) (baseScn : SCN) : Nat :=
  max baseScn.val ((a.lastScn + 1) % 2 ^ 64)

/-- Whether a delta would come too close to the end of its field. -/
def needUpdateBase (a : LSNAllocator) (baseScn : SCN) : Bool :=
  (2 ^ 64 + a.tmpNextScn baseScn + 1 - a.scnBase) % 2 ^ 64 ≥ logTsDeltaUpperBound ||
    a.lsnTsMeta.logIdDelta + 2 ≥ logIdDeltaUpperBound

/-- The update of the bases under the write lock. -/
def updateBase (a : LSNAllocator) (baseScn : SCN) : LSNAllocator :=
  { a with
    lsnTsMeta := .pack a.lsnTsMeta.isNeedCut 0 0 a.lsnTsMeta.lsnVal
    logIdBase := a.lastLogId
    scnBase := max baseScn.val a.lastScn }

/-- Where a log goes: the position after it, and what comes before it. -/
structure NextPos where
  blockId : Nat
  blockOffset : Nat
  isNewGroupLog : Bool
  needGenPaddingEntry : Bool
  paddingLen : Nat
  isNextNeedCut : Bool
deriving DecidableEq, Repr

/-- One log id for a new group log. -/
def NextPos.groupCount (pos : NextPos) : Nat := if pos.isNewGroupLog then 1 else 0

/-- One log id and one scn for a padding entry. -/
def NextPos.paddingCount (pos : NextPos) : Nat := if pos.needGenPaddingEntry then 1 else 0

/-- A log of `len` bytes at `offset` ends at or beyond the next 2 MB boundary. -/
def reachesCutTrigger (offset len : Nat) : Bool := offset % logCutTrigger + len ≥ logCutTrigger

/-- The first half of the position computation. -/
def groupPos (isNeedCut : Bool) (offset size : Nat) : ObResult (Bool × Nat × Bool) :=
  let newGroupLogSize := size + logGroupEntryHeaderSize
  if isNeedCut then
    .ok (true, offset + newGroupLogSize, reachesCutTrigger offset newGroupLogSize)
  else if offset > 0 && offset % logCutTrigger == 0 then .error .errUnexpected
  else if offset > 0 && offset % logCutTrigger + size > logCutTrigger then
    .ok (true, offset + newGroupLogSize, reachesCutTrigger offset newGroupLogSize)
  else .ok (false, offset + size, reachesCutTrigger offset size)

/-- The log goes to the beginning of the next block, behind a padding entry. -/
def nextBlockPos (blockId offset size : Nat) : NextPos :=
  let newGroupLogSize := size + logGroupEntryHeaderSize
  { blockId := blockId + 1
    blockOffset := newGroupLogSize
    isNewGroupLog := true
    needGenPaddingEntry := true
    paddingLen := palfBlockSize - offset
    isNextNeedCut := newGroupLogSize ≥ logCutTrigger }

/-- The position computation of `alloc_lsn_scn`. -/
def nextPos (last : LSNTsMeta) (size : Nat) : ObResult NextPos := do
  let blockId := last.lsnVal / palfBlockSize
  let offset := last.lsnVal % palfBlockSize
  let (isNewGroupLog, nextOffset, isNextNeedCut) ← groupPos last.isNeedCut offset size
  if nextOffset < palfBlockSize then
    -- a tail of less than 4 KB is filled up at once
    if palfBlockSize - nextOffset < clogFileTailPaddingTrigger then
      return nextBlockPos blockId offset size
    else
      return ⟨blockId, nextOffset, isNewGroupLog, false, 0, isNextNeedCut⟩
  else if nextOffset = palfBlockSize then
    return ⟨blockId + 1, 0, isNewGroupLog, false, 0, true⟩
  else
    return nextBlockPos blockId offset size

/-- What `alloc_lsn_scn` hands out. -/
structure Allocated where
  lsn : LSN
  logId : Int
  scn : SCN
  isNewGroupLog : Bool
  needGenPaddingEntry : Bool
  paddingLen : Nat
deriving DecidableEq

/-- The word after a log at `pos`. -/
def nextMeta (a : LSNAllocator) (baseScn : SCN) (pos : NextPos) : LSNTsMeta :=
  .pack pos.isNextNeedCut
    (a.lsnTsMeta.logIdDelta + pos.groupCount + pos.paddingCount)
    ((2 ^ 64 + a.tmpNextScn baseScn - a.scnBase) % 2 ^ 64 + pos.paddingCount)
    (pos.blockId * palfBlockSize + pos.blockOffset)

/-- One round of the allocation loop with the bases settled. -/
def allocRound (a : LSNAllocator) (baseScn : SCN) (size : Nat) (logIdUpperBound : Int)
    (lsnUpperBound : LSN) : ObResult Allocated × LSNAllocator :=
  match nextPos a.lsnTsMeta size with
  | .error e => (.error e, a)
  | .ok pos =>
    let next := a.nextMeta baseScn pos
    let newLogId := a.lastLogId + pos.groupCount + pos.paddingCount
    if newLogId > logIdUpperBound ∨ LSN.ofNat next.lsnVal > lsnUpperBound then (.error .eAgain, a)
    else
      let a' := { a with lsnTsMeta := next }
      match SCN.convertForLogservice (a.tmpNextScn baseScn) with
      | none => (.error .invalidArgument, a')
      | some scn =>
        (.ok ⟨LSN.ofNat a.lsnTsMeta.lsnVal, a.lastLogId + pos.groupCount, scn,
          pos.isNewGroupLog, pos.needGenPaddingEntry, pos.paddingLen⟩, a')

/-- `LSNAllocator::alloc_lsn_scn`. -/
def allocLsnScn (a : LSNAllocator) (baseScn : SCN) (size : Int) (logIdUpperBound : Int)
    (lsnUpperBound : LSN) : ObResult Allocated × LSNAllocator :=
  if a.isInited = false then (.error .notInit, a)
  else if size ≤ 0 ∨ baseScn.isValid = false ∨ logIdUpperBound ≤ 0 ∨
      lsnUpperBound.isValid = false then (.error .invalidArgument, a)
  else
    let a := if a.needUpdateBase baseScn then a.updateBase baseScn else a
    a.allocRound baseScn size.toNat logIdUpperBound lsnUpperBound

/-! ### What `submit_log` makes of an allocation -/

/-- The kinds of byte ranges handed out. -/
inductive EntryKind where
  /-- a padding entry with its group header -/
  | padding
  /-- a new group log: group header and first log -/
  | group
  /-- a log appended to the last group -/
  | append
deriving DecidableEq, Repr

/-- One byte range with its log id and scn. -/
structure Entry where
  kind : EntryKind
  lsn : LSN
  len : Nat
  logId : Int
  scn : SCN
  baseScn : SCN

/-- The entries `submit_log` writes for an allocation of `size` bytes. -/
def submitEntries (baseScn : SCN) (size : Nat) (r : Allocated) : List Entry :=
  if r.needGenPaddingEntry then
    [⟨.padding, r.lsn, r.paddingLen, r.logId, r.scn, baseScn⟩,
      ⟨.group, r.lsn.add r.paddingLen, logGroupEntryHeaderSize + size, r.logId + 1,
        r.scn.plus 1, baseScn⟩]
  else if r.isNewGroupLog then
    [⟨.group, r.lsn, logGroupEntryHeaderSize + size, r.logId, r.scn, baseScn⟩]
  else
    [⟨.append, r.lsn, size, r.logId, r.scn, baseScn⟩]

end LSNAllocator

end Andl.Palf
