import Andl.Lib.Ring
import Andl.Palf.LsnAllocator

/-!
# The group buffer

`LogGroupBuffer` holds the logs a replica has received or generated but not necessarily flushed yet.
-/

namespace Andl.Palf

/-- `LEADER_DEFAULT_GROUP_BUFFER_SIZE`. -/
def leaderDefaultGroupBufferSize : Nat := 2 ^ 23

/-- `FOLLOWER_DEFAULT_GROUP_BUFFER_SIZE`. -/
def followerDefaultGroupBufferSize : Nat := leaderDefaultGroupBufferSize + 0

/-- `MAX_LOG_HEADER_SIZE`. -/
def maxLogHeaderSize : Nat := 4 * 1024

/-- `MAX_LOG_BUFFER_SIZE`. -/
def maxLogBufferSize : Nat := maxLogBodySize + maxLogHeaderSize + clogFileTailPaddingTrigger

/-- `PADDING_LOG_CONTENT_CHAR`. -/
def paddingLogContentChar : UInt8 := 0

/-! ### Write buffers -/

/-- `LogWriteBuf`: pieces of the memory, each with the position of its first byte and its length, to
be written one after the other. -/
abbrev LogWriteBuf := List (Nat × Nat)

namespace LogWriteBuf

/-- The bytes a write buffer refers to. -/
def bytes (buf : LogWriteBuf) (mem : Nat → UInt8) : List UInt8 :=
  buf.flatMap fun piece => Ring.load mem piece.1 piece.2

/-- The loop of `LogWriteBuf::push_back`. -/
def pushPieces (step pos : Nat) (hstep : 0 < step) (remainBufLen : Nat) : LogWriteBuf :=
  if _h : remainBufLen > 0 then
    let limitBufLen := min remainBufLen step
    (pos, limitBufLen) :: pushPieces step (pos + limitBufLen) hstep (remainBufLen - limitBufLen)
  else []
termination_by remainBufLen
decreasing_by omega

/-- `LogWriteBuf::push_back`. -/
def pushBack (buf : LogWriteBuf) (pos bufLen : Nat) : ObResult LogWriteBuf :=
  if bufLen = 0 then .error .invalidArgument
  else .ok (buf ++ pushPieces maxLogBufferSize pos (by decide) bufLen)

end LogWriteBuf

/-! ### The buffer -/

/-- `LogGroupBuffer`. -/
structure LogGroupBuffer where
  startLsn : LSN
  reuseLsn : LSN
  readableBeginLsn : LSN
  reservedBufferSize : Nat
  availableBufferSize : Nat
  dataBuf : Nat → UInt8
  isInited : Bool

namespace LogGroupBuffer

/-- `LogGroupBuffer::reset`. -/
def reset : LogGroupBuffer := ⟨.invalid, .invalid, .invalid, 0, 0, fun _ => 0, false⟩

/-- `LogGroupBuffer::init`, with the memory at hand. -/
def init (b : LogGroupBuffer) (startLsn : LSN) : ObResult LogGroupBuffer :=
  if b.isInited then .error .initTwice
  else if !startLsn.isValid then .error .invalidArgument
  else
    .ok
      { startLsn := startLsn
        reuseLsn := startLsn
        readableBeginLsn := startLsn
        reservedBufferSize := followerDefaultGroupBufferSize
        availableBufferSize := followerDefaultGroupBufferSize
        dataBuf := fun _ => 0
        isInited := true }

/-- `LogGroupBuffer::get_buffer_pos_`. -/
def getBufferPos (b : LogGroupBuffer) (lsn : LSN) : ObResult Nat :=
  if !b.isInited then .error .notInit
  else if !lsn.isValid then .error .invalidArgument
  else if lsn < b.startLsn then .error .errOutOfLowerBound
  else
    let diffLen := lsn.sub b.startLsn
    -- assert(diff_len >= 0)
    if diffLen < 0 then .error .abort
    else .ok (diffLen.toNat % b.reservedBufferSize)

/-- `LogGroupBuffer::can_handle_new_log` with a reference for the reusable end. -/
def canHandleNewLog (b : LogGroupBuffer) (lsn : LSN) (totalLen : Nat) (refReuseLsn : LSN) : Bool :=
  let endLsn := lsn.add totalLen
  let reuseLsn := min b.reuseLsn refReuseLsn
  b.isInited && lsn.isValid && totalLen > 0 && refReuseLsn.isValid &&
    !decide (lsn < b.startLsn) && !decide (endLsn > reuseLsn.add b.availableBufferSize)

/-- `LogGroupBuffer::get_log_buf`. -/
def getLogBuf (b : LogGroupBuffer) (lsn : LSN) (totalLen : Nat) : ObResult LogWriteBuf :=
  if !b.isInited then .error .notInit
  else if !lsn.isValid || totalLen = 0 then .error .invalidArgument
  else if lsn < b.startLsn then .error .invalidArgument
  else do
    let startPos ← b.getBufferPos lsn
    let groupBufTailLen := b.reservedBufferSize - startPos
    let firstPartLen := min groupBufTailLen totalLen
    let logBuf ← LogWriteBuf.pushBack [] startPos firstPartLen
    if totalLen > firstPartLen then logBuf.pushBack 0 (totalLen - firstPartLen)
    else return logBuf

/-- `LogGroupBuffer::gen_readable_begin_lsn_for_filling_`. -/
def genReadableBeginLsnForFilling (b : LogGroupBuffer) (lsn : LSN) : LSN :=
  if lsn.val ≥ b.reservedBufferSize then LSN.ofNat (lsn.val - b.reservedBufferSize) else LSN.initial

/-- `LogGroupBuffer::inc_update_readable_begin_lsn_`. -/
def incUpdateReadableBeginLsn' (b : LogGroupBuffer) (newLsn : LSN) : LogGroupBuffer :=
  { b with readableBeginLsn := max b.readableBeginLsn newLsn }

/-- `LogGroupBuffer::fill_`. -/
def fill' (b : LogGroupBuffer) (startPos : Nat) (data : List UInt8) : LogGroupBuffer :=
  { b with dataBuf := Ring.storeWrapped b.reservedBufferSize b.dataBuf startPos data }

/-- The range checks that `fill` and `fill_padding_body` share. -/
def checkFill (b : LogGroupBuffer) (lsn endLsn : LSN) : ObResult Nat :=
  if lsn < b.startLsn then .error .errUnexpected
  else if endLsn ≤ b.reuseLsn then .error .errUnexpected
  else if endLsn > b.reuseLsn.add b.availableBufferSize then .error .eAgain
  else b.getBufferPos lsn

/-- `LogGroupBuffer::fill`. -/
def fill (b : LogGroupBuffer) (lsn : LSN) (data : List UInt8) : ObResult LogGroupBuffer :=
  let endLsn := lsn.add data.length
  if !b.isInited then .error .notInit
  else if !lsn.isValid || data.isEmpty then .error .invalidArgument
  else do
    let startPos ← b.checkFill lsn endLsn
    let b := b.incUpdateReadableBeginLsn' (b.genReadableBeginLsnForFilling endLsn)
    return b.fill' startPos data

/-- `LogGroupBuffer::fill_padding_body`. -/
def fillPaddingBody (b : LogGroupBuffer) (lsn : LSN) (data : List UInt8) (logBodySize : Nat) :
    ObResult LogGroupBuffer :=
  let endLsn := lsn.add logBodySize
  if !b.isInited then .error .notInit
  else if !lsn.isValid || logBodySize = 0 then .error .invalidArgument
  else do
    let startPos ← b.checkFill lsn endLsn
    let b := b.incUpdateReadableBeginLsn' (b.genReadableBeginLsnForFilling endLsn)
    let b := b.fill' startPos (List.replicate logBodySize paddingLogContentChar)
    return b.fill' startPos data

/-- `LogGroupBuffer::inc_update_readable_begin_lsn`. -/
def incUpdateReadableBeginLsn (b : LogGroupBuffer) (newLsn : LSN) : ObResult LogGroupBuffer :=
  if !newLsn.isValid then .error .invalidArgument
  else .ok (b.incUpdateReadableBeginLsn' newLsn)

/-- `LogGroupBuffer::inc_update_reuse_lsn`. -/
def incUpdateReuseLsn (b : LogGroupBuffer) (newReuseLsn : LSN) : ObResult LogGroupBuffer :=
  if !newReuseLsn.isValid then .error .invalidArgument
  else if newReuseLsn > b.reuseLsn then .ok { b with reuseLsn := newReuseLsn }
  else .ok b

/-- `LogGroupBuffer::truncate`. -/
def truncate (b : LogGroupBuffer) (newLsn : LSN) : ObResult LogGroupBuffer :=
  if !newLsn.isValid then .error .invalidArgument
  else if newLsn < b.startLsn then .error .invalidArgument
  else .ok { b.incUpdateReadableBeginLsn' newLsn with reuseLsn := newLsn }

/-- `LogGroupBuffer::to_leader`. -/
def toLeader (b : LogGroupBuffer) : ObResult LogGroupBuffer :=
  if !b.isInited then .error .notInit
  else .ok { b with availableBufferSize := leaderDefaultGroupBufferSize }

/-- `LogGroupBuffer::to_follower`. -/
def toFollower (b : LogGroupBuffer) : ObResult LogGroupBuffer :=
  if !b.isInited then .error .notInit
  else .ok { b with availableBufferSize := followerDefaultGroupBufferSize }

/-- `LogGroupBuffer::read_data`, with `out_read_size` the length of what is read. At or beyond
`reuse_lsn_` the source leaves `out_read_size` as it is; `LogHotCache::read`, where the calls come
from, has set it to zero. -/
def readData (b : LogGroupBuffer) (readBeginLsn : LSN) (inReadSize : Int) :
    ObResult (List UInt8) :=
  if !readBeginLsn.isValid || inReadSize ≤ 0 then .error .invalidArgument
  else do
    let startPos ← b.getBufferPos readBeginLsn
    if readBeginLsn < b.readableBeginLsn then .error .errOutOfLowerBound
    else if b.reuseLsn > readBeginLsn then
      let readableSize := b.reuseLsn.sub readBeginLsn
      let realReadSize := min readableSize inReadSize
      -- the second look at readable_begin_lsn_ after copying sees the same value
      return Ring.loadWrapped b.reservedBufferSize b.dataBuf startPos realReadSize.toNat
    else return []

end LogGroupBuffer

end Andl.Palf
