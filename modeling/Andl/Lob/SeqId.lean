import Andl.Common.Member

/-!
# Ids of LOB pieces

`ObLobSeqId` is a sequence of 32-bit digits, kept twice: as an array of numbers and as a buffer of
big-endian bytes, which is what is returned.
-/

namespace Andl.Lob

/-- `store32be`: the four bytes. -/
def store32be (val : Nat) : List Nat :=
  [val / 2 ^ 24 % 256, val / 2 ^ 16 % 256, val / 2 ^ 8 % 256, val % 256]

/-- `load32be` of the bytes at `pos`. -/
def load32be (bytes : List Nat) (pos : Nat) : Nat :=
  bytes.getD pos 0 * 2 ^ 24 + bytes.getD (pos + 1) 0 * 2 ^ 16 + bytes.getD (pos + 2) 0 * 2 ^ 8 +
    bytes.getD (pos + 3) 0

/-- `store32be(buf + pos, val)`. -/
def storeAt (buf : List Nat) (pos val : Nat) : List Nat :=
  buf.take pos ++ store32be val ++ buf.drop (pos + 4)

/-- `ObLobSeqId`. -/
structure ObLobSeqId where
  seqId : List Nat
  parsed : Bool := false
  lastSeqBufPos : Nat := 0
  buf : List Nat := []
  len : Nat := 0
  digits : List Nat := []
  digLen : Nat := 0
deriving DecidableEq

namespace ObLobSeqId

/-- `LOB_SEQ_DIGIT_DEFAULT_LEN`. -/
def lobSeqDigitDefaultLen : Nat := 1024

/-- `LOB_SEQ_DEFAULT_SEQ_BUF_LEN`. -/
def lobSeqDefaultSeqBufLen : Nat := 1024 * 8

/-- `LOB_SEQ_ID_MIN`. -/
def lobSeqIdMin : Nat := 256

/-- `LOB_SEQ_STEP_LEN`. -/
def lobSeqStepLen : Nat := 256

/-- `LOB_SEQ_STEP_MAX`, the largest 32-bit number. -/
def lobSeqStepMax : Nat := 2 ^ 32 - 1

/-- The static `ObLobSeqId::get_seq_id`. -/
def getSeqIdAt (idx : Int) (seqId : List Nat) : ObResult (List Nat) :=
  if seqId.length < 4 then .error .invalidArgument
  else if (idx + 1) * lobSeqStepLen > lobSeqStepMax then .ok seqId
  else .ok (storeAt seqId 0 ((idx + 1) * lobSeqStepLen % 2 ^ 32).toNat)

/-- `ObLobSeqId::init_digits`. -/
def initDigits (s : ObLobSeqId) : ObLobSeqId :=
  { s with digits := List.replicate lobSeqDigitDefaultLen 0, digLen := 0 }

/-- `ObLobSeqId::init_seq_buf`. -/
def initSeqBuf (s : ObLobSeqId) : ObLobSeqId :=
  { s with buf := List.replicate lobSeqDefaultSeqBufLen 0, len := 0 }

/-- `ObLobSeqId::extend_digits`. -/
def extendDigits (s : ObLobSeqId) : ObLobSeqId :=
  { s with digits := s.digits ++ List.replicate s.digits.length 0 }

/-- `ObLobSeqId::extend_seq_buf`. -/
def extendSeqBuf (s : ObLobSeqId) : ObLobSeqId :=
  { s with buf := s.buf ++ List.replicate s.buf.length 0 }

/-- `ObLobSeqId::add_digits`. -/
def addDigits (s : ObLobSeqId) (val : Nat) : ObLobSeqId :=
  let s := if s.digits = [] then s.initDigits else s
  let s := if s.digLen < s.digits.length then s else s.extendDigits
  { s with digits := s.digits.set s.digLen val, digLen := s.digLen + 1 }

/-- `ObLobSeqId::append_seq_buf`. -/
def appendSeqBuf (s : ObLobSeqId) (val : Nat) : ObLobSeqId :=
  let s := if s.buf = [] then s.initSeqBuf else s
  let s := if s.len + 4 < s.buf.length then s else s.extendSeqBuf
  { s with lastSeqBufPos := s.len, buf := storeAt s.buf s.len val, len := s.len + 4 }

/-- `digits_[dig_len_ - 1] = val`. -/
def setLastDigit (s : ObLobSeqId) (val : Nat) : ObLobSeqId :=
  { s with digits := s.digits.set (s.digLen - 1) val }

/-- `ObLobSeqId::replace_seq_buf_last_node`. -/
def replaceSeqBufLastNode (s : ObLobSeqId) (val : Nat) : ObResult ObLobSeqId :=
  let s := if s.lastSeqBufPos + 4 < s.buf.length then s else s.extendSeqBuf
  if s.digLen = 0 then .error .errUnexpected
  else .ok
    { s with
      digits := s.digits.set (s.digLen - 1) val
      buf := storeAt s.buf s.lastSeqBufPos val
      len := s.lastSeqBufPos + 4 }

/-- The loop of `ObLobSeqId::parse`, from `curPos` on. -/
def parseFrom (curPos : Nat) : (n : Nat) → ObLobSeqId → ObLobSeqId
  | 0, s => s
  | n + 1, s =>
    let val := load32be s.seqId (4 * curPos)
    parseFrom (curPos + 1) n ((s.addDigits val).appendSeqBuf val)

/-- `ObLobSeqId::parse`. -/
def parse (s : ObLobSeqId) : ObResult ObLobSeqId :=
  if s.seqId.length % 4 > 0 then .error .errUnexpected
  else .ok { parseFrom 0 (s.seqId.length / 4) s with parsed := true }

/-- `if (!parsed_) parse()`. -/
def ensureParsed (s : ObLobSeqId) : ObResult ObLobSeqId := if s.parsed then .ok s else s.parse

/-- `ObLobSeqId::empty`. -/
def empty (s : ObLobSeqId) : Bool := s.digLen = 0

/-- The loop of `ObLobSeqId::compare` over the digits that both have. -/
def compareDigits (ds es : List Nat) : (n : Nat) → Int
  | 0 => 0
  | n + 1 =>
    match ds, es with
    | d :: ds, e :: es => if d > e then 1 else if d < e then -1 else compareDigits ds es n
    | _, _ => 0

/-- `ObLobSeqId::compare`. -/
def compare (s other : ObLobSeqId) : Int :=
  let commonLen := if s.digLen > other.digLen then other.digLen else s.digLen
  let cmpRet := compareDigits s.digits other.digits commonLen
  if cmpRet = 0 then
    if s.digLen > other.digLen then 1 else if s.digLen < other.digLen then -1 else 0
  else cmpRet

/-- `seq_id.assign_ptr(buf_, len_)`. -/
def bufId (s : ObLobSeqId) : List Nat := s.buf.take s.len

/-- A new last digit. -/
def expand (s : ObLobSeqId) : ObLobSeqId := (s.addDigits lobSeqIdMin).appendSeqBuf lobSeqIdMin

/-- `ObLobSeqId::get_next_seq_id(seq_id)`. -/
def getNextSeqId (s : ObLobSeqId) : ObResult (ObLobSeqId × List Nat) := do
  let s ← s.ensureParsed
  if s.empty then
    let s := s.expand
    return (s, s.bufId)
  else
    let cur := s.digits.getD (s.digLen - 1) 0 + lobSeqStepLen
    if cur > lobSeqStepMax then
      let s := s.expand
      return (s, s.bufId)
    else
      let s ← s.replaceSeqBufLastNode cur
      return (s, s.bufId)

/-- `ObLobSeqId::get_next_seq_id(seq_id, end)`. -/
def getNextSeqIdBefore (s fin : ObLobSeqId) : ObResult (ObLobSeqId × ObLobSeqId × List Nat) := do
  let s ← s.ensureParsed
  let fin ← fin.ensureParsed
  if fin.empty then .error .errUnexpected
  else if compare s fin ≠ -1 then .error .errUnexpected
  else if s.empty then
    let s := s.expand
    return (s, fin, s.bufId)
  else
    let cur := s.digits.getD (s.digLen - 1) 0 + lobSeqStepLen
    let needExpend :=
      if cur > lobSeqStepMax then true
      else compare (s.setLastDigit cur) fin ≠ -1
    if needExpend then
      let s := s.expand
      return (s, fin, s.bufId)
    else
      let s ← s.replaceSeqBufLastNode cur
      return (s, fin, s.bufId)

/-- Repeated calls of `get_next_seq_id(seq_id)`. -/
def nextSeqIds (s : ObLobSeqId) : (n : Nat) → ObResult (List (List Nat))
  | 0 => .ok []
  | n + 1 => do
    let (s, seqId) ← s.getNextSeqId
    let seqIds ← nextSeqIds s n
    return seqId :: seqIds

end ObLobSeqId

end Andl.Lob
