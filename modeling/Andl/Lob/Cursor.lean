import Andl.Common.Member
import Andl.Lib.Overwrite

/-!
# The cursor of an out-row LOB

`ObLobCursor` of `storage/lob`, with the partial data it works on, and the rows that
`ObLobPartialUpdateRowIter` makes of them.
-/

namespace Andl.Lob

/-- Where a chunk is. -/
structure ObLobChunkIndex where
  /-- The number of the stored chunk; `none` for the chunks that are added. -/
  seqId : Option ℕ := none
  offset : ℕ
  pos : ℕ := 0
  byteLen : ℕ
  isAdd : Bool := false
  isModified : Bool := false
  dataIdx : ℕ
  oldDataIdx : Option ℕ := none
deriving DecidableEq

/-- `ObLobCursor` with its `ObLobPartialData`. -/
structure ObLobCursor where
  chunkSize : ℕ
  dataLength : ℕ
  oriDataLength : ℕ
  searchMap : ℕ → Option ℕ := fun _ => none
  index : List ObLobChunkIndex := []
  data : List (List UInt8) := []
  oldData : List (List UInt8) := []
  updateBuffer : Option ℕ := none
  /-- The stored chunks, as the getter finds them. -/
  fetchMeta : ℕ → Option (List UInt8)

namespace ObLobCursor

variable (c : ObLobCursor)

/-- The chunk of a byte offset. -/
def getChunkPos (offset : ℕ) : ℕ := offset / c.chunkSize

/-- The byte offset of a chunk. -/
def getChunkOffset (pos : ℕ) : ℕ := pos * c.chunkSize

/-- `ObLobPartialData::push_chunk_index`. -/
def pushChunkIndex (chunkIndex : ObLobChunkIndex) : ObResult ObLobCursor :=
  match c.searchMap (chunkIndex.offset / c.chunkSize) with
  | some _ => .error .hashExist
  | none =>
    .ok { c with
      index := c.index ++ [chunkIndex]
      searchMap :=
        Function.update c.searchMap (chunkIndex.offset / c.chunkSize) (some c.index.length) }

/-- `partial_data_->index_[chunk_idx]`. -/
def chunkIndex (chunkIdx : ℕ) : ObResult ObLobChunkIndex :=
  match c.index[chunkIdx]? with
  | some chunkIndex => .ok chunkIndex
  | none => .error .abort

/-- A chunk index is replaced. -/
def setChunkIndex (chunkIdx : ℕ) (chunkIndex : ObLobChunkIndex) : ObLobCursor :=
  { c with index := c.index.set chunkIdx chunkIndex }

/-- `partial_data_->data_[data_idx]`. -/
def chunkData (dataIdx : ℕ) : ObResult (List UInt8) :=
  match c.data[dataIdx]? with
  | some data => .ok data
  | none => .error .abort

/-- Bytes of a data area. -/
def readData (dataIdx pos len : ℕ) : ObResult (List UInt8) := do
  let data ← c.chunkData dataIdx
  if pos + len ≤ data.length then .ok ((data.drop pos).take len) else .error .abort

/-- `MEMCPY` into a data area. -/
def writeData (dataIdx pos : ℕ) (buf : List UInt8) : ObResult ObLobCursor := do
  let data ← c.chunkData dataIdx
  if pos + buf.length ≤ data.length then
    .ok { c with data := c.data.set dataIdx (overwrite data pos buf) }
  else .error .abort

/-- A chunk behind the stored ones. -/
def isAppendChunk (chunkPos : ℕ) : Bool := c.getChunkOffset chunkPos ≥ c.oriDataLength

/-- `get_chunk_idx`: the index of the chunk, which is fetched if need be. -/
def getChunkIdx (chunkPos : ℕ) : ObResult (ℕ × ObLobCursor) :=
  if c.isAppendChunk chunkPos then
    match c.searchMap (c.getChunkPos (c.oriDataLength + c.chunkSize - 1)) with
    | some chunkIdx => .ok (chunkIdx, c)
    | none => .error .hashNotExist
  else
    match c.searchMap chunkPos with
    | some chunkIdx => .ok (chunkIdx, c)
    | none =>
      match c.fetchMeta chunkPos with
      | none => .error .iterEnd
      | some lobData =>
        if lobData.length ≤ 0 then .error .errUnexpected
        else do
          let pushed := { c with data := c.data ++ [lobData] }
          let c ← pushed.pushChunkIndex
            { seqId := some chunkPos, offset := chunkPos * c.chunkSize, byteLen := lobData.length,
              dataIdx := pushed.data.length - 1 }
          .ok (c.index.length - 1, c)

/-- `get_chunk_data`: the index of the chunk and its data area. -/
def getChunk (chunkPos : ℕ) : ObResult (ObLobChunkIndex × List UInt8 × ObLobCursor) := do
  let (chunkIdx, c) ← c.getChunkIdx chunkPos
  let chunkIndex ← c.chunkIndex chunkIdx
  let chunkData ← c.chunkData chunkIndex.dataIdx
  .ok (chunkIndex, chunkData, c)

/-! ### Merging -/

/-- The first chunk in the data area of a chunk. -/
def getChunkDataStartPos (curChunkPos : ℕ) : ObResult (ℕ × ObLobCursor) := do
  let (chunkIndex, _, c) ← c.getChunk curChunkPos
  .ok (c.getChunkPos (chunkIndex.offset - chunkIndex.pos), c)

/-- The last chunk in the data area of a chunk. -/
def getChunkDataEndPos (curChunkPos : ℕ) : ObResult (ℕ × ObLobCursor) := do
  let (chunkIndex, chunkData, c) ← c.getChunk curChunkPos
  .ok (c.getChunkPos (chunkIndex.offset - chunkIndex.pos + chunkData.length - 1), c)

/-- The data areas of the chunks, each once. -/
def collectDataIdx : ObLobCursor → List ℕ → List ℕ → ObResult (List ℕ × ObLobCursor)
  | c, [], chunkIdxArray => .ok (chunkIdxArray, c)
  | c, chunkPos :: rest, chunkIdxArray => do
    let (chunkIndex, _, c) ← c.getChunk chunkPos
    if chunkIdxArray.getLast? = some chunkIndex.dataIdx then collectDataIdx c rest chunkIdxArray
    else collectDataIdx c rest (chunkIdxArray ++ [chunkIndex.dataIdx])

/-- Whether the merged area is to be the update buffer. -/
def useUpdateBuffer (chunkIdxArray : List ℕ) : ObResult Bool :=
  match c.updateBuffer with
  | none => .ok false
  | some dataIdx =>
    if dataIdx ∈ chunkIdxArray.dropLast then .error .errUnexpected
    else .ok (chunkIdxArray.getLast? = some dataIdx)

/-- The data areas copied one behind the other, each one reset. -/
def copyAreas : List (List UInt8) → List ℕ → ObResult (List UInt8 × List (List UInt8))
  | data, [] => .ok ([], data)
  | data, dataIdx :: rest =>
    match data[dataIdx]? with
    | none => .error .abort
    | some chunkData => do
      let (buf, data) ← copyAreas (data.set dataIdx []) rest
      .ok (chunkData ++ buf, data)

/-- The chunk indexes get their place in the merged area. -/
def updateChunkIndexes (newChunkDataIdx : ℕ) :
    ObLobCursor → List ℕ → ℕ → Bool → ObResult ObLobCursor
  | c, [], _, _ => .ok c
  | c, chunkPos :: rest, pos, appendChunkSet => do
    let (chunkIdx, c) ← c.getChunkIdx chunkPos
    let chunkIndex ← c.chunkIndex chunkIdx
    if appendChunkSet ∧ chunkIndex.isAdd then
      updateChunkIndexes newChunkDataIdx c rest pos appendChunkSet
    else
      updateChunkIndexes newChunkDataIdx
        (c.setChunkIndex chunkIdx { chunkIndex with pos := pos, dataIdx := newChunkDataIdx })
        rest (pos + chunkIndex.byteLen) (appendChunkSet || chunkIndex.isAdd)

/-- `check_data_length`. -/
def checkDataLength : ObResult ObLobCursor :=
  if (c.data.map List.length).sum ≠ (c.index.map ObLobChunkIndex.byteLen).sum then
    .error .errUnexpected
  else .ok c

/-- The part of `merge_chunk_data` behind the collection of the data areas. -/
def mergeAreas (startChunkPos endChunkPos : ℕ) (chunkIdxArray : List ℕ) :
    ObResult ObLobCursor := do
  let useUpdateBuffer ← c.useUpdateBuffer chunkIdxArray
  let newChunkDataIdx ←
    match chunkIdxArray with
    | [] => .error .abort
    | dataIdx :: _ => .ok dataIdx
  let mergeLen := (chunkIdxArray.map fun dataIdx => (c.data.getD dataIdx []).length).sum
  let (buf, data) ← copyAreas c.data chunkIdxArray
  if buf.length ≠ mergeLen then .error .errUnexpected
  else
    let c ← updateChunkIndexes newChunkDataIdx { c with data := data }
      (List.range' startChunkPos (endChunkPos + 1 - startChunkPos)) 0 false
    checkDataLength
      { c with
        data := c.data.set newChunkDataIdx buf
        updateBuffer := if useUpdateBuffer then some newChunkDataIdx else c.updateBuffer }

/-- `merge_chunk_data`. -/
def mergeChunkData (startChunkPos endChunkPos : ℕ) : ObResult ObLobCursor := do
  let (startChunkPos, c) ← c.getChunkDataStartPos startChunkPos
  let (endChunkPos, c) ← c.getChunkDataEndPos endChunkPos
  let (chunkIdxArray, c) ←
    collectDataIdx c (List.range' startChunkPos (endChunkPos + 1 - startChunkPos)) []
  if chunkIdxArray.length ≠ 1 then c.mergeAreas startChunkPos endChunkPos chunkIdxArray else .ok c

/-! ### Reading and writing -/

/-- `record_chunk_old_data` and `set_old_data`. -/
def recordChunkOldData (chunkIdx : ℕ) : ObResult ObLobCursor := do
  let chunkIndex ← c.chunkIndex chunkIdx
  if chunkIndex.oldDataIdx.isSome ∨ chunkIndex.isAdd then .ok c
  else
    let buf ← c.readData chunkIndex.dataIdx chunkIndex.pos chunkIndex.byteLen
    let recorded := { c with oldData := c.oldData ++ [buf] }
    .ok (recorded.setChunkIndex chunkIdx
      { chunkIndex with oldDataIdx := some c.oldData.length, isModified := true })

/-- The old data of several chunks. -/
def recordChunks : ObLobCursor → List ℕ → ObResult ObLobCursor
  | c, [] => .ok c
  | c, chunkPos :: rest => do
    let (chunkIdx, c) ← c.getChunkIdx chunkPos
    recordChunks (← c.recordChunkOldData chunkIdx) rest

/-- The end of `get_ptr`: the data area and the place in it where the range starts. -/
def ptrIn (startChunkPos offset len : ℕ) : ObResult ((ℕ × ℕ) × ObLobCursor) := do
  let (chunkIndex, chunkData, c) ← c.getChunk startChunkPos
  if chunkIndex.pos + c.getChunkOffset startChunkPos < chunkIndex.offset then .error .errUnexpected
  else
    let pos := chunkIndex.pos + c.getChunkOffset startChunkPos - chunkIndex.offset
    let length := chunkData.length - pos
    if length = 0 ∨ length < offset - c.getChunkOffset startChunkPos + len then
      .error .errUnexpected
    else .ok ((chunkIndex.dataIdx, pos + offset - c.getChunkOffset startChunkPos), c)

/-- The merging that `get_ptr`, `get_ptr_for_write` and `set` start with. -/
def mergeIf (condition : Bool) (startChunkPos endChunkPos : ℕ) : ObResult ObLobCursor :=
  if condition then c.mergeChunkData startChunkPos endChunkPos else .ok c

/-- `get_ptr`. -/
def getPtr (offset len : ℕ) : ObResult ((ℕ × ℕ) × ObLobCursor) := do
  let startChunkPos := c.getChunkPos offset
  let endChunkPos := c.getChunkPos (offset + len - 1)
  let c ← c.mergeIf (startChunkPos ≠ endChunkPos) startChunkPos endChunkPos
  c.ptrIn startChunkPos offset len

/-- `get_ptr_for_write`. -/
def getPtrForWrite (offset len : ℕ) : ObResult ((ℕ × ℕ) × ObLobCursor) := do
  let startChunkPos := c.getChunkPos offset
  let endChunkPos := c.getChunkPos (offset + len - 1)
  let c ← c.mergeIf (startChunkPos ≠ endChunkPos) startChunkPos endChunkPos
  let c ← recordChunks c (List.range' startChunkPos (endChunkPos + 1 - startChunkPos))
  c.ptrIn startChunkPos offset len

/-- `get`. -/
def get (offset len : ℕ) : ObResult (List UInt8 × ObLobCursor) := do
  let ((dataIdx, pos), c) ← c.getPtr offset len
  .ok (← c.readData dataIdx pos len, c)

/-- `get_ptr_for_write`, and what its caller writes there. -/
def write (offset : ℕ) (buf : List UInt8) : ObResult ObLobCursor := do
  let ((dataIdx, pos), c) ← c.getPtrForWrite offset buf.length
  c.writeData dataIdx pos buf

/-- `push_append_chunk`. -/
def pushAppendChunk (appendLen : ℕ) : ObResult ObLobCursor := do
  let (lastChunkIdx, c) ← c.getChunkIdx (c.getChunkPos (c.dataLength - 1))
  let last ← c.chunkIndex lastChunkIdx
  if last.isAdd = false ∧ last.byteLen + appendLen > c.chunkSize then
    let c ← c.recordChunkOldData lastChunkIdx
    let c ← c.pushChunkIndex
      { offset := last.offset + c.chunkSize, pos := last.pos + c.chunkSize, byteLen := 0,
        isAdd := true, dataIdx := last.dataIdx }
    let last ← c.chunkIndex lastChunkIdx
    .ok (c.setChunkIndex lastChunkIdx { last with byteLen := c.chunkSize })
  else .ok c

/-- `move_data_to_update_buffer`, and the bytes by which the buffer is made longer. -/
def growUpdateBuffer (dataIdx : ℕ) (behind : List UInt8) : ObResult ObLobCursor := do
  let data ← c.chunkData dataIdx
  if c.updateBuffer = none ∨ c.updateBuffer = some dataIdx then
    .ok { c with data := c.data.set dataIdx (data ++ behind), updateBuffer := some dataIdx }
  else .error .errUnexpected

/-- The loop of `set` over its chunks. -/
def recordForSet (endChunkPos endOffset appendLen : ℕ) :
    ObLobCursor → List ℕ → ObResult ObLobCursor
  | c, [] => .ok c
  | c, chunkPos :: rest => do
    let (chunkIdx, c) ← c.getChunkIdx chunkPos
    let c ← c.recordChunkOldData chunkIdx
    let chunkIndex ← c.chunkIndex chunkIdx
    if chunkPos = endChunkPos ∧ appendLen > 0 then
      recordForSet endChunkPos endOffset appendLen
        (c.setChunkIndex chunkIdx { chunkIndex with byteLen := endOffset - chunkIndex.offset }) rest
    else recordForSet endChunkPos endOffset appendLen c rest

/-- `set`; `behind` is what the memory holds where the update buffer grows. -/
def set (offset : ℕ) (buf : List UInt8) (behind : ℕ → UInt8) : ObResult ObLobCursor := do
  let endOffset := offset + buf.length
  let startChunkPos := c.getChunkPos offset
  let oldEndChunkPos := c.getChunkPos (c.dataLength - 1)
  let endChunkPos := c.getChunkPos (endOffset - 1)
  let appendLen := if endOffset > c.dataLength then endOffset - c.dataLength else 0
  let c ← c.mergeIf (startChunkPos < oldEndChunkPos) startChunkPos oldEndChunkPos
  let c ← if appendLen > 0 then c.pushAppendChunk appendLen else .ok c
  let (startChunkIdx, c) ← c.getChunkIdx startChunkPos
  let start ← c.chunkIndex startChunkIdx
  let c ←
    if appendLen > 0 then c.growUpdateBuffer start.dataIdx ((List.range appendLen).map behind)
    else .ok c
  let c ← recordForSet endChunkPos endOffset appendLen c
    (List.range' startChunkPos (endChunkPos + 1 - startChunkPos))
  let start ← c.chunkIndex startChunkIdx
  let c ← c.writeData start.dataIdx (start.pos + (offset - start.offset)) buf
  checkDataLength { c with dataLength := c.dataLength + appendLen }

/-- `append`. -/
def append (buf : List UInt8) (behind : ℕ → UInt8) : ObResult ObLobCursor :=
  c.set c.dataLength buf behind

end ObLobCursor

/-! ### Opening -/

/-- The chunks of a LOB. -/
def chunks (chunkSize : ℕ) (bytes : List UInt8) : List (List UInt8) :=
  (List.range ((bytes.length + chunkSize - 1) / chunkSize)).map fun i =>
    (bytes.drop (i * chunkSize)).take chunkSize

/-- A cursor that fetches its chunks. -/
def ObLobCursor.openPartial (chunkSize : ℕ) (bytes : List UInt8) : ObLobCursor :=
  { chunkSize := chunkSize, dataLength := bytes.length, oriDataLength := bytes.length,
    fetchMeta := fun i => (chunks chunkSize bytes)[i]? }

/-- The chunk indexes of `ObLobManager::load_all`. -/
def loadIndexes (bytes : List UInt8) : ObLobCursor → List ℕ → ObResult ObLobCursor
  | c, [] => .ok c
  | c, i :: rest => do
    let offset := i * c.chunkSize
    let c ← c.pushChunkIndex
      { seqId := some i, offset := offset, pos := offset,
        byteLen := min bytes.length (offset + c.chunkSize) - offset, dataIdx := 0 }
    loadIndexes bytes c rest

/-- A cursor with all the data, by `ObLobManager::load_all` and `init_full`. -/
def ObLobCursor.openFull (chunkSize : ℕ) (bytes : List UInt8) : ObResult ObLobCursor :=
  loadIndexes bytes
    { ObLobCursor.openPartial chunkSize bytes with data := [bytes], updateBuffer := some 0 }
    (List.range ((bytes.length + chunkSize - 1) / chunkSize))

/-! ### Sequences of calls -/

/-- A call of the cursor. -/
inductive CursorCall where
  | get (offset len : ℕ)
  /-- `get_ptr_for_write`, and the bytes that are written there. -/
  | write (offset : ℕ) (buf : List UInt8)
  | set (offset : ℕ) (buf : List UInt8) (behind : ℕ → UInt8)
  | append (buf : List UInt8) (behind : ℕ → UInt8)

/-- A call, with the bytes it reads. -/
def CursorCall.run (c : ObLobCursor) : CursorCall → ObResult (Option (List UInt8) × ObLobCursor)
  | .get offset len => do
    let (bytes, c) ← c.get offset len
    .ok (some bytes, c)
  | .write offset buf => do .ok (none, ← c.write offset buf)
  | .set offset buf behind => do .ok (none, ← c.set offset buf behind)
  | .append buf behind => do .ok (none, ← c.append buf behind)

/-- Calls one after the other, with what they read. -/
def CursorCall.runAll : ObLobCursor → List CursorCall →
    ObResult (List (Option (List UInt8)) × ObLobCursor)
  | c, [] => .ok ([], c)
  | c, call :: rest => do
    let (bytes, c) ← call.run c
    let (reads, c) ← runAll c rest
    .ok (bytes :: reads, c)

/-- A cursor in full or in partial mode. An `ObLobPartialData` is serialized and read back between
its writer and the cursor, which is taken to give it back as it was. -/
def openCursor (isFullMode : Bool) (chunkSize : ℕ) (bytes : List UInt8) : ObResult ObLobCursor :=
  if isFullMode then ObLobCursor.openFull chunkSize bytes
  else .ok (ObLobCursor.openPartial chunkSize bytes)

/-! ### The rows of an update -/

/-- A row of `ObLobPartialUpdateRowIter`. -/
inductive UpdateRow where
  | update (seqId : Option ℕ) (oldData newData : List UInt8)
  | add (offset : ℕ) (newData : List UInt8)
deriving DecidableEq

namespace ObLobCursor

variable (c : ObLobCursor)

/-- `get_next_row` for one chunk index. -/
def rowOf (idx : ObLobChunkIndex) : ObResult (Option UpdateRow) :=
  if idx.isModified ∨ idx.isAdd then do
    let newData ← c.readData idx.dataIdx idx.pos idx.byteLen
    if idx.isAdd then .ok (some (.add idx.offset newData))
    else
      match idx.oldDataIdx with
      | none => .ok (some (.update idx.seqId [] newData))
      | some oldDataIdx =>
        match c.oldData[oldDataIdx]? with
        | none => .error .abort
        | some oldData => .ok (some (.update idx.seqId oldData newData))
  else .ok none

/-- The rows of the chunk indexes, sorted by their offsets, with the data as `ObLobPartialData` has
them before it is serialized. -/
def updateRows : ObResult (List UpdateRow) := do
  let rows ← (c.index.mergeSort fun a b => a.offset ≤ b.offset).mapM c.rowOf
  .ok (rows.filterMap id)

end ObLobCursor

/-- A row applied to the stored chunks. -/
def UpdateRow.apply (chunkSize : ℕ) (stored : List (List UInt8)) : UpdateRow → List (List UInt8)
  | .update (some seqId) _ newData => stored.set seqId newData
  | .update none _ _ => stored
  | .add offset newData => stored.take (offset / chunkSize) ++ chunks chunkSize newData

end Andl.Lob
