import Andl.Serialization.Unis
import Andl.Storage.UndoStatus

/-!
# Serialized undo status lists

`ObUndoStatusList` on disk: a version, a length, the number of nodes, and then the actions of all
nodes in the order in which they were added, from the last node of the list to the head.
-/

namespace Andl.Storage

open Serialization

/-! ### Sequence numbers -/

namespace ObTxSEQ

/-- `ObTxSEQ::serialize`. -/
def serialize (s : ObTxSEQ) : Encoder ObError := encodeVi64 s.rawVal

/-- `ObTxSEQ::get_serialize_size`. -/
def getSerializeSize (s : ObTxSEQ) : ℤ := encodedLengthVi64 s.rawVal

/-- `ObTxSEQ::deserialize`. -/
def deserialize : Reader ObError ObTxSEQ := fun buf dataLen pos => do
  let (rawVal, pos) ← decodeVi64.orError .deserializeError buf dataLen pos
  return (⟨uint64 rawVal⟩, pos)

end ObTxSEQ

/-! ### Actions -/

namespace ObUndoAction

/-- `ObUndoAction::UNIS_VERSION`. -/
def unisVersion : ℤ := 1

/-- `ObUndoAction::serialize`. -/
def serialize (u : ObUndoAction) : Encoder ObError :=
  unisSerialize unisVersion (u.undoFrom.serialize.andThen u.undoTo.serialize)

/-- `ObUndoAction::get_serialize_size`. -/
def getSerializeSize (u : ObUndoAction) : ℤ :=
  unisGetSerializeSize unisVersion (u.undoFrom.getSerializeSize + u.undoTo.getSerializeSize)

/-- `ObUndoAction::deserialize_`, into an action with some values. -/
def deserialize_ (u : ObUndoAction) : Reader ObError ObUndoAction := fun buf dataLen pos => do
  let (undoFrom, pos) ← unisDecode ObTxSEQ.deserialize u.undoFrom buf dataLen pos
  let (undoTo, pos) ← unisDecode ObTxSEQ.deserialize u.undoTo buf dataLen pos
  return (⟨undoFrom, undoTo⟩, pos)

/-- `ObUndoAction::deserialize`. -/
def deserialize (u : ObUndoAction) : Reader ObError ObUndoAction :=
  unisDeserialize unisVersion u.deserialize_

end ObUndoAction

/-! ### Lists -/

namespace UndoStatusNodes

/-- `ObUndoStatusList::UNIS_VERSION`. -/
def unisVersion : ℤ := 1

/-- `ObUndoStatusList::get_serialize_size_`. -/
def getSerializeSize_ (l : UndoStatusNodes) : ℤ :=
  encodedLengthVi32 l.undoNodeCnt +
    (l.nodes.map fun node => (node.undoActions.map (·.getSerializeSize)).sum).sum

/-- `ObUndoStatusList::get_serialize_size`. -/
def getSerializeSize (l : UndoStatusNodes) : ℤ :=
  encodedLengthVi64 unisVersion + encodedLengthVi64 l.getSerializeSize_ + l.getSerializeSize_

/-- `ObUndoStatusList::serialize_`. -/
def serialize_ (l : UndoStatusNodes) : Encoder ObError :=
  (encodeVi32 l.undoNodeCnt).andThen
    -- the nodes are taken from a stack
    (Encoder.all (l.nodes.reverse.map fun node =>
      Encoder.all (node.undoActions.map (·.serialize))))

/-- `ObUndoStatusList::serialize`. -/
def serialize (l : UndoStatusNodes) : Encoder ObError := fun bufLen s =>
  if bufLen ≤ 0 ∨ s.pos > bufLen then (.error .invalidArgument, s)
  else
    ((encodeVi64 unisVersion).andThen
      ((encodeVi64 l.getSerializeSize_).andThen l.serialize_)) bufLen s

theorem length_empty_lt :
    ObUndoStatusNode.empty.undoActions.length < txDataUndoActMaxNumPerNode := by decide

/-- Where `deserialize_` puts an action. -/
def appendAction (curNode : Bool) (action : ObUndoAction) :
    List ObUndoStatusNode → List ObUndoStatusNode
  | [] => [ObUndoStatusNode.empty.push action length_empty_lt]
  | node :: rest =>
    if h : curNode = true ∧ node.undoActions.length < txDataUndoActMaxNumPerNode then
      node.push action h.2 :: rest
    else ObUndoStatusNode.empty.push action length_empty_lt :: node :: rest

/-- The loop of `ObUndoStatusList::deserialize_`. -/
def deserializeLoop (buf : Mem) (dataLen : ℕ) :
    ℕ → List ObUndoStatusNode → Bool → ObUndoAction → ℕ → ObResult (List ObUndoStatusNode × ℕ)
  | 0, nodes, _, _, pos => .ok (nodes, pos)
  | rounds + 1, nodes, curNode, action, pos =>
    if pos < dataLen then do
      let (action, pos) ← unisDecode action.deserialize action buf dataLen pos
      deserializeLoop buf dataLen rounds (appendAction curNode action nodes) true action pos
    else .ok (nodes, pos)

/-- `ObUndoStatusList::deserialize_`. -/
def deserialize_ (l : UndoStatusNodes) : Reader ObError UndoStatusNodes :=
  fun buf dataLen pos => do
    let (undoNodeCnt, pos) ←
      unisDecode (decodeVi32.orError .deserializeError) l.undoNodeCnt buf dataLen pos
    let (nodes, pos) ← deserializeLoop buf dataLen (dataLen - pos) l.nodes false .reset pos
    return (⟨nodes, undoNodeCnt⟩, pos)

/-- `ObUndoStatusList::deserialize`. -/
def deserialize (l : UndoStatusNodes) : Reader ObError UndoStatusNodes := fun buf dataLen pos => do
  let (version, pos) ← decodeVi64.orError .deserializeError buf dataLen pos
  let (undoStatusListLen, pos) ← decodeVi64.orError .deserializeError buf dataLen pos
  if version ≠ unisVersion then .error .versionNotMatch
  else if undoStatusListLen < 0 then .error .errUnexpected
  else if (dataLen : ℤ) < undoStatusListLen + pos then .error .deserializeError
  else do
    let (l, used) ← l.deserialize_ (fun i => buf (pos + i)) undoStatusListLen.toNat 0
    return (l, used + pos)

/-- The part of `ObTxData::equals_` that compares the nodes. -/
def nodesEqual : List ObUndoStatusNode → List ObUndoStatusNode → Bool
  | [], [] => true
  | lNode :: lRest, rNode :: rRest =>
    lNode.undoActions.length = rNode.undoActions.length &&
      ((lNode.undoActions.zip rNode.undoActions).all fun (l, r) =>
        l.undoFrom.rawVal = r.undoFrom.rawVal && l.undoTo.rawVal = r.undoTo.rawVal) &&
      nodesEqual lRest rRest
  | _, _ => false

end UndoStatusNodes

end Andl.Storage
