import Andl.Common.Member
import Andl.Storage.TxData

/-!
# Undo status lists

A transaction that rolls back to a savepoint adds an undo action to its `ObUndoStatusList`, a linked
list of nodes with a fixed number of actions each (`addUndoAction`).
-/

namespace Andl.Storage

/-! ### Actions -/

/-- `ObTxSEQ::is_valid`: `raw_val_` is a signed integer. -/
def ObTxSEQ.isValid (s : ObTxSEQ) : Bool := 0 < s.rawVal && s.rawVal < 2 ^ 63

namespace ObUndoAction

/-- `ObUndoAction::reset`. -/
def reset : ObUndoAction := ⟨⟨0⟩, ⟨0⟩⟩

/-- `ObUndoAction::is_valid`. -/
def isValid (u : ObUndoAction) : Bool :=
  u.undoFrom.isValid && u.undoTo.isValid && u.undoFrom.getBranch = u.undoTo.getBranch &&
    u.undoFrom.gt u.undoTo

/-- `ObUndoAction::is_contain` for another action. -/
def isContainAction (u other : ObUndoAction) : Bool :=
  (u.undoTo.getBranch = 0 || u.undoTo.getBranch = other.undoTo.getBranch) &&
    u.undoFrom.getSeq ≥ other.undoFrom.getSeq && u.undoTo.getSeq ≤ other.undoTo.getSeq

end ObUndoAction

/-! ### Nodes -/

/-- `TX_DATA_UNDO_ACT_MAX_NUM_PER_NODE`, from `TX_DATA_SLICE_SIZE` and `UNDO_ACTION_SZIE`. -/
def txDataUndoActMaxNumPerNode : ℕ := 128 / 16 - 1

/-- `ObUndoStatusNode`: the first `size_` entries of `undo_actions_`. -/
@[ext]
structure ObUndoStatusNode where
  undoActions : List ObUndoAction
  size_le : undoActions.length ≤ txDataUndoActMaxNumPerNode

namespace ObUndoStatusNode

/-- The node of a constructor call. -/
def empty : ObUndoStatusNode := ⟨[], Nat.zero_le _⟩

/-- `node->undo_actions_[node->size_++] = action`. -/
def push (node : ObUndoStatusNode) (action : ObUndoAction)
    (h : node.undoActions.length < txDataUndoActMaxNumPerNode) : ObUndoStatusNode :=
  ⟨node.undoActions ++ [action], by rw [List.length_append]; exact h⟩

end ObUndoStatusNode

/-- The loop of `merge_undo_actions_` over the actions of a node, the newest one first. -/
def mergeLoop (new : ObUndoAction) : List ObUndoAction → List ObUndoAction × ObUndoAction
  | [] => ([], new)
  | action :: older =>
    if new.isContainAction action then mergeLoop new older
    else if action.isContainAction new then (action :: older, .reset)
    else (action :: older, new)

theorem length_mergeLoop_le (new : ObUndoAction) (actions : List ObUndoAction) :
    (mergeLoop new actions).1.length ≤ actions.length := by
  induction actions with
  | nil => exact le_refl _
  | cons action older ih =>
    rw [mergeLoop]
    split_ifs with hpop hreset
    · exact ih.trans (Nat.le_succ _)
    · exact le_refl _
    · exact le_refl _

/-- What the loop leaves of a node. -/
def ObUndoStatusNode.merge (node : ObUndoStatusNode) (new : ObUndoAction) : ObUndoStatusNode where
  undoActions := (mergeLoop new node.undoActions.reverse).1.reverse
  size_le := by
    have h := length_mergeLoop_le new node.undoActions.reverse
    rw [List.length_reverse] at h ⊢
    exact h.trans node.size_le

/-! ### Lists -/

/-- `ObUndoStatusList` with its nodes, from `head_` on along `next_`. -/
structure UndoStatusNodes where
  nodes : List ObUndoStatusNode
  undoNodeCnt : ℤ

namespace UndoStatusNodes

/-- The list of a constructor call. -/
def empty : UndoStatusNodes := ⟨[], 0⟩

/-- The actions in the order in which the nodes are searched. -/
def actions (l : UndoStatusNodes) : ObUndoStatusList := l.nodes.flatMap (·.undoActions)

/-- `ObUndoStatusList::is_contain_`. -/
def isContain (l : UndoStatusNodes) (seqNo : ObTxSEQ) : Bool :=
  l.nodes.any fun node => node.undoActions.any (·.isContain seqNo)

end UndoStatusNodes

/-- `ObTxData::merge_undo_actions_`, which frees the nodes that become empty. -/
def mergeUndoActions (undoNodeCnt : ℤ) (new : ObUndoAction) :
    List ObUndoStatusNode → ObResult Unit × UndoStatusNodes × ObUndoAction
  | [] => (.ok (), ⟨[], undoNodeCnt⟩, new)
  | node :: rest =>
    let new' := (mergeLoop new node.undoActions.reverse).2
    if (node.merge new).undoActions.length = 0 then
      if undoNodeCnt ≤ 0 then (.error .errUnexpected, ⟨rest, undoNodeCnt⟩, new')
      else mergeUndoActions (undoNodeCnt - 1) new' rest
    else (.ok (), ⟨node.merge new :: rest, undoNodeCnt⟩, new')

/-- A call of `add_undo_action`. -/
structure UndoCall where
  action : ObUndoAction
  undoNode : Bool
  alloc : Bool

/-- The end of `add_undo_action`, where the new action goes into the head node or a new one. -/
def insertUndoAction (l : UndoStatusNodes) (new : ObUndoAction) (undoNode alloc : Bool) :
    ObResult Unit × UndoStatusNodes × Bool :=
  match l.nodes with
  | [] => newNode l
  | node :: rest =>
    if h : node.undoActions.length < txDataUndoActMaxNumPerNode then
      (.ok (), { l with nodes := node.push new h :: rest }, undoNode)
    else newNode l
where
  /-- `new_node` becomes the head. -/
  newNode (l : UndoStatusNodes) : ObResult Unit × UndoStatusNodes × Bool :=
    if undoNode || alloc then
      (.ok (), ⟨ObUndoStatusNode.empty.push new (by decide) :: l.nodes, l.undoNodeCnt + 1⟩, false)
    else (.error .allocateMemoryFailed, l, undoNode)

/-- `ObTxData::add_undo_action`. -/
def addUndoAction (l : UndoStatusNodes) (c : UndoCall) : ObResult Unit × UndoStatusNodes × Bool :=
  match mergeUndoActions l.undoNodeCnt c.action l.nodes with
  | (.error e, l, _) => (.error e, l, c.undoNode)
  | (.ok (), l, new) =>
    -- an action that was merged into an older one is not valid any more
    if !new.isValid then (.ok (), l, c.undoNode)
    else insertUndoAction l new c.undoNode c.alloc

end Andl.Storage
