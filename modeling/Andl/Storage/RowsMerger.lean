import Andl.Container.LoserTree

/-!
# Row mergers

The two mergers that a scan of several tables gets its next row from: `ObMergeLoserTree`, a loser
tree that breaks ties by iterator and may keep one item, the king, outside of the tree, and
`ObSimpleRowsMerger`, a sorted array for at most three tables.
-/

namespace Andl

/-- The virtual functions of `ObRowsMerger` on mergers in `σ` for items in `T`. -/
structure ObRowsMerger (σ T : Type) where
  top : σ → ObResult T
  pop : σ → ObResult σ
  push : σ → T → ObResult σ
  pushTop : σ → T → ObResult σ
  rebuild : σ → ObResult σ
  count : σ → ℕ
  empty : σ → Bool
  isUniqueChampion : σ → Bool

/-- `ObScanMergeLoserTreeItem`. -/
structure ObScanMergeLoserTreeItem (ρ : Type) where
  row : ρ
  iterIdx : ℤ
  equalWithNext : Bool := false
deriving DecidableEq, Repr, Inhabited

/-- `ObMergeLoserTree`: the base class, and the king if `has_king_`. -/
structure ObMergeLoserTree (T : Type) where
  tree : ObLoserTree T
  king : Option T
  isKingEqChampion : Bool

namespace ObMergeLoserTree

variable {T κ : Type} [LinearOrder κ]

/-- `ObMergeLoserTree::duel`. -/
def duel (key : T → κ) (iterIdx : T → ℤ) (t : ObLoserTree T) (offender defender : T)
    (matchIdx : ℕ) : ObResult (Bool × Bool) :=
  if t.leafOffset ≤ matchIdx then
    .error .invalidArgument
  else if iterIdx offender = iterIdx defender then
    -- rows from same iterator
    .error .errUnexpected
  else
    let cmpRet := compare (key offender) (key defender)
    let isDraw := cmpRet == .eq
    let cmpRet :=
      if isDraw then (if iterIdx offender > iterIdx defender then .gt else .lt) else cmpRet
    .ok (isDraw, cmpRet == .lt)

/-- `ObMergeLoserTree::init`, after the allocation. -/
def init [Inhabited T] (playerCnt : ℕ) : ObResult (ObMergeLoserTree T) := do
  let tree ← ObLoserTree.initBasicInfo playerCnt
  return { tree := tree, king := none, isKingEqChampion := false }

/-- `ObMergeLoserTree::count`. -/
def count (t : ObMergeLoserTree T) : ℕ :=
  if t.king.isSome then t.tree.count + 1 else t.tree.count

/-- `ObMergeLoserTree::empty`. -/
def empty (t : ObMergeLoserTree T) : Bool := !t.king.isSome && t.tree.empty

/-- `ObMergeLoserTree::is_unique_champion`. -/
def isUniqueChampion (t : ObMergeLoserTree T) : Bool :=
  if t.king.isSome then !t.isKingEqChampion else t.tree.isUniqueChampion

/-- `ObMergeLoserTree::top`. -/
def top (t : ObMergeLoserTree T) : ObResult T :=
  match t.king with
  | some king => .ok king
  | none => t.tree.top

/-- `ObMergeLoserTree::pop`. -/
def pop (key : T → κ) (iterIdx : T → ℤ) (t : ObMergeLoserTree T) :
    ObResult (ObMergeLoserTree T) :=
  if t.tree.needRebuild then
    .error .errUnexpected
  else if t.king.isSome then
    .ok { t with king := none, isKingEqChampion := false }
  else do
    let tree ← t.tree.pop (duel key iterIdx)
    return { t with tree := tree }

/-- `ObMergeLoserTree::push`. -/
def push (t : ObMergeLoserTree T) (player : T) : ObResult (ObMergeLoserTree T) :=
  if t.king.isSome ∧ t.tree.curFreeCnt ≤ 1 then
    .error .sizeOverflow
  else do
    let tree ← t.tree.push player
    return { t with tree := tree }

/-- `ObMergeLoserTree::rebuild`. -/
def rebuild (key : T → κ) (iterIdx : T → ℤ) (t : ObMergeLoserTree T) :
    ObResult (ObMergeLoserTree T) :=
  if !t.tree.needRebuild then
    .ok t
  else if t.empty then
    .error .emptyResult
  else do
    let t ←
      match t.king with
      | some king => do
        let tree ← t.tree.push king
        pure { tree := tree, king := none, isKingEqChampion := false }
      | none => pure t
    let tree ← t.tree.rebuild (duel key iterIdx)
    return { t with tree := tree }

/-- The comparison of `push_top` between the champion and `player`. -/
def kingFor (key : T → κ) (iterIdx : T → ℤ) (champion player : T) : Option Bool :=
  match compare (key champion) (key player) with
  | .gt => some false
  | .eq => if iterIdx player < iterIdx champion then some true else none
  | .lt => none

/-- `ObMergeLoserTree::push_top`. -/
def pushTop (key : T → κ) (iterIdx : T → ℤ) (t : ObMergeLoserTree T) (player : T) :
    ObResult (ObMergeLoserTree T) :=
  if t.king.isSome then
    .error .errUnexpected
  else if t.tree.curFreeCnt = 0 then
    .error .sizeOverflow
  else if t.tree.needRebuild then
    .error .errUnexpected
  else if t.tree.count = 0 then
    .ok { t with king := some player, isKingEqChampion := false }
  else
    match (t.tree.matchResults 0).winnerIdx with
    | none => .error .errUnexpected
    | some champion =>
      if t.tree.playerCnt < champion then
        .error .errUnexpected
      else
        -- if left only one player, we can compare them by rebuild directly without trying
        match if t.tree.count > 1 then kingFor key iterIdx (t.tree.players champion) player
          else none with
        | some isEq => .ok { t with king := some player, isKingEqChampion := isEq }
        | none => do
          let tree ← t.tree.push player
          let tree ← tree.rebuild (duel key iterIdx)
          return { tree := tree, king := none, isKingEqChampion := false }

/-- `ObMergeLoserTree` as an `ObRowsMerger`. -/
def rowsMerger (key : T → κ) (iterIdx : T → ℤ) : ObRowsMerger (ObMergeLoserTree T) T where
  top := top
  pop := pop key iterIdx
  push := push
  pushTop := pushTop key iterIdx
  rebuild := rebuild key iterIdx
  count := count
  empty := empty
  isUniqueChampion := isUniqueChampion

end ObMergeLoserTree

/-- `ObSimpleRowsMerger`; the array has `USE_SIMPLE_MERGER_MAX_TABLE_CNT` cells. -/
structure ObSimpleRowsMerger (ρ : Type) where
  tableCnt : ℕ
  itemCnt : ℕ
  items : ℕ → ObScanMergeLoserTreeItem ρ

namespace ObSimpleRowsMerger

variable {ρ κ : Type} [LinearOrder κ]

/-- `ObSimpleRowsMerger::USE_SIMPLE_MERGER_MAX_TABLE_CNT`. -/
def useSimpleMergerMaxTableCnt : ℕ := 3

/-- `ObSimpleRowsMerger::init`, after the allocation. -/
def init [Inhabited ρ] (tableCnt : ℕ) : ObResult (ObSimpleRowsMerger ρ) :=
  if tableCnt = 0 then
    .error .invalidArgument
  else
    .ok { tableCnt := tableCnt, itemCnt := 0, items := fun _ => default }

/-- `ObSimpleRowsMerger::count`. -/
def count (m : ObSimpleRowsMerger ρ) : ℕ := m.itemCnt

/-- `ObSimpleRowsMerger::empty`. -/
def empty (m : ObSimpleRowsMerger ρ) : Bool := m.itemCnt == 0

/-- `ObSimpleRowsMerger::is_unique_champion`. -/
def isUniqueChampion (m : ObSimpleRowsMerger ρ) : Bool :=
  if m.empty then true else !(m.items 0).equalWithNext

/-- The loop of `push` over the items below `i`, with the array and `equal_with_next`. -/
def shiftItems (key : ρ → κ) (item : ObScanMergeLoserTreeItem ρ) :
    ℕ → (ℕ → ObScanMergeLoserTreeItem ρ) → Bool →
      (ℕ → ObScanMergeLoserTreeItem ρ) × ℕ × Bool
  | 0, items, equalWithNext => (items, 0, equalWithNext)
  | i + 1, items, equalWithNext =>
    match compare (key item.row) (key (items i).row) with
    | .lt => shiftItems key item i (Function.update items (i + 1) (items i)) equalWithNext
    | .eq =>
      if item.iterIdx < (items i).iterIdx then
        -- the iter_idx_ is smaller, so put the item before current item
        shiftItems key item i (Function.update items (i + 1) (items i)) true
      else
        -- the iter_idx_ is bigger, so put the item behind current item
        (Function.update items i { items i with equalWithNext := true }, i + 1, equalWithNext)
    | .gt => (items, i + 1, equalWithNext)

/-- `ObSimpleRowsMerger::push`. -/
def push (key : ρ → κ) (m : ObSimpleRowsMerger ρ) (item : ObScanMergeLoserTreeItem ρ) :
    ObResult (ObSimpleRowsMerger ρ) :=
  if m.itemCnt + 1 > m.tableCnt then
    .error .sizeOverflow
  else if m.itemCnt = 0 then
    .ok { m with items := Function.update m.items 0 item, itemCnt := m.itemCnt + 1 }
  else
    let (items, pos, equalWithNext) := shiftItems key item m.itemCnt m.items false
    let item := if equalWithNext then { item with equalWithNext := true } else item
    .ok { m with items := Function.update items pos item, itemCnt := m.itemCnt + 1 }

/-- `ObSimpleRowsMerger::push_top`. -/
def pushTop (key : ρ → κ) (m : ObSimpleRowsMerger ρ) (item : ObScanMergeLoserTreeItem ρ) :
    ObResult (ObSimpleRowsMerger ρ) :=
  m.push key item

/-- `ObSimpleRowsMerger::rebuild`. -/
def rebuild (m : ObSimpleRowsMerger ρ) : ObResult (ObSimpleRowsMerger ρ) := .ok m

/-- `ObSimpleRowsMerger::top`. -/
def top (m : ObSimpleRowsMerger ρ) : ObResult (ObScanMergeLoserTreeItem ρ) :=
  if m.empty then .error .emptyResult else .ok (m.items 0)

/-- `ObSimpleRowsMerger::pop`. -/
def pop (m : ObSimpleRowsMerger ρ) : ObResult (ObSimpleRowsMerger ρ) :=
  if m.empty then
    .error .emptyResult
  else
    .ok { m with
      items := fun i => if i < m.itemCnt - 1 then m.items (i + 1) else m.items i
      itemCnt := m.itemCnt - 1 }

/-- `ObSimpleRowsMerger` as an `ObRowsMerger`. -/
def rowsMerger (key : ρ → κ) :
    ObRowsMerger (ObSimpleRowsMerger ρ) (ObScanMergeLoserTreeItem ρ) where
  top := top
  pop := pop
  push := push key
  pushTop := pushTop key
  rebuild := rebuild
  count := count
  empty := empty
  isUniqueChampion := isUniqueChampion

end ObSimpleRowsMerger

end Andl
