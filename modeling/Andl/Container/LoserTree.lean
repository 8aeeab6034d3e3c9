import Andl.Common.Member

/-!
# Loser trees

`ObLoserTree` of `oblib/container`: a tournament tree over at most `playerCnt` players.
-/

namespace Andl

/-- `ObLoserTree::ReplayType`. -/
inductive ReplayType where
  | noChange
  | loserChange
  | winnerChange
  | bothChange
deriving DecidableEq, Repr

/-- `ObLoserTree::MatchResult`. -/
structure MatchResult where
  winnerIdx : Option ℕ
  loserIdx : Option ℕ
  isDraw : Bool
  replay : ReplayType
deriving DecidableEq, Repr

namespace MatchResult

/-- `MatchResult::reset`. -/
def reset : MatchResult :=
  { winnerIdx := none, loserIdx := none, isDraw := false, replay := .noChange }

/-- `MatchResult::set_replay_type`. -/
def setReplayType (m : MatchResult) (player : Option ℕ) : ObResult MatchResult :=
  if m.winnerIdx = none ∧ m.loserIdx = none then
    .ok { m with replay := .bothChange }
  else
    match m.replay with
    | .noChange =>
      if m.winnerIdx = player then
        .ok { m with replay := .winnerChange }
      else if m.loserIdx = player ∨ m.loserIdx = none then
        .ok { m with replay := .loserChange }
      else
        -- player mismatch
        .error .errUnexpected
    | .bothChange =>
      -- previous match not finish
      .error .errUnexpected
    | .winnerChange =>
      if m.winnerIdx = player then
        -- duplicated winner
        .error .errUnexpected
      else if m.loserIdx = player then
        .ok { m with replay := .bothChange }
      else
        .error .errUnexpected
    | .loserChange =>
      if m.loserIdx = player then
        -- duplicated loser
        .error .errUnexpected
      else if m.winnerIdx = player then
        .ok { m with replay := .bothChange }
      else
        .error .errUnexpected

end MatchResult

/-- `ObLoserTree`, without the comparator and the allocator. -/
structure ObLoserTree (T : Type) where
  playerCnt : ℕ
  leafOffset : ℕ
  players : ℕ → T
  matchResults : ℕ → MatchResult
  /-- The slots of players who have quit are the first `curFreeCnt` entries. -/
  freePlayers : ℕ → ℕ
  curFreeCnt : ℕ
  needRebuild : Bool
  isUniqueChampion : Bool

namespace ObLoserTree

variable {T : Type}

/-- `next_pow2`. -/
def nextPow2 (x : ℕ) : ℕ := if 1 < x then 2 ^ (Nat.log 2 (x - 1) + 1) else 1

/-- `ObLoserTree::get_match_cnt`. -/
def getMatchCnt (playerCnt : ℕ) : ℕ :=
  if playerCnt ≤ 1 then playerCnt else nextPow2 playerCnt * 2 - 1

/-- `ObLoserTree::get_parent`. -/
def getParent (index : ℕ) : ℕ := (index - 1) / 2

/-- `ObLoserTree::get_left`. -/
def getLeft (index : ℕ) : ℕ := 2 * index + 1

/-- `ObLoserTree::get_right`. -/
def getRight (index : ℕ) : ℕ := 2 * index + 2

/-- `ObLoserTree::init_basic_info` on a tree whose constructor has just run. -/
def initBasicInfo [Inhabited T] (totalPlayerCnt : ℕ) : ObResult (ObLoserTree T) :=
  if totalPlayerCnt = 0 then
    .error .invalidArgument
  else
    .ok
      { playerCnt := totalPlayerCnt
        leafOffset := (getMatchCnt totalPlayerCnt - 1) / 2
        players := fun _ => default
        matchResults := fun _ => .reset
        freePlayers := fun i => totalPlayerCnt - 1 - i
        curFreeCnt := totalPlayerCnt
        needRebuild := false
        isUniqueChampion := true }

/-- `ObLoserTree::is_single_player`. -/
def isSinglePlayer (t : ObLoserTree T) : Bool := t.playerCnt == 1

/-- `ObLoserTree::get_leaf`. -/
def getLeaf (t : ObLoserTree T) (playerIdx : ℕ) : ℕ := t.leafOffset + playerIdx

/-- `ObLoserTree::count`. -/
def count (t : ObLoserTree T) : ℕ := t.playerCnt - t.curFreeCnt

/-- `ObLoserTree::empty`. -/
def empty (t : ObLoserTree T) : Bool := t.playerCnt == t.curFreeCnt

/-- Writing `matches_[i]`. -/
def setMatch (t : ObLoserTree T) (i : ℕ) (m : MatchResult) : ObLoserTree T :=
  { t with matchResults := Function.update t.matchResults i m }

/-- The check of an index of `get_match_result`. -/
def outOfRange (t : ObLoserTree T) : Option ℕ → Bool
  | none => false
  | some i => t.playerCnt ≤ i

/-- `ObLoserTree::get_match_result`. -/
def getMatchResult (duel : ObLoserTree T → T → T → ℕ → ObResult (Bool × Bool))
    (t : ObLoserTree T) (offender defender : Option ℕ) (matchIdx : ℕ) :
    ObResult (ObLoserTree T) :=
  if t.outOfRange offender || t.outOfRange defender then
    .error .arrayOutOfRange
  else
    match offender, defender with
    | none, _ => .ok (t.setMatch matchIdx { t.matchResults matchIdx with
        winnerIdx := defender, loserIdx := offender, isDraw := false })
    | _, none => .ok (t.setMatch matchIdx { t.matchResults matchIdx with
        winnerIdx := offender, loserIdx := defender, isDraw := false })
    | some o, some d => do
      let (isDraw, isOffenderWin) ← duel t (t.players o) (t.players d) matchIdx
      return t.setMatch matchIdx { t.matchResults matchIdx with
        winnerIdx := if isOffenderWin then offender else defender
        loserIdx := if isOffenderWin then defender else offender
        isDraw := isDraw }

/-- The loop of `set_unique_champion`. -/
def drawOnPath (matchResults : ℕ → MatchResult) : ℕ → ℕ → Bool
  | 0, _ => false
  | fuel + 1, child =>
    if child = 0 then
      false
    else if (matchResults (getParent child)).isDraw then
      true
    else
      drawOnPath matchResults fuel (getParent child)

/-- The value that `set_unique_champion` finds. -/
def uniqueChampion (t : ObLoserTree T) : Bool :=
  match (t.matchResults 0).winnerIdx with
  | none => true
  | some champion =>
    if champion < t.playerCnt then
      !drawOnPath t.matchResults (t.getLeaf champion) (t.getLeaf champion)
    else
      true

/-- `ObLoserTree::set_unique_champion`. -/
def setUniqueChampion (t : ObLoserTree T) : ObLoserTree T :=
  { t with isUniqueChampion := t.uniqueChampion }

/-- What match `j`, played again, says to the next match in `inner_rebuild`. -/
def tellParent (t : ObLoserTree T) (j : ℕ) (oldWinner : Option ℕ) : ObResult (ObLoserTree T) :=
  if (t.matchResults j).replay = .loserChange ∧ oldWinner = (t.matchResults j).winnerIdx then
    -- loser still be loser, no need to change parent match
    .ok t
  else if 0 < j then do
    let m ← (t.matchResults (getParent j)).setReplayType oldWinner
    return t.setMatch (getParent j) m
  else
    .ok t

/-- One round of the loop of `inner_rebuild`. -/
def replayMatch (duel : ObLoserTree T → T → T → ℕ → ObResult (Bool × Bool))
    (t : ObLoserTree T) (j : ℕ) : ObResult (ObLoserTree T) :=
  let oldWinner := (t.matchResults j).winnerIdx
  if (t.matchResults j).replay = .noChange then
    .ok t
  else do
    let t ← t.getMatchResult duel (t.matchResults (getLeft j)).winnerIdx
      (t.matchResults (getRight j)).winnerIdx j
    let t ← t.tellParent j oldWinner
    return t.setMatch j { t.matchResults j with replay := .noChange }

/-- The loop of `inner_rebuild` over the matches below `j`. -/
def replayMatches (duel : ObLoserTree T → T → T → ℕ → ObResult (Bool × Bool)) :
    ℕ → ObLoserTree T → ObResult (ObLoserTree T)
  | 0, t => .ok t
  | j + 1, t => do
    let t ← t.replayMatch duel j
    replayMatches duel j t

/-- `ObLoserTree::inner_rebuild`. -/
def innerRebuild (duel : ObLoserTree T → T → T → ℕ → ObResult (Bool × Bool))
    (t : ObLoserTree T) : ObResult (ObLoserTree T) := do
  let t ← replayMatches duel t.leafOffset t
  return { t.setUniqueChampion with needRebuild := false }

/-- `ObLoserTree::rebuild`. -/
def rebuild (duel : ObLoserTree T → T → T → ℕ → ObResult (Bool × Bool)) (t : ObLoserTree T) :
    ObResult (ObLoserTree T) :=
  if t.isSinglePlayer then
    .ok { t with needRebuild := false }
  else if !t.needRebuild then
    .ok t
  else if t.empty then
    .error .emptyResult
  else
    t.innerRebuild duel

/-- The loop of `update_champion_path` from node `child` up. -/
def replayPath (duel : ObLoserTree T → T → T → ℕ → ObResult (Bool × Bool)) :
    ℕ → ℕ → ObLoserTree T → ObResult (ObLoserTree T)
  | 0, _, t => .ok t
  | fuel + 1, child, t =>
    if child = 0 then
      .ok t
    else
      let winnerIdx := (t.matchResults child).winnerIdx
      let loserIdx := (t.matchResults (getParent child)).loserIdx
      if winnerIdx = loserIdx ∧ winnerIdx ≠ none then
        -- candidate is not winner
        .error .errUnexpected
      else do
        let t ← t.getMatchResult duel winnerIdx loserIdx (getParent child)
        replayPath duel fuel (getParent child) t

/-- `ObLoserTree::update_champion_path`. -/
def updateChampionPath (duel : ObLoserTree T → T → T → ℕ → ObResult (Bool × Bool))
    (t : ObLoserTree T) (idx : ℕ) : ObResult (ObLoserTree T) :=
  let child := t.getLeaf idx
  replayPath duel child child
    (t.setMatch child { t.matchResults child with
      winnerIdx := none, loserIdx := none })

/-- `ObLoserTree::top`. -/
def top (t : ObLoserTree T) : ObResult T :=
  if t.needRebuild then
    .error .errUnexpected
  else if t.empty then
    .error .emptyResult
  else if t.isSinglePlayer then
    .ok (t.players 0)
  else
    match (t.matchResults 0).winnerIdx with
    | none => .error .errUnexpected
    | some champion =>
      if t.playerCnt ≤ champion then .error .errUnexpected else .ok (t.players champion)

/-- `ObLoserTree::push`. -/
def push (t : ObLoserTree T) (player : T) : ObResult (ObLoserTree T) :=
  if t.curFreeCnt = 0 then
    .error .sizeOverflow
  else if t.isSinglePlayer then
    .ok { t with
      players := Function.update t.players 0 player
      curFreeCnt := t.curFreeCnt - 1
      needRebuild := true }
  else do
    let idx := t.freePlayers (t.curFreeCnt - 1)
    let leaf := t.getLeaf idx
    let m ← (t.matchResults (getParent leaf)).setReplayType (some idx)
    let t := t.setMatch (getParent leaf) m
    let t := t.setMatch leaf { t.matchResults leaf with
      winnerIdx := some idx, loserIdx := some idx }
    return { t with
      players := Function.update t.players idx player
      curFreeCnt := t.curFreeCnt - 1
      needRebuild := true }

/-- `ObLoserTree::pop`. -/
def pop (duel : ObLoserTree T → T → T → ℕ → ObResult (Bool × Bool)) (t : ObLoserTree T) :
    ObResult (ObLoserTree T) :=
  if t.needRebuild then
    .error .errUnexpected
  else if t.empty then
    .error .emptyResult
  else if t.isSinglePlayer then
    .ok { t with curFreeCnt := t.playerCnt }
  else
    match (t.matchResults 0).winnerIdx with
    | none => .error .errUnexpected
    | some champion =>
      if t.playerCnt ≤ champion then
        .error .errUnexpected
      else do
        let t ← t.updateChampionPath duel champion
        let t := t.setUniqueChampion
        return { t with
          freePlayers := Function.update t.freePlayers t.curFreeCnt champion
          curFreeCnt := t.curFreeCnt + 1 }

end ObLoserTree

end Andl
