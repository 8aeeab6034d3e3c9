import Andl.Share.Scn

/-!
# Transaction data

What the transaction table knows about a transaction: its state, its commit version, and the undo
actions that say which of its writes were rolled back to a savepoint.
-/

namespace Andl.Storage

/-- `ObTransID`. -/
abbrev ObTransID := Nat

/-! ### Sequence numbers -/

/-- `ObTxSEQ`, by its `raw_val_`. -/
structure ObTxSEQ where
  rawVal : Nat
deriving DecidableEq

namespace ObTxSEQ

/-- The bit field `branch_` of the new format. -/
def branchBits (s : ObTxSEQ) : Nat := s.rawVal % 2 ^ 15

/-- The bit field `seq_` of the new format. -/
def seqBits (s : ObTxSEQ) : Nat := s.rawVal / 2 ^ 15 % 2 ^ 47

/-- The bit field `n_format_`. -/
def nFormat (s : ObTxSEQ) : Bool := s.rawVal / 2 ^ 62 % 2 = 1

/-- The bit field `seq_v0_` of the old format. -/
def seqV0 (s : ObTxSEQ) : Nat := s.rawVal % 2 ^ 62

/-- `ObTxSEQ::operator>`: the format of the left side decides. -/
def gt (a b : ObTxSEQ) : Bool :=
  if a.nFormat then a.seqBits > b.seqBits else a.seqV0 > b.seqV0

/-- `ObTxSEQ::operator>=`. -/
def ge (a b : ObTxSEQ) : Bool :=
  gt a b || (if a.nFormat then a.seqBits = b.seqBits else a.seqV0 = b.seqV0)

/-- `ObTxSEQ::operator<`. -/
def lt (a b : ObTxSEQ) : Bool := gt b a

/-- `ObTxSEQ::operator<=`. -/
def le (a b : ObTxSEQ) : Bool := ge b a

/-- `ObTxSEQ::support_branch`. -/
def supportBranch (s : ObTxSEQ) : Bool := s.nFormat

/-- `ObTxSEQ::get_seq`. -/
def getSeq (s : ObTxSEQ) : Nat := if s.nFormat then s.seqBits else s.seqV0

/-- `ObTxSEQ::get_branch`. -/
def getBranch (s : ObTxSEQ) : Nat := if s.nFormat then s.branchBits else 0

end ObTxSEQ

/-! ### Undo actions -/

/-- `ObUndoAction`: the writes after `undoTo`, up to `undoFrom`. -/
structure ObUndoAction where
  undoFrom : ObTxSEQ
  undoTo : ObTxSEQ

/-- `ObUndoAction::is_contain`. -/
def ObUndoAction.isContain (u : ObUndoAction) (seqNo : ObTxSEQ) : Bool :=
  (u.undoTo.getBranch = 0 || u.undoTo.getBranch = seqNo.getBranch) &&
    seqNo.getSeq > u.undoTo.getSeq && seqNo.getSeq ≤ u.undoFrom.getSeq

/-- `ObUndoStatusList`: the actions of its nodes, in order. -/
abbrev ObUndoStatusList := List ObUndoAction

/-- `ObUndoStatusList::is_contain_`. -/
def ObUndoStatusList.isContain (l : ObUndoStatusList) (seqNo : ObTxSEQ) : Bool :=
  l.any (·.isContain seqNo)

/-! ### Transaction data -/

/-- `ObTxData::TxDataState`. -/
inductive TxDataState where
  | running
  | commit
  | elrCommit
  | abort
deriving DecidableEq

/-- `ObTxData`. -/
structure ObTxData where
  state : TxDataState
  commitVersion : SCN
  undoStatusList : ObUndoStatusList

/-- `ObTxDataCheckData`: what a check of the transaction data says about one write. -/
structure ObTxDataCheckData where
  state : TxDataState
  commitVersion : SCN
  isRollback : Bool

/-- `CleanoutTxStateFunctor::operator()`. -/
def ObTxData.checkData (d : ObTxData) (seqNo : ObTxSEQ) : ObTxDataCheckData :=
  ⟨d.state, d.commitVersion, d.undoStatusList.isContain seqNo⟩

/-- The transaction table. -/
abbrev ObTxTable := ObTransID → ObTxData

end Andl.Storage
