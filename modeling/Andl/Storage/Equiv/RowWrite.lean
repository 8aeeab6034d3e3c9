import Andl.Storage.Equiv.MvccRow
import Andl.Storage.RowWrite

/-!
# A failed write leaves no trace
-/

namespace Andl.Storage.ObMvccRow

open List

variable {δ : Type} {r : ObMvccRow δ} {n : ObMvccTransNode δ}

/-! ### Cleanouts -/

/-- What a cleanout makes of a row and a node. -/
inductive CleanedOut (d : ObTxDataCheckData) (r : ObMvccRow δ) (n : ObMvccTransNode δ) :
    ObMvccRow δ × ObMvccTransNode δ → Prop
  | unchanged : CleanedOut d r n (r, n)
  | aborted {r' : ObMvccRow δ} (hunlink : r.unlinkTransNode n = .ok r') :
    CleanedOut d r n (r', n.transAbort)
  | committed {rc : ObMvccRow δ} (hstate : d.state = .commit)
    (hcommit : r.transCommit d.commitVersion n = .ok rc) :
    CleanedOut d r n (rc.setNode (n.transCommit d.commitVersion), n.transCommit d.commitVersion)
  | unlinked {rc r' : ObMvccRow δ} (hstate : d.state = .commit)
    (hcommit : r.transCommit d.commitVersion n = .ok rc)
    (hunlink : (rc.setNode (n.transCommit d.commitVersion)).unlinkTransNode
      (n.transCommit d.commitVersion) = .ok r') :
    CleanedOut d r n (r', n.transCommit d.commitVersion)

theorem cleanedOut_abort (d : ObTxDataCheckData) (r : ObMvccRow δ) (n : ObMvccTransNode δ) :
    CleanedOut d r n (match r.unlinkTransNode n with
      | .error _ => (r, n)
      | .ok r => (r, n.transAbort)) := by
  cases hunlink : r.unlinkTransNode n with
  | error e => exact .unchanged
  | ok r' => exact .aborted hunlink

theorem cleanedOut_cleanoutTxNodeOperation (d : ObTxDataCheckData) (r : ObMvccRow δ)
    (n : ObMvccTransNode δ) : CleanedOut d r n (cleanoutTxNodeOperation d r n) := by
  have habort := cleanedOut_abort d r n
  unfold cleanoutTxNodeOperation
  dsimp only
  by_cases hrunning : (d.state = .running && !d.isRollback) = true
  · rw [if_pos hrunning]
    exact .unchanged
  rw [if_neg hrunning]
  by_cases hneed : n.needCleanout = true
  swap
  · rw [if_neg hneed]
    exact .unchanged
  rw [if_pos hneed]
  by_cases hrollback : d.isRollback = true
  · rw [if_pos hrollback]
    exact habort
  rw [if_neg hrollback]
  cases hstate : d.state with
  | running => exact .unchanged
  | elrCommit => exact .unchanged
  | abort => exact habort
  | commit =>
    dsimp only
    cases hcommit : r.transCommit d.commitVersion n with
    | error e => exact .unchanged
    | ok rc =>
      dsimp only
      split_ifs with hlock
      · cases hunlink : (rc.setNode (n.transCommit d.commitVersion)).unlinkTransNode
          (n.transCommit d.commitVersion) with
        | error e => exact .committed hstate hcommit
        | ok r' => exact .unlinked hstate hcommit hunlink
      · exact .committed hstate hcommit

/-- The addresses of the nodes on the list. -/
def addrs (r : ObMvccRow δ) : List ℕ := r.nodes.map (·.addr)

theorem addrs_setNode (r : ObMvccRow δ) (n : ObMvccTransNode δ) :
    (r.setNode n).addrs = r.addrs := by
  unfold addrs setNode
  rw [map_map]
  refine map_congr_left fun m _ => ?_
  dsimp only [Function.comp_apply]
  split_ifs with haddr
  · exact haddr.symm
  · rfl

theorem addrs_unlinkTransNode {r' : ObMvccRow δ} (h : r.unlinkTransNode n = .ok r') :
    r'.addrs ⊆ r.addrs := by
  rw [unlinkTransNode] at h
  split_ifs at h
  cases h
  exact (filter_sublist.map _).subset

theorem addrs_transCommit {rc : ObMvccRow δ} {v : SCN} (h : r.transCommit v n = .ok rc) :
    rc.addrs = r.addrs := by
  rw [transCommit] at h
  split_ifs at h
  cases h
  rw [addrs, addrs]
  exact congrArg _ (nodes_updateDmlFlag _ _)

/-- A cleanout does not link nodes. -/
theorem CleanedOut.addrs_subset {d : ObTxDataCheckData} {out : ObMvccRow δ × ObMvccTransNode δ}
    (h : CleanedOut d r n out) : out.1.addrs ⊆ r.addrs := by
  cases h with
  | unchanged => exact List.Subset.refl _
  | aborted hunlink => exact addrs_unlinkTransNode hunlink
  | committed _ hcommit =>
    rw [addrs_setNode, addrs_transCommit hcommit]
    exact List.Subset.refl _
  | unlinked _ hcommit hunlink =>
    have hsubset := addrs_unlinkTransNode hunlink
    rwa [addrs_setNode, addrs_transCommit hcommit] at hsubset

section Cleanouts

variable {check : ObTransID → ObTxSEQ → ObResult ObTxDataCheckData}

theorem cleanedOut_of_cleanoutWith {out : ObMvccRow δ × ObMvccTransNode δ}
    (h : r.cleanoutWith check n = .ok out) :
    out = (r, n) ∨ ∃ d, check n.txId n.seqNo = .ok d ∧ CleanedOut d r n out := by
  rw [cleanoutWith] at h
  split_ifs at h with hneed
  · cases hcheck : check n.txId n.seqNo with
    | error e =>
      rw [hcheck] at h
      cases h
    | ok d =>
      rw [hcheck] at h
      cases h
      exact .inr ⟨d, rfl, cleanedOut_cleanoutTxNodeOperation d r n⟩
  · cases h
    exact .inl rfl

/-- The cleanouts of some nodes and nothing else, up to the first one that fails. -/
def cleanoutNodes (check : ObTransID → ObTxSEQ → ObResult ObTxDataCheckData) (r : ObMvccRow δ) :
    List (ObMvccTransNode δ) → ObMvccRow δ
  | [] => r
  | n :: ns =>
    match r.cleanoutWith check n with
    | .ok (r, _) => cleanoutNodes check r ns
    | .error _ => r

theorem addrs_cleanoutNodes (ns : List (ObMvccTransNode δ)) :
    (r.cleanoutNodes check ns).addrs ⊆ r.addrs := by
  induction ns generalizing r with
  | nil => exact List.Subset.refl _
  | cons n ns ih =>
    rw [cleanoutNodes]
    cases hclean : r.cleanoutWith check n with
    | error e => exact List.Subset.refl _
    | ok out =>
      rcases cleanedOut_of_cleanoutWith hclean with rfl | ⟨d, -, hout⟩
      · exact ih
      · exact List.Subset.trans ih hout.addrs_subset

end Cleanouts

/-! ### The loop -/

section Loop

variable (ctx : WriteAccessCtx δ)

/-- How many nodes the loop of `mvcc_write_` looks at. -/
def walkLength (filter : Option (ObMvccRowFilter δ)) (r : ObMvccRow δ)
    (read : List (ObMvccTransNode δ)) : List (ObMvccTransNode δ) → ℕ
  | [] => 0
  | n :: prevs =>
    match r.cleanoutWith ctx.txTableGuards.txTableGuard.checkWithTxData n with
    | .error _ => 1
    | .ok (r, n) =>
      if n.isCommitted || n.isElr then
        match checkFilter filter read n with
        | .ok (false, _) => walkLength filter r (read ++ [n]) prevs + 1
        | _ => 1
      else if n.isAborted then walkLength filter r read prevs + 1
      else 1

/-- **The loop of a write** only cleans out the nodes it looks at. -/
theorem mvccWriteLoop_row (filter : Option (ObMvccRowFilter δ)) (isLockNode : Bool)
    (r : ObMvccRow δ) (res : ObMvccWriteResult) (read iter : List (ObMvccTransNode δ)) :
    (r.mvccWriteLoop ctx filter isLockNode res read iter).2.1 =
      r.cleanoutNodes ctx.txTableGuards.txTableGuard.checkWithTxData
        (iter.take (r.walkLength ctx filter read iter)) := by
  induction iter generalizing r read with
  | nil => rfl
  | cons n prevs ih =>
    rw [mvccWriteLoop, walkLength]
    cases hclean : r.cleanoutWith ctx.txTableGuards.txTableGuard.checkWithTxData n with
    | error e => rw [take_succ_cons, cleanoutNodes, hclean]
    | ok out =>
      obtain ⟨r', n'⟩ := out
      dsimp only
      split_ifs with hdecided haborted hown
      · cases hfilter : checkFilter filter read n' with
        | error e => rw [take_succ_cons, cleanoutNodes, hclean]; rfl
        | ok cf =>
          obtain ⟨complete, filtered⟩ := cf
          cases complete with
          | true => rw [take_succ_cons, cleanoutNodes, hclean]; rfl
          | false =>
            rw [take_succ_cons, cleanoutNodes, hclean]
            exact ih r' (read ++ [n'])
      · rw [take_succ_cons, cleanoutNodes, hclean]
        exact ih r' read
      · rw [take_succ_cons, cleanoutNodes, hclean]; rfl
      · rw [take_succ_cons, cleanoutNodes, hclean]; rfl

theorem mvccWriteLoop_res (filter : Option (ObMvccRowFilter δ)) (isLockNode : Bool)
    (r : ObMvccRow δ) (res : ObMvccWriteResult) (read iter : List (ObMvccTransNode δ)) :
    let out := r.mvccWriteLoop ctx filter isLockNode res read iter
    out.2.2.1.isMvccUndo = res.isMvccUndo ∧ out.2.2.1.txNode = res.txNode ∧
      ∀ e, out.1 = .error e → out.2.2.1 = res := by
  induction iter generalizing r read with
  | nil => exact ⟨rfl, rfl, fun e he => by cases he⟩
  | cons n prevs ih =>
    rw [mvccWriteLoop]
    cases hclean : r.cleanoutWith ctx.txTableGuards.txTableGuard.checkWithTxData n with
    | error e => exact ⟨rfl, rfl, fun _ _ => rfl⟩
    | ok out =>
      obtain ⟨r', n'⟩ := out
      dsimp only
      split_ifs with hdecided haborted hown
      · cases hfilter : checkFilter filter read n' with
        | error e => exact ⟨rfl, rfl, fun _ _ => rfl⟩
        | ok cf =>
          obtain ⟨complete, filtered⟩ := cf
          cases complete with
          | true => exact ⟨rfl, rfl, fun e he => by cases he⟩
          | false => exact ih r' (read ++ [n'])
      · exact ih r' read
      · exact ⟨rfl, rfl, fun e he => by cases he⟩
      · exact ⟨rfl, rfl, fun e he => by cases he⟩

end Loop

/-! ### The insertion -/

theorem mvccUndo_linkNode (r : ObMvccRow δ) (node : ObMvccTransNode δ) :
    (r.linkNode node).mvccUndo = r := by
  simp only [linkNode, mvccUndo, Int.add_sub_cancel]

/-- What `mvcc_write_` can do, given the row after its cleanouts. -/
inductive Inserted (cleaned : ObMvccRow δ) (node : ObMvccTransNode δ) : Written δ → Prop
  | failed {e : ObError} {res : ObMvccWriteResult} (hinsert : res.hasInsert = false)
    (htxNode : res.txNode = none) : Inserted cleaned node (.error e, cleaned, res)
  | skipped {res : ObMvccWriteResult} (hinsert : res.hasInsert = false)
    (htxNode : res.txNode = none) : Inserted cleaned node (.ok (), cleaned, res)
  | linked {res : ObMvccWriteResult} (hinsert : res.hasInsert = true)
    (htxNode : res.txNode = some node.addr) :
    Inserted cleaned node (.ok (), cleaned.linkNode node, res)

theorem inserted_insertNode (ctx : WriteAccessCtx δ) (r : ObMvccRow δ) (node : ObMvccTransNode δ)
    {res : ObMvccWriteResult} (hundo : res.isMvccUndo = false) (htxNode : res.txNode = none)
    (iter : Option (ObMvccTransNode δ)) : Inserted r node (r.insertNode ctx node res iter) := by
  unfold insertNode
  by_cases hinsert : (res.canInsert && res.needInsert) = true
  swap
  · rw [if_neg hinsert]
    exact .skipped (by rw [ObMvccWriteResult.hasInsert, Bool.eq_false_of_not_eq_true hinsert,
      Bool.false_and]) htxNode
  rw [if_pos hinsert]
  cases iter with
  | none => exact .linked (by simp [ObMvccWriteResult.hasInsert, hinsert, hundo]) rfl
  | some n =>
    dsimp only
    rw [checkPosition]
    cases checkSequenceSetViolation ctx.writeFlag ctx.readerSeqNo ctx.txId node.dmlFlag node.seqNo
      n.txId n.dmlFlag n.seqNo with
    | error e => exact .failed (Bool.and_false _) htxNode
    | ok u =>
      dsimp only
      cases mvccSanityCheck ctx.snapshotVersion ctx.writeFlag node n with
      | error e => exact .failed (Bool.and_false _) htxNode
      | ok u => exact .linked (by simp [ObMvccWriteResult.hasInsert, hinsert, hundo]) rfl

variable (ctx : WriteAccessCtx δ)

/-- How many nodes `mvcc_write` looks at. -/
def writeWalkLength (r : ObMvccRow δ) : ℕ :=
  if r.hasNewerVersion ctx.snapshotVersion then 0
  else
    match ctx.mdsFilter with
    | some (.error _) => 0
    | some (.ok filter) => r.walkLength ctx (some filter) [] r.nodes
    | none => r.walkLength ctx none [] r.nodes

/-- The row after the cleanouts of a write, and nothing else. -/
def cleanedOut (r : ObMvccRow δ) : ObMvccRow δ :=
  r.cleanoutNodes ctx.txTableGuards.txTableGuard.checkWithTxData
    (r.nodes.take (r.writeWalkLength ctx))

theorem inserted_walk (r : ObMvccRow δ) (node : ObMvccTransNode δ)
    (filter : Option (ObMvccRowFilter δ)) :
    Inserted (r.cleanoutNodes ctx.txTableGuards.txTableGuard.checkWithTxData
      (r.nodes.take (r.walkLength ctx filter [] r.nodes))) node
      (mvccWriteInnerWith.walk ctx r node filter) := by
  have hrow := mvccWriteLoop_row ctx filter node.isLockNode r {} [] r.nodes
  obtain ⟨hundo, htxNode, hfail⟩ := mvccWriteLoop_res ctx filter node.isLockNode r {} [] r.nodes
  rw [mvccWriteInnerWith.walk, ← hrow]
  generalize r.mvccWriteLoop ctx filter node.isLockNode {} [] r.nodes = out at hundo htxNode hfail
  obtain ⟨ret, r', res, iter⟩ := out
  cases ret with
  | error e =>
    obtain rfl : res = {} := hfail e rfl
    exact .failed rfl rfl
  | ok u => exact inserted_insertNode ctx r' node hundo htxNode iter

theorem mvccWriteInnerWith_cases (r : ObMvccRow δ) (node : ObMvccTransNode δ)
    (hold : r.hasNewerVersion ctx.snapshotVersion = false) :
    Inserted (r.cleanedOut ctx) node (r.mvccWriteInnerWith ctx node) := by
  rw [cleanedOut, writeWalkLength, hold, if_neg Bool.false_ne_true, mvccWriteInnerWith]
  rcases ctx.mdsFilter with _ | (e | filter)
  · exact inserted_walk ctx r node none
  · exact .failed rfl rfl
  · exact inserted_walk ctx r node (some filter)

/-- Taking back what was inserted leaves the cleanouts only. -/
theorem undoInsert_of_inserted {cleaned : ObMvccRow δ} {node : ObMvccTransNode δ} {u : Unit}
    {res : ObMvccWriteResult} (h : Inserted cleaned node (.ok u, r, res)) (e : ObError) :
    ∃ res', undoInsert e r res = (.error e, cleaned, res') ∧ res'.hasInsert = false ∧
      (res'.txNode = none ∨ res'.txNode = some node.addr) := by
  rw [undoInsert]
  cases h with
  | skipped hinsert htxNode =>
    exact ⟨res, by rw [hinsert, if_neg Bool.false_ne_true], hinsert, .inl htxNode⟩
  | linked hinsert htxNode =>
    refine ⟨{ res with isMvccUndo := true }, ?_, Bool.and_false _, .inr htxNode⟩
    rw [hinsert, if_pos rfl, mvccUndo_linkNode]

/-- **A failed write leaves no trace**: whatever the error, the row is the one after the cleanouts
of the walk, the node is not on its list, and it is not reported as inserted. -/
theorem mvccWriteWith_error {r : ObMvccRow δ} {node : ObMvccTransNode δ} {checkExist : Bool}
    {e : ObError} (hnew : node.addr ∉ r.addrs)
    (herror : (r.mvccWriteWith ctx node checkExist).1 = .error e) :
    let (_, r', res) := r.mvccWriteWith ctx node checkExist
    r' = r.cleanedOut ctx ∧ node.addr ∉ r'.addrs ∧ res.hasInsert = false ∧
      (res.txNode = none ∨ res.txNode = some node.addr) := by
  suffices h : ∃ res, r.mvccWriteWith ctx node checkExist = (.error e, r.cleanedOut ctx, res) ∧
      res.hasInsert = false ∧ (res.txNode = none ∨ res.txNode = some node.addr) by
    obtain ⟨res, heq, hinsert, htxNode⟩ := h
    rw [heq]
    exact ⟨rfl, fun hmem => hnew (addrs_cleanoutNodes _ hmem), hinsert, htxNode⟩
  rw [mvccWriteWith] at herror ⊢
  by_cases hnewer : r.hasNewerVersion ctx.snapshotVersion = true
  · rw [if_pos hnewer] at herror ⊢
    cases herror
    refine ⟨{}, ?_, rfl, .inl rfl⟩
    rw [cleanedOut, writeWalkLength, if_pos hnewer, take_zero, cleanoutNodes]
  rw [if_neg hnewer] at herror ⊢
  have hcases := mvccWriteInnerWith_cases ctx r node (Bool.eq_false_of_not_eq_true hnewer)
  generalize r.mvccWriteInnerWith ctx node = out at hcases herror
  obtain ⟨ret, r', res⟩ := out
  cases ret with
  | error e' =>
    cases herror
    cases hcases with
    | failed hinsert htxNode => exact ⟨res, rfl, hinsert, .inl htxNode⟩
  | ok u =>
    dsimp only at herror ⊢
    split_ifs at herror ⊢ with hconflict hviolation hexist
    · -- the conflict is reported without an insertion
      cases herror
      rw [Bool.not_eq_true'] at hconflict
      cases hcases with
      | skipped hinsert htxNode => exact ⟨res, rfl, hinsert, .inl htxNode⟩
      | linked hinsert htxNode =>
        rw [ObMvccWriteResult.hasInsert, hconflict] at hinsert
        cases hinsert
    · obtain ⟨res', heq, hres'⟩ := undoInsert_of_inserted hcases .transactionSetViolation
      rw [heq] at herror ⊢
      cases herror
      exact ⟨res', rfl, hres'⟩
    · obtain ⟨res', heq, hres'⟩ := undoInsert_of_inserted hcases .errPrimaryKeyDuplicate
      rw [heq] at herror ⊢
      cases herror
      exact ⟨res', rfl, hres'⟩

/-- A node for samples. -/
def sampleNode (addr : ℕ) (txId : ObTransID) (transVersion : SCN) (flag : NodeFlag)
    (dmlFlag : ObDmlFlag) : ObMvccTransNode ℕ where
  addr := addr
  txId := txId
  transVersion := transVersion
  scn := transVersion
  seqNo := ⟨txId + 1⟩
  writeEpoch := 0
  type := .normal
  flag := flag
  dmlFlag := dmlFlag
  row := []

/-- A context for samples: transaction 7, which does not know any other transaction. -/
def sampleCtx : WriteAccessCtx ℕ where
  txId := 7
  snapshotVersion := .minScn
  readerSeqNo := ⟨9⟩
  writeFlag := {}
  txTableGuards := { txTableGuard := fun _ => .error .transCtxNotExist }

/-- A row that transaction 3 updated. -/
def sampleRow : ObMvccRow ℕ :=
  { (reset : ObMvccRow ℕ) with
    nodes := [sampleNode 1 3 .minScn { committed := true } .update], totalTransNodeCnt := 1 }

theorem mvccWriteWith_error_duplicate :
    let (ret, r', res) :=
      sampleRow.mvccWriteWith sampleCtx (sampleNode 2 7 .maxScn {} .update) true
    ret = .error .errPrimaryKeyDuplicate ∧ r' = sampleRow.cleanedOut sampleCtx ∧
      res.hasInsert = false ∧ res.txNode = some 2 := by
  have h := mvccWriteWith_error sampleCtx
    (show (sampleNode 2 7 .maxScn {} .update).addr ∉ sampleRow.addrs by decide)
    (show (sampleRow.mvccWriteWith sampleCtx (sampleNode 2 7 .maxScn {} .update) true).1 =
      .error .errPrimaryKeyDuplicate from rfl)
  exact ⟨rfl, h.1, h.2.2.1, rfl⟩

/-! ### Without a filter and with a complete transaction table -/

/-- The context of `mvccWrite`. -/
def plainCtx (δ : Type) (ctx : ObStoreCtx) : WriteAccessCtx δ where
  txId := ctx.txId
  snapshotVersion := ctx.snapshotVersion
  readerSeqNo := ctx.readerSeqNo
  writeFlag := ctx.writeFlag
  txTableGuards := { txTableGuard := fun txId => .ok (ctx.txTable txId) }

theorem cleanoutWith_plain (ctx : ObStoreCtx) (r : ObMvccRow δ) (n : ObMvccTransNode δ) :
    r.cleanoutWith (plainCtx δ ctx).txTableGuards.txTableGuard.checkWithTxData n =
      .ok (r.cleanoutTxNode ctx.txTable n) := by
  rw [cleanoutWith, cleanoutTxNode]
  split_ifs with hneed
  · rfl
  · rfl

theorem mvccWriteLoop_plain (ctx : ObStoreCtx) (isLockNode : Bool) (r : ObMvccRow δ)
    (res : ObMvccWriteResult) (read iter : List (ObMvccTransNode δ)) :
    r.mvccWriteLoop (plainCtx δ ctx) none isLockNode res read iter =
      (.ok (), r.findWritePos ctx isLockNode res iter) := by
  induction iter generalizing r with
  | nil => rfl
  | cons n prevs ih =>
    rw [mvccWriteLoop, cleanoutWith_plain, findWritePos]
    dsimp only
    rw [show (plainCtx δ ctx).txId = ctx.txId from rfl]
    split_ifs with hdecided haborted hown
    · rfl
    · exact ih _
    · rfl
    · rfl

theorem mvccWriteInnerWith_plain (ctx : ObStoreCtx) (r : ObMvccRow δ) (node : ObMvccTransNode δ) :
    r.mvccWriteInnerWith (plainCtx δ ctx) node = r.mvccWriteInner ctx node := by
  show mvccWriteInnerWith.walk (plainCtx δ ctx) r node none = _
  rw [mvccWriteInnerWith.walk, mvccWriteLoop_plain, mvccWriteInner]
  generalize r.findWritePos ctx node.isLockNode {} r.nodes = out
  obtain ⟨r', res, iter⟩ := out
  dsimp only
  unfold insertNode
  split_ifs with hinsert
  swap
  · rfl
  cases iter with
  | none => rfl
  | some n =>
    dsimp only
    rw [checkPosition]
    dsimp only [plainCtx]
    cases checkSequenceSetViolation ctx.writeFlag ctx.readerSeqNo ctx.txId node.dmlFlag node.seqNo
      n.txId n.dmlFlag n.seqNo with
    | error e => rfl
    | ok u =>
      dsimp only
      cases mvccSanityCheck ctx.snapshotVersion ctx.writeFlag node n with
      | error e => rfl
      | ok u => rfl

/-- **`mvccWrite` is the case** without a filter and with a complete transaction table. -/
theorem mvccWriteWith_eq (ctx : ObStoreCtx) (r : ObMvccRow δ) (node : ObMvccTransNode δ)
    (checkExist : Bool) :
    r.mvccWriteWith (plainCtx δ ctx) node checkExist = r.mvccWrite ctx node checkExist := by
  rw [mvccWriteWith, mvccWrite,
    show (plainCtx δ ctx).snapshotVersion = ctx.snapshotVersion from rfl]
  by_cases hnewer : r.hasNewerVersion ctx.snapshotVersion = true
  · rw [if_pos hnewer, if_pos hnewer]
  rw [if_neg hnewer, if_neg hnewer]
  have hcases := mvccWriteInnerWith_cases (plainCtx δ ctx) r node
    (Bool.eq_false_of_not_eq_true hnewer)
  rw [mvccWriteInnerWith_plain] at hcases ⊢
  generalize r.mvccWriteInner ctx node = out at hcases
  obtain ⟨ret, r', res⟩ := out
  cases ret with
  | error e => rfl
  | ok u =>
    have hundo (e : ObError) : undoInsert e r' res = undoInserted e r' res := by
      rw [undoInsert, undoInserted]
      cases hcases with
      | skipped hinsert htxNode => rw [hinsert, htxNode]; rfl
      | linked hinsert htxNode => rw [hinsert, htxNode]; rfl
    dsimp only
    rw [hundo, hundo]

end Andl.Storage.ObMvccRow
