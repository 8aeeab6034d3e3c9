import Andl.Storage.Equiv.RowWrite

/-!
# Lock checks and writes
-/

namespace Andl.Storage.ObMvccRow

variable {δ : Type} {r : ObMvccRow δ} {n : ObMvccTransNode δ}

/-! ### Both loops -/

/-- The tables of both log streams say the same as the one of the destination. -/
def Agree (guards : ObTxTableGuards) (nodes : List (ObMvccTransNode δ)) : Prop :=
  ∀ n ∈ nodes, n.needCleanout = true →
    guards.checkWithTxData n.txId n.seqNo = guards.txTableGuard.checkWithTxData n.txId n.seqNo

theorem Agree.of_no_source {guards : ObTxTableGuards} (h : guards.srcTxTableGuard = none)
    (nodes : List (ObMvccTransNode δ)) : Agree guards nodes := by
  intro n _ _
  rw [ObTxTableGuards.checkWithTxData, h]

theorem cleanoutWith_congr {check check' : ObTransID → ObTxSEQ → ObResult ObTxDataCheckData}
    (h : n.needCleanout = true → check n.txId n.seqNo = check' n.txId n.seqNo) :
    r.cleanoutWith check n = r.cleanoutWith check' n := by
  rw [cleanoutWith, cleanoutWith]
  split_ifs with hneed
  · rw [h hneed]
  · rfl

/-- Where the two loops stop: at an error, at a lock of another transaction, at an own one, or at a
decided node or the end. -/
inductive Stopped (ctx : WriteAccessCtx δ) (res : ObMvccWriteResult)
    (lockState : CheckedLockState) :
    ObResult Unit × ObMvccRow δ × CheckedLockState →
      ObResult Unit × ObMvccRow δ × ObMvccWriteResult × Option (ObMvccTransNode δ) → Prop
  | failed {r : ObMvccRow δ} {e : ObError} {iter : Option (ObMvccTransNode δ)} :
    Stopped ctx res lockState (.error e, r, lockState) (.error e, r, res, iter)
  | locked {r : ObMvccRow δ} {lock : CheckedLockState} {res' : ObMvccWriteResult}
    {iter : Option (ObMvccTransNode δ)} (hlock : lock.isLockedNotBy ctx.txId = true)
    (hinsert : res'.canInsert = false) (hstate : res'.lockState = lock.toObStoreRowLockState) :
    Stopped ctx res lockState (.ok (), r, lock) (.ok (), r, res', iter)
  | own {r : ObMvccRow δ} {lock : CheckedLockState} {res' : ObMvccWriteResult}
    {iter : Option (ObMvccTransNode δ)} (hlock : lock.isLocked = true)
    (hown : lock.lockTransId = ctx.txId) (hinsert : res'.canInsert = true) :
    Stopped ctx res lockState (.ok (), r, lock) (.ok (), r, res', iter)
  | free {r : ObMvccRow δ} {lock : CheckedLockState} {res' : ObMvccWriteResult}
    {iter : Option (ObMvccTransNode δ)} (hlock : lock.isLocked = false)
    (hinsert : res'.canInsert = true)
    (hversion : lock.transVersion = .minScn ∨ lock.transVersion = r.getMaxTransVersion) :
    Stopped ctx res lockState (.ok (), r, lock) (.ok (), r, res', iter)

/-- The loops of `check_row_locked` and `mvcc_write` stop at the same node. -/
theorem loops_agree (ctx : WriteAccessCtx δ) (filter : Option (ObMvccRowFilter δ))
    (isLockNode : Bool) (r : ObMvccRow δ) (res : ObMvccWriteResult) (lockState : CheckedLockState)
    (read : List (ObMvccTransNode δ)) {iter : List (ObMvccTransNode δ)}
    (hagree : Agree ctx.txTableGuards iter) :
    Stopped ctx res lockState (r.checkRowLockedLoop ctx filter lockState read iter)
      (r.mvccWriteLoop ctx filter isLockNode res read iter) := by
  induction iter generalizing r read with
  | nil => exact .free rfl rfl (.inl rfl)
  | cons n prevs ih =>
    have hprevs : Agree ctx.txTableGuards prevs := fun m hm => hagree m (List.mem_cons_of_mem _ hm)
    rw [checkRowLockedLoop, mvccWriteLoop,
      cleanoutWith_congr (hagree n List.mem_cons_self)]
    cases r.cleanoutWith ctx.txTableGuards.txTableGuard.checkWithTxData n with
    | error e => exact .failed
    | ok out =>
      obtain ⟨r', n'⟩ := out
      dsimp only
      by_cases hdecided : (n'.isCommitted || n'.isElr) = true
      · rw [if_pos hdecided, if_pos hdecided]
        cases checkFilter filter read n' with
        | error e => exact .failed
        | ok cf =>
          obtain ⟨complete, filtered⟩ := cf
          cases complete with
          | false => exact ih r' (read ++ [n']) hprevs
          | true =>
            cases filtered with
            | false => exact .free rfl rfl (.inr rfl)
            | true => exact .free rfl rfl (.inl rfl)
      rw [if_neg hdecided, if_neg hdecided]
      by_cases haborted : n'.isAborted = true
      · rw [if_pos haborted, if_pos haborted]
        exact ih r' read hprevs
      rw [if_neg haborted, if_neg haborted]
      by_cases hown : n'.txId = ctx.txId
      · rw [if_pos hown]
        exact .own rfl hown rfl
      · rw [if_neg hown]
        exact .locked (by simp [CheckedLockState.isLockedNotBy, hown]) rfl rfl

/-! ### Versions newer than the snapshot -/

variable {s : SCN}

theorem hasNewerVersion_of_getMaxTransVersion (h : r.getMaxTransVersion.gt s = true) :
    r.hasNewerVersion s = true := by
  rw [hasNewerVersion, Bool.or_eq_true]
  rw [getMaxTransVersion] at h
  split_ifs at h
  · exact .inr h
  · exact .inl h

theorem hasNewerVersion_unlinkTransNode {r' : ObMvccRow δ} (h : r.unlinkTransNode n = .ok r') :
    r'.hasNewerVersion s = r.hasNewerVersion s := by
  rw [unlinkTransNode] at h
  split_ifs at h
  cases h
  rfl

/-- Only a newer version makes a maximum newer. -/
theorem gt_of_incUpdate {a v : SCN} (hold : a.gt s = false) (hnew : (a.incUpdate v).gt s = true) :
    v.gt s = true := by
  rw [SCN.incUpdate] at hnew
  split_ifs at hnew
  · exact hnew
  · rw [hold] at hnew
    cases hnew

theorem hasNewerVersion_transCommit {rc : ObMvccRow δ} {v : SCN} (h : r.transCommit v n = .ok rc)
    (hold : r.hasNewerVersion s = false) (hnew : rc.hasNewerVersion s = true) : v.gt s = true := by
  rw [transCommit] at h
  split_ifs at h
  cases h
  rw [hasNewerVersion, Bool.or_eq_false_iff] at hold
  simp only [hasNewerVersion, updateMaxElrTransVersion, updateMaxTransVersion,
    maxTransVersion_updateDmlFlag, maxElrTransVersion_updateDmlFlag, Bool.or_eq_true] at hnew
  rcases hnew with hnew | hnew
  · exact gt_of_incUpdate hold.1 hnew
  · exact gt_of_incUpdate hold.2 hnew

theorem CleanedOut.newer {d : ObTxDataCheckData} {out : ObMvccRow δ × ObMvccTransNode δ}
    (h : CleanedOut d r n out) (hold : r.hasNewerVersion s = false)
    (hnew : out.1.hasNewerVersion s = true) :
    d.state = .commit ∧ out.2 = n.transCommit d.commitVersion ∧ d.commitVersion.gt s = true := by
  cases h with
  | unchanged =>
    rw [hold] at hnew
    cases hnew
  | aborted hunlink =>
    rw [hasNewerVersion_unlinkTransNode hunlink, hold] at hnew
    cases hnew
  | committed hstate hcommit => exact ⟨hstate, rfl, hasNewerVersion_transCommit hcommit hold hnew⟩
  | unlinked hstate hcommit hunlink =>
    rw [hasNewerVersion_unlinkTransNode hunlink] at hnew
    exact ⟨hstate, rfl, hasNewerVersion_transCommit hcommit hold hnew⟩

/-- The table does not know a commit of the writer. -/
def NotCommitted (ctx : WriteAccessCtx δ) : Prop :=
  ∀ d, ctx.txTableGuards.txTableGuard ctx.txId = .ok d → d.state ≠ .commit

variable {ctx : WriteAccessCtx δ} {node : ObMvccTransNode δ}

/-- **Where a loop without a filter finds a newer version**, it stops at the node that has it, and
this is a node of another transaction. -/
theorem mvccWriteLoop_newer (hctx : NotCommitted ctx) {isLockNode : Bool}
    {res res' : ObMvccWriteResult} {read iter : List (ObMvccTransNode δ)} {ret : ObResult Unit}
    {r' : ObMvccRow δ} {found : Option (ObMvccTransNode δ)}
    (hloop : r.mvccWriteLoop ctx none isLockNode res read iter = (ret, r', res', found))
    (hold : r.hasNewerVersion s = false) (hnew : r'.hasNewerVersion s = true) :
    ∃ m, found = some m ∧ m.transVersion.gt s = true ∧ m.txId ≠ ctx.txId := by
  induction iter generalizing r with
  | nil =>
    rw [mvccWriteLoop] at hloop
    cases hloop
    rw [hold] at hnew
    cases hnew
  | cons n prevs ih =>
    rw [mvccWriteLoop] at hloop
    cases hclean : r.cleanoutWith ctx.txTableGuards.txTableGuard.checkWithTxData n with
    | error e =>
      rw [hclean] at hloop
      cases hloop
      rw [hold] at hnew
      cases hnew
    | ok out =>
      obtain ⟨r1, n1⟩ := out
      rw [hclean] at hloop
      dsimp only at hloop
      by_cases hnew1 : r1.hasNewerVersion s = true
      · -- this cleanout has committed the node, so that the loop stops here
        have hcommit : ∃ d, ctx.txTableGuards.txTableGuard.checkWithTxData n.txId n.seqNo = .ok d ∧
            d.state = .commit ∧ n1 = n.transCommit d.commitVersion ∧
            d.commitVersion.gt s = true := by
          rcases cleanedOut_of_cleanoutWith hclean with heq | ⟨d, hd, hout⟩
          · obtain rfl : r1 = r := congrArg Prod.fst heq
            rw [hold] at hnew1
            cases hnew1
          · exact ⟨d, hd, hout.newer hold hnew1⟩
        obtain ⟨d, hd, hstate, rfl, hgt⟩ := hcommit
        have hdecided : ((n.transCommit d.commitVersion).isCommitted ||
            (n.transCommit d.commitVersion).isElr) = true := rfl
        rw [if_pos hdecided] at hloop
        cases hloop
        refine ⟨_, rfl, hgt, fun htx => ?_⟩
        rw [ObTxTableGuard.checkWithTxData, show n.txId = ctx.txId from htx] at hd
        cases hguard : ctx.txTableGuards.txTableGuard ctx.txId with
        | error e =>
          rw [hguard] at hd
          cases hd
        | ok data =>
          rw [hguard] at hd
          cases hd
          exact hctx data hguard hstate
      · rw [Bool.not_eq_true] at hnew1
        have hcontra {p : Prop} (h : r1 = r') : p := by
          rw [h, hnew] at hnew1
          cases hnew1
        split_ifs at hloop
        · exact hcontra (congrArg (·.2.1) hloop)
        · exact ih hloop hnew1
        · exact hcontra (congrArg (·.2.1) hloop)
        · exact hcontra (congrArg (·.2.1) hloop)

/-! ### The two functions -/

theorem insertNode_keeps (ctx : WriteAccessCtx δ) (r : ObMvccRow δ) (node : ObMvccTransNode δ)
    (res : ObMvccWriteResult) (iter : Option (ObMvccTransNode δ)) :
    let out := r.insertNode ctx node res iter
    out.2.2.canInsert = res.canInsert ∧ out.2.2.lockState = res.lockState ∧
      out.2.1.hasNewerVersion s = r.hasNewerVersion s := by
  unfold insertNode
  split_ifs with hinsert
  swap
  · exact ⟨rfl, rfl, rfl⟩
  cases iter with
  | none => exact ⟨rfl, rfl, rfl⟩
  | some n =>
    dsimp only
    rw [checkPosition]
    cases checkSequenceSetViolation ctx.writeFlag ctx.readerSeqNo ctx.txId node.dmlFlag node.seqNo
      n.txId n.dmlFlag n.seqNo with
    | error e => exact ⟨rfl, rfl, rfl⟩
    | ok u =>
      dsimp only
      cases mvccSanityCheck ctx.snapshotVersion ctx.writeFlag node n with
      | error e => exact ⟨rfl, rfl, rfl⟩
      | ok u => exact ⟨rfl, rfl, rfl⟩

theorem insertNode_ok {m : ObMvccTransNode δ} (hgt : m.transVersion.gt ctx.snapshotVersion = true)
    (htx : m.txId ≠ ctx.txId) (hnode : node.txId = ctx.txId) (r : ObMvccRow δ)
    (res : ObMvccWriteResult) : (r.insertNode ctx node res (some m)).1 = .ok () := by
  have hseq : checkSequenceSetViolation ctx.writeFlag ctx.readerSeqNo ctx.txId node.dmlFlag
      node.seqNo m.txId m.dmlFlag m.seqNo = .ok () := by
    rw [checkSequenceSetViolation, if_neg (Ne.symm htx)]
  have hsanity : mvccSanityCheck ctx.snapshotVersion ctx.writeFlag node m = .ok () := by
    have hge : ctx.snapshotVersion.ge m.transVersion = false := by
      rw [SCN.ge, Bool.not_eq_false']
      exact hgt
    have hne : decide (m.txId = node.txId) = false := decide_eq_false (by rw [hnode]; exact htx)
    rw [mvccSanityCheck, hge, hne]
    simp
  unfold insertNode
  split_ifs with hinsert
  · dsimp only
    rw [checkPosition, hseq]
    dsimp only
    rw [hsanity]
  · rfl

theorem mvccWriteWith_newer (hinsert : (r.mvccWriteInnerWith ctx node).2.2.canInsert = true)
    (hnew : (r.mvccWriteInnerWith ctx node).2.1.hasNewerVersion ctx.snapshotVersion = true)
    (checkExist : Bool) :
    (r.mvccWriteWith ctx node checkExist).1 = .error .transactionSetViolation ∨
      ∃ e, (r.mvccWriteInnerWith ctx node).1 = .error e ∧
        (r.mvccWriteWith ctx node checkExist).1 = .error e := by
  rw [mvccWriteWith]
  generalize r.mvccWriteInnerWith ctx node = out at hinsert hnew
  obtain ⟨ret, r', res⟩ := out
  dsimp only at hinsert hnew
  split_ifs with hnewer
  · exact .inl rfl
  cases ret with
  | error e => exact .inr ⟨e, rfl, rfl⟩
  | ok u =>
    dsimp only
    rw [hinsert, hnew, Bool.not_true, if_neg Bool.false_ne_true, if_pos rfl, undoInsert]
    split_ifs
    · exact .inl rfl
    · exact .inl rfl

/-- What the two functions say about the lock and the newest version. -/
structure Agreement (ctx : WriteAccessCtx δ) (r : ObMvccRow δ) (node : ObMvccTransNode δ)
    (lock : CheckedLockState) (ret : ObResult Unit) (res : ObMvccWriteResult) : Prop where
  /-- The check reports a lock of another transaction if and only if the write does. -/
  conflict : lock.isLockedNotBy ctx.txId = true ↔ res.canInsert = false
  /-- They report the same holder, sequence number and kind of write. -/
  same : res.canInsert = false → res.lockState = lock.toObStoreRowLockState
  /-- A newer version makes the write fail. -/
  violation : lock.isLocked = false → lock.transVersion.gt ctx.snapshotVersion = true →
    ∀ checkExist,
      (r.mvccWriteWith ctx node checkExist).1 = .error .transactionSetViolation ∨
        ∃ e, ret = .error e ∧ (r.mvccWriteWith ctx node checkExist).1 = .error e
  /-- Without a filter the error is that of a newer version. -/
  plain : lock.isLocked = false → lock.transVersion.gt ctx.snapshotVersion = true →
    ctx.mdsFilter = none → NotCommitted ctx → node.txId = ctx.txId →
    ∀ checkExist, (r.mvccWriteWith ctx node checkExist).1 = .error .transactionSetViolation

theorem not_gt_minScn (hs : s.isValid = true) : SCN.minScn.gt s ≠ true := by
  rw [SCN.gt, ne_eq, SCN.lt_iff hs rfl]
  exact Nat.not_lt_zero _

/-- Both functions, with the filter that they use. -/
theorem agreement_of_walk {filter : Option (ObMvccRowFilter δ)}
    (hagree : Agree ctx.txTableGuards r.nodes) (hsnapshot : ctx.snapshotVersion.isValid = true)
    (hfilter : ctx.mdsFilter = none → filter = none)
    (hinner : r.mvccWriteInnerWith ctx node = mvccWriteInnerWith.walk ctx r node filter) :
    (∀ e, (r.checkRowLockedLoop ctx filter {} [] r.nodes).1 = .error e →
      (r.mvccWriteInnerWith ctx node).1 = .error e) ∧
    ((r.checkRowLockedLoop ctx filter {} [] r.nodes).1 = .ok () →
      Agreement ctx r node (r.checkRowLockedLoop ctx filter {} [] r.nodes).2.2
        (r.mvccWriteInnerWith ctx node).1 (r.mvccWriteInnerWith ctx node).2.2) := by
  have hstop := loops_agree ctx filter node.isLockNode r {} {} [] hagree
  rw [mvccWriteInnerWith.walk] at hinner
  cases hloop : r.mvccWriteLoop ctx filter node.isLockNode {} [] r.nodes with
  | mk ret out =>
  obtain ⟨r', res, iter⟩ := out
  generalize r.checkRowLockedLoop ctx filter {} [] r.nodes = checked at hstop
  rw [hloop] at hstop hinner
  cases hstop with
  | failed =>
    rw [hinner]
    exact ⟨fun _ he => he, fun hok => by cases hok⟩
  | locked hlock hinsert hstate =>
    obtain ⟨hkeepInsert, hkeepState, -⟩ :=
      insertNode_keeps (s := ctx.snapshotVersion) ctx r' node res iter
    rw [hinner]
    refine ⟨fun _ he => (by cases he), fun _ => ⟨?_, ?_, ?_, ?_⟩⟩
    · rw [hkeepInsert]
      exact ⟨fun _ => hinsert, fun _ => hlock⟩
    · exact fun _ => hkeepState.trans hstate
    · intro hfree
      rw [CheckedLockState.isLockedNotBy, hfree] at hlock
      cases hlock
    · intro hfree
      rw [CheckedLockState.isLockedNotBy, hfree] at hlock
      cases hlock
  | own hlock hown hinsert =>
    obtain ⟨hkeepInsert, -⟩ := insertNode_keeps (s := ctx.snapshotVersion) ctx r' node res iter
    rw [hinner]
    refine ⟨fun _ he => (by cases he), fun _ => ⟨?_, ?_, ?_, ?_⟩⟩
    · rw [hkeepInsert, hinsert, CheckedLockState.isLockedNotBy, hown]
      simp
    · rw [hkeepInsert, hinsert]
      exact fun h => by cases h
    · intro hfree
      rw [hlock] at hfree
      cases hfree
    · intro hfree
      rw [hlock] at hfree
      cases hfree
  | @free _ lock _ _ hlock hinsert hversion =>
    obtain ⟨hkeepInsert, -, hkeepNewer⟩ :=
      insertNode_keeps (s := ctx.snapshotVersion) ctx r' node res iter
    -- the version that is reported is one of the row
    have hnewer (hgt : lock.transVersion.gt ctx.snapshotVersion = true) :
        r'.hasNewerVersion ctx.snapshotVersion = true := by
      rcases hversion with hmin | hmax
      · rw [hmin] at hgt
        exact absurd hgt (not_gt_minScn hsnapshot)
      · rw [hmax] at hgt
        exact hasNewerVersion_of_getMaxTransVersion hgt
    have hinner' : r.mvccWriteInnerWith ctx node = r'.insertNode ctx node res iter := hinner
    have hviolation (hgt : lock.transVersion.gt ctx.snapshotVersion = true) :=
      mvccWriteWith_newer (by rw [hinner']; exact hkeepInsert.trans hinsert)
        (by rw [hinner']; exact hkeepNewer.trans (hnewer hgt))
    refine ⟨fun _ he => (by cases he), fun _ => ⟨?_, ?_, fun _ hgt => ?_, ?_⟩⟩
    · rw [hinner', hkeepInsert, hinsert, CheckedLockState.isLockedNotBy, hlock]
      simp
    · rw [hinner', hkeepInsert, hinsert]
      exact fun h => by cases h
    · exact hviolation hgt
    · intro _ hgt hnone hctx hnode checkExist
      rcases hviolation hgt checkExist with hset | ⟨e, he, herror⟩
      · exact hset
      · by_cases hnewer0 : r.hasNewerVersion ctx.snapshotVersion = true
        · rw [mvccWriteWith, if_pos hnewer0]
        · -- the loop has found the newer version, so that the checks behind it pass
          rw [hfilter hnone] at hloop
          obtain ⟨m, rfl, hm, htx⟩ := mvccWriteLoop_newer hctx hloop
            (Bool.eq_false_of_not_eq_true hnewer0) (hnewer hgt)
          rw [hinner', insertNode_ok hm htx hnode] at he
          cases he

/-- **Lock checks and writes agree**, where the tables of both log streams say the same as that of
the destination. -/
theorem lockCheck_agrees {ctx : WriteAccessCtx δ} {r : ObMvccRow δ} {node : ObMvccTransNode δ}
    (hagree : Agree ctx.txTableGuards r.nodes) (hsnapshot : ctx.snapshotVersion.isValid = true) :
    (∀ e, (r.checkRowLocked ctx).1 = .error e → (r.mvccWriteInnerWith ctx node).1 = .error e) ∧
    ((r.checkRowLocked ctx).1 = .ok () →
      Agreement ctx r node (r.checkRowLocked ctx).2.2 (r.mvccWriteInnerWith ctx node).1
        (r.mvccWriteInnerWith ctx node).2.2) := by
  rcases hfilter : ctx.mdsFilter with _ | (e | filter)
  · rw [checkRowLocked, hfilter]
    exact agreement_of_walk hagree hsnapshot (fun _ => rfl) (by rw [mvccWriteInnerWith, hfilter])
  · rw [checkRowLocked, mvccWriteInnerWith, hfilter]
    exact ⟨fun _ he => he, fun hok => by cases hok⟩
  · rw [checkRowLocked, hfilter]
    exact agreement_of_walk hagree hsnapshot (fun hnone => by rw [hfilter] at hnone; cases hnone)
      (by rw [mvccWriteInnerWith, hfilter])

/-- A row that transaction 3 has locked. -/
def lockedRow : ObMvccRow ℕ :=
  { (reset : ObMvccRow ℕ) with
    nodes := [sampleNode 1 3 .maxScn { delayedCleanout := true } .update], totalTransNodeCnt := 1 }

/-- Transaction 3 is running, as the only table knows. -/
def runningCtx : WriteAccessCtx ℕ :=
  { sampleCtx with
    txTableGuards := { txTableGuard := fun _ => .ok ⟨.running, .maxScn, []⟩ } }

/-- The check and the write both report the lock of transaction 3. -/
theorem lockCheck_agrees_locked :
    (lockedRow.checkRowLocked runningCtx).1 = .ok () ∧
      (lockedRow.checkRowLocked runningCtx).2.2.lockTransId = 3 ∧
      Agreement runningCtx lockedRow (sampleNode 2 7 .maxScn {} .update)
        (lockedRow.checkRowLocked runningCtx).2.2
        (lockedRow.mvccWriteInnerWith runningCtx (sampleNode 2 7 .maxScn {} .update)).1
        (lockedRow.mvccWriteInnerWith runningCtx (sampleNode 2 7 .maxScn {} .update)).2.2 :=
  ⟨rfl, rfl, (lockCheck_agrees (Agree.of_no_source rfl _) rfl).2 rfl⟩

/-- Transaction 3 is running at the destination of a transfer, and aborted at its source. -/
def transferCtx : WriteAccessCtx ℕ :=
  { runningCtx with
    txTableGuards :=
      { txTableGuard := fun _ => .ok ⟨.running, .maxScn, []⟩
        srcTxTableGuard := some fun _ => .ok ⟨.abort, .maxScn, []⟩ } }

/-- Version 10 was inserted; an update by transaction 5 is on top of it. -/
def updatedRow : ObMvccRow ℕ :=
  { (reset : ObMvccRow ℕ) with
    nodes :=
      [sampleNode 2 5 .maxScn { delayedCleanout := true } .update,
        sampleNode 1 3 (.ofTs 10 (by decide)) { committed := true } .insert]
    totalTransNodeCnt := 2
    maxTransVersion := .ofTs 10 (by decide) }

/-- Transaction 5 has committed version 20, behind the snapshot; the filter needs columns that the
update does not have. -/
def filteredCtx : WriteAccessCtx ℕ :=
  { sampleCtx with
    snapshotVersion := .ofTs 15 (by decide)
    txTableGuards := { txTableGuard := fun _ => .ok ⟨.commit, .ofTs 20 (by decide), []⟩ }
    mdsFilter := some (.ok fun _ n => .ok (n.dmlFlag = .insert, false)) }

/-- **Lock checks and writes can disagree.** During a transfer, the check uses an abort at the
source and the write does not. -/
theorem lockCheck_disagrees :
    ((lockedRow.checkRowLocked transferCtx).1 = .ok () ∧
      (lockedRow.checkRowLocked transferCtx).2.2.isLocked = false ∧
      (lockedRow.mvccWriteInnerWith transferCtx (sampleNode 2 7 .maxScn {} .update)).1 = .ok () ∧
      (lockedRow.mvccWriteInnerWith transferCtx
        (sampleNode 2 7 .maxScn {} .update)).2.2.canInsert = false) ∧
    ((updatedRow.checkRowLocked filteredCtx).1 = .ok () ∧
      (updatedRow.checkRowLocked filteredCtx).2.2.isLocked = false ∧
      (updatedRow.checkRowLocked filteredCtx).2.2.transVersion.gt
        filteredCtx.snapshotVersion = true ∧
      (updatedRow.mvccWriteInnerWith filteredCtx
        (sampleNode 9 7 .maxScn {} .insert)).2.2.canInsert = true ∧
      (updatedRow.mvccWriteWith filteredCtx (sampleNode 9 7 .maxScn {} .insert) false).1 =
        .error .errPrimaryKeyDuplicate) :=
  ⟨⟨rfl, rfl, rfl, rfl⟩, ⟨rfl, rfl, rfl, rfl, rfl⟩⟩

end Andl.Storage.ObMvccRow
