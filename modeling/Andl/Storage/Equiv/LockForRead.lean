import Andl.Lib.Thinned
import Andl.Storage.LockForRead
import Andl.Storage.Equiv.MvccRow

/-!
# A snapshot read finds the newest visible version
-/

namespace Andl.Storage

open ObMvccRow

variable {δ : Type} {ctx : ObMvccAccessCtx} {flag : ObQueryFlag} {r r' : ObMvccRow δ}
  {n n' : ObMvccTransNode δ}

/-! ### The walk -/

/-- Whether a node is the one to be read. -/
def canRead (ctx : ObMvccAccessCtx) (flag : ObQueryFlag) (n : ObMvccTransNode δ) :
    ObResult Bool :=
  if n.isIncomplete then .ok false
  else if ctx.isDecided flag n then ctx.readDecided flag n
  else ctx.lockForReadFunctor flag n.txId n.seqNo

theorem addr_cleanoutTxNodeOperation (d : ObTxDataCheckData) (r : ObMvccRow δ)
    (n : ObMvccTransNode δ) : (cleanoutTxNodeOperation d r n).2.addr = n.addr := by
  simp only [cleanoutTxNodeOperation]
  repeat' split
  all_goals rfl

theorem lockForReadInner_eq (r : ObMvccRow δ) (n : ObMvccTransNode δ) :
    ∃ p : ObMvccRow δ × ObMvccTransNode δ, p.2.addr = n.addr ∧
      r.lockForReadInner ctx flag n = (canRead ctx flag n).map (·, p) := by
  unfold lockForReadInner canRead
  split_ifs with hincomplete hdecided hclean
  · exact ⟨(r, n), rfl, rfl⟩
  · refine ⟨(r, n), rfl, ?_⟩
    cases ctx.readDecided flag n <;> rfl
  · refine ⟨cleanoutTxNodeOperation ((ctx.txTable n.txId).checkData n.seqNo) r n,
      addr_cleanoutTxNodeOperation _ r n, ?_⟩
    cases ctx.lockForReadFunctor flag n.txId n.seqNo <;> rfl
  · refine ⟨(r, n), rfl, ?_⟩
    cases ctx.lockForReadFunctor flag n.txId n.seqNo <;> rfl

theorem lockForReadLoop_eq (r : ObMvccRow δ) (iter : List (ObMvccTransNode δ)) :
    (r.lockForReadLoop ctx flag iter).1.map (·.map (·.addr)) =
      (iter.findM? (canRead ctx flag)).map (·.map (·.addr)) := by
  induction iter generalizing r with
  | nil => rfl
  | cons n prevs ih =>
    obtain ⟨⟨r1, n1⟩, haddr, hinner⟩ := @lockForReadInner_eq δ ctx flag r n
    rw [lockForReadLoop, List.findM?, hinner]
    cases canRead ctx flag n with
    | error e => rfl
    | ok found =>
      cases found with
      | true => exact congrArg (fun a => Except.ok (some a)) haddr
      | false => exact ih r1

/-- **The walk** is a search for a node that can be read. -/
theorem lockForRead_eq (r : ObMvccRow δ) :
    (r.lockForRead ctx flag).1.map (·.map (·.addr)) =
      (r.nodes.findM? (canRead ctx flag)).map (·.map (·.addr)) := by
  rw [← lockForReadLoop_eq r, lockForRead]
  split
  · rename_i heq
    rw [heq]
    split_ifs <;> rfl
  · rfl

/-- What a read found is what the search finds. -/
theorem findM?_of_lockForRead {v : Option (ObMvccTransNode δ)}
    (h : (r.lockForRead ctx flag).1 = .ok v) :
    ∃ w, r.nodes.findM? (canRead ctx flag) = .ok w ∧ w.map (·.addr) = v.map (·.addr) := by
  have heq := @lockForRead_eq δ ctx flag r
  rw [h] at heq
  cases hw : r.nodes.findM? (canRead ctx flag) with
  | error e =>
    rw [hw] at heq
    cases heq
  | ok w =>
    rw [hw] at heq
    exact ⟨w, rfl, (Except.ok.inj heq).symm⟩

theorem lockForRead_of_findM? {w : Option (ObMvccTransNode δ)}
    (h : r.nodes.findM? (canRead ctx flag) = .ok w) :
    ∃ v, (r.lockForRead ctx flag).1 = .ok v ∧ v.map (·.addr) = w.map (·.addr) := by
  have heq := @lockForRead_eq δ ctx flag r
  rw [h] at heq
  cases hv : (r.lockForRead ctx flag).1 with
  | error e =>
    rw [hv] at heq
    cases heq
  | ok v =>
    rw [hv] at heq
    exact ⟨v, rfl, Except.ok.inj heq⟩

/-! ### Visibility -/

/-- The node was aborted, or is rolled back by the undo list of its transaction. -/
def isRolledBack (t : ObTxTable) (n : ObMvccTransNode δ) : Bool :=
  n.isAborted || (t n.txId).state = .abort || (t n.txId).undoStatusList.isContain n.seqNo

/-- The node is visible to the reader. Once it is committed its version decides; before, the reader
sees its own latest data and that of its snapshot's transaction up to the sequence number of the
snapshot, and may see data that was released early. -/
def visible (ctx : ObMvccAccessCtx) (flag : ObQueryFlag) (n : ObMvccTransNode δ) : Bool :=
  let d := ctx.txTable n.txId
  !n.isIncomplete && !isRolledBack ctx.txTable n &&
    if n.isCommitted || d.state = .commit || (ctx.readElr n && !n.isDelayedCleanout) then
      ctx.snapshotVersion.ge d.commitVersion
    else if flag.isReadLatest && n.txId = ctx.txId then true
    else if n.txId = ctx.snapshotTxId then n.seqNo.le ctx.snapshotSeqNo
    else d.state = .elrCommit && ctx.hasTxCtx && ctx.snapshotVersion.ge d.commitVersion

/-- The transaction table agrees with the flags of a node. -/
structure Consistent (ctx : ObMvccAccessCtx) (n : ObMvccTransNode δ) : Prop where
  committed : n.isCommitted = true → (ctx.txTable n.txId).state = .commit ∧
    n.transVersion = (ctx.txTable n.txId).commitVersion ∧
    (ctx.txTable n.txId).undoStatusList.isContain n.seqNo = false
  aborted : n.isAborted = true → (ctx.txTable n.txId).state = .abort ∨
    (ctx.txTable n.txId).undoStatusList.isContain n.seqNo = true
  elr : n.isElr = true → ((ctx.txTable n.txId).state = .elrCommit ∨
    (ctx.txTable n.txId).state = .commit) ∧
    n.transVersion = (ctx.txTable n.txId).commitVersion ∧
    (ctx.txTable n.txId).undoStatusList.isContain n.seqNo = false
  own : n.isDelayedCleanout = false → n.txId = ctx.snapshotTxId ∨ n.txId = ctx.txId →
    TableDecided ctx.txTable n → n.isCommitted = true ∨ n.isAborted = true
  prepared {cc : ObTxCCCtx} : (ctx.txTable n.txId).state = .elrCommit →
    ctx.txCCCtx n.txId = some cc → cc.prepareVersion ≠ .maxScn ∧
    cc.prepareVersion.le (ctx.txTable n.txId).commitVersion = true

namespace Consistent

variable (h : Consistent ctx n)

include h

/-- A node that is committed or released early has not been rolled back. -/
theorem isRolledBack_eq_false (hn : n.isCommitted = true ∨ n.isElr = true) :
    isRolledBack ctx.txTable n = false := by
  have htable : (ctx.txTable n.txId).state ≠ .abort ∧
      (ctx.txTable n.txId).undoStatusList.isContain n.seqNo = false := by
    rcases hn with hc | he
    · obtain ⟨hstate, -, hundo⟩ := h.committed hc
      exact ⟨by simp [hstate], hundo⟩
    · obtain ⟨hstate | hstate, -, hundo⟩ := h.elr he
      · exact ⟨by simp [hstate], hundo⟩
      · exact ⟨by simp [hstate], hundo⟩
  have haborted : n.isAborted = false := by
    by_contra ha
    rcases h.aborted (by simpa using ha) with hs | hs
    · exact htable.1 hs
    · simp [htable.2] at hs
  simp [isRolledBack, haborted, htable]

section

variable (hflag : flag.iterUncommittedRow = false)
include hflag

theorem readDecided (hincomplete : n.isIncomplete = false) (hd : ctx.isDecided flag n = true)
    {b : Bool} (hb : ctx.readDecided flag n = .ok b) : b = visible ctx flag n := by
  unfold ObMvccAccessCtx.readDecided at hb
  simp only [hflag, Bool.false_eq_true, if_false] at hb
  by_cases hversion : (n.isCommitted || ctx.readElr n) = true
  · -- the version on the node is that of its transaction
    rw [if_pos hversion] at hb
    have hn : n.isCommitted = true ∨ n.isElr = true := by
      simp only [ObMvccAccessCtx.readElr, Bool.or_eq_true, Bool.and_eq_true] at hversion
      exact hversion.imp_right And.right
    have hrolled := h.isRolledBack_eq_false hn
    have htrans : n.transVersion = (ctx.txTable n.txId).commitVersion := by
      rcases hn with hc | he
      · exact (h.committed hc).2.1
      · exact (h.elr he).2.1
    have hcond : (n.isCommitted || (ctx.txTable n.txId).state = .commit ||
        (ctx.readElr n && !n.isDelayedCleanout)) = true := by
      have haborted : n.isAborted = false := by
        simp only [isRolledBack, Bool.or_eq_false_iff] at hrolled
        exact hrolled.1.1
      cases hc : n.isCommitted with
      | true => rfl
      | false =>
        have he : ctx.readElr n = true := by simpa [hc] using hversion
        have hdelayed : n.isDelayedCleanout = false := by
          by_contra hdelayed
          simp [ObMvccAccessCtx.isDecided, hc, haborted, he, hdelayed] at hd
        simp [he, hdelayed]
    rw [← Except.ok.inj hb, visible, hincomplete, hrolled, if_pos hcond, htrans]
    rfl
  rw [if_neg hversion] at hb
  simp only [Bool.or_eq_true, not_or, Bool.not_eq_true] at hversion
  obtain ⟨hc, he⟩ := hversion
  by_cases haborted : n.isAborted = true
  · rw [if_pos haborted] at hb
    rw [← Except.ok.inj hb]
    simp [visible, isRolledBack, haborted]
  rw [if_neg haborted] at hb
  -- what is left is the reader's own data, and up to date
  simp only [ObMvccAccessCtx.isDecided, hc, he, haborted, Bool.false_and, Bool.or_false,
    Bool.false_or, Bool.and_eq_true, Bool.not_eq_true'] at hd
  obtain ⟨hdelayed, hown⟩ := hd
  have hundecided : ¬ TableDecided ctx.txTable n := by
    intro ht
    have hdecided := h.own hdelayed ?_ ht
    · simp [hc, haborted] at hdecided
    · simp only [ObMvccAccessCtx.isOwn, Bool.or_eq_true, Bool.and_eq_true,
        decide_eq_true_eq] at hown
      exact hown.imp_right And.right
  simp only [TableDecided, not_or, Bool.not_eq_true] at hundecided
  obtain ⟨hcommit, habort, hundo⟩ := hundecided
  have hrolled : isRolledBack ctx.txTable n = false := by
    simp [isRolledBack, haborted, habort, hundo]
  have hcond : ¬ (n.isCommitted || (ctx.txTable n.txId).state = .commit ||
      (ctx.readElr n && !n.isDelayedCleanout)) = true := by
    simp [hc, he, hcommit]
  rw [visible, hincomplete, hrolled, if_neg hcond]
  by_cases hlatest : (flag.isReadLatest && decide (n.txId = ctx.txId)) = true
  · rw [if_pos hlatest] at hb ⊢
    exact (Except.ok.inj hb).symm
  rw [if_neg hlatest] at hb ⊢
  by_cases hsnapshot : ctx.snapshotTxId = n.txId
  · rw [if_pos hsnapshot] at hb
    rw [if_pos hsnapshot.symm, ← Except.ok.inj hb]
    rfl
  · rw [if_neg hsnapshot] at hb
    cases hb

/-- Data of a transaction that has not ended. -/
theorem readActive (hincomplete : n.isIncomplete = false)
    (haborted : n.isAborted = false) (habort : (ctx.txTable n.txId).state ≠ .abort)
    (hcond : ¬ (n.isCommitted || (ctx.txTable n.txId).state = .commit ||
      (ctx.readElr n && !n.isDelayedCleanout)) = true) {b : Bool}
    (hb : ctx.readActive flag n.txId n.seqNo = .ok b) : b = visible ctx flag n := by
  have hrolled : isRolledBack ctx.txTable n =
      (ctx.txTable n.txId).undoStatusList.isContain n.seqNo := by
    simp [isRolledBack, haborted, habort]
  unfold ObMvccAccessCtx.readActive at hb
  simp only [hflag, Bool.false_eq_true, if_false] at hb
  rw [visible, hincomplete, hrolled, if_neg hcond]
  have hsame : decide (ctx.txId = n.txId) = decide (n.txId = ctx.txId) :=
    decide_eq_decide.mpr eq_comm
  rw [hsame] at hb
  by_cases hlatest : (flag.isReadLatest && decide (n.txId = ctx.txId)) = true
  · rw [if_pos hlatest] at hb ⊢
    rw [← Except.ok.inj hb, Bool.and_true]
    rfl
  rw [if_neg hlatest] at hb ⊢
  by_cases hsnapshot : ctx.snapshotTxId = n.txId
  · rw [if_pos hsnapshot] at hb
    rw [if_pos hsnapshot.symm, ← Except.ok.inj hb, Bool.and_comm]
    rfl
  rw [if_neg hsnapshot] at hb
  rw [if_neg (Ne.symm hsnapshot)]
  cases hcc : ctx.txCCCtx n.txId with
  | none =>
    rw [hcc] at hb
    cases hb
  | some cc =>
    rw [hcc] at hb
    by_cases helr : (ctx.txTable n.txId).state = .elrCommit
    · -- released early: prepared, with a version that is not above that of the commit
      obtain ⟨hmax, hle⟩ := h.prepared helr hcc
      dsimp only at hb
      rw [if_neg hmax] at hb
      split_ifs at hb with hgt hundo hctx
      · have hlt := SCN.lt_of_lt_of_le hgt hle
        rw [← Except.ok.inj hb]
        simp [SCN.ge, hlt]
      · rw [← Except.ok.inj hb]
        simp [hundo]
      · rw [← Except.ok.inj hb]
        simp only [Bool.not_eq_true] at hundo
        simp only [Bool.and_eq_true, decide_eq_true_eq] at hctx
        simp [hundo, hctx]
    · have hb' : b = false := by
        dsimp only at hb
        split_ifs at hb with h1 h2 h3 h4
        · exact (Except.ok.inj hb).symm
        · exact (Except.ok.inj hb).symm
        · exact (Except.ok.inj hb).symm
        · simp [helr] at h4
      simp [hb', helr]

/-- Otherwise the transaction table says whether it is visible. -/
theorem lockForReadFunctor
    (hincomplete : n.isIncomplete = false) (hd : ctx.isDecided flag n = false) {b : Bool}
    (hb : ctx.lockForReadFunctor flag n.txId n.seqNo = .ok b) : b = visible ctx flag n := by
  simp only [ObMvccAccessCtx.isDecided, Bool.or_eq_false_iff] at hd
  obtain ⟨⟨⟨hc, haborted⟩, he⟩, -⟩ := hd
  unfold ObMvccAccessCtx.lockForReadFunctor at hb
  split_ifs at hb with hnone
  unfold ObMvccAccessCtx.innerLockForRead at hb
  cases hstate : (ctx.txTable n.txId).state with
  | commit =>
    simp only [hstate, hflag, Bool.false_eq_true, if_false] at hb
    rw [← Except.ok.inj hb]
    simp [visible, isRolledBack, hincomplete, hstate, haborted, Bool.and_comm]
  | abort =>
    simp only [hstate] at hb
    rw [← Except.ok.inj hb]
    simp [visible, isRolledBack, hstate]
  | running =>
    simp only [hstate] at hb
    exact h.readActive hflag hincomplete haborted (by simp [hstate]) (by simp [hstate, hc, he]) hb
  | elrCommit =>
    simp only [hstate] at hb
    exact h.readActive hflag hincomplete haborted (by simp [hstate]) (by simp [hstate, hc, he]) hb

/-- **Both ways** to decide about a node say whether it is visible. -/
theorem canRead_eq {b : Bool} (hb : canRead ctx flag n = .ok b) : b = visible ctx flag n := by
  unfold canRead at hb
  split_ifs at hb with hincomplete hd
  · rw [← Except.ok.inj hb]
    simp [visible, hincomplete]
  · exact h.readDecided hflag (by simpa using hincomplete) hd hb
  · exact h.lockForReadFunctor hflag (by simpa using hincomplete) (by simpa using hd) hb

end

end Consistent

/-! ### Cleanouts before the read -/

/-- The outcome of the node's transaction was filled in, or not yet. -/
def FilledIn (t : ObTxTable) (n n' : ObMvccTransNode δ) : Prop :=
  n' = n ∨ n.needCleanout = true ∧ (t n.txId).state = .commit ∧
    (t n.txId).undoStatusList.isContain n.seqNo = false ∧
    n' = n.transCommit (t n.txId).commitVersion

/-- A cleanout unlinks the node. -/
def UnlinkedBy (t : ObTxTable) (n : ObMvccTransNode δ) : Prop :=
  n.needCleanout = true ∧ ((t n.txId).state = .abort ∨
    (t n.txId).undoStatusList.isContain n.seqNo = true ∨
    n.isLockNode = true ∧ (t n.txId).state = .commit)

theorem not_needCleanout_transCommit (n : ObMvccTransNode δ) (v : SCN) :
    ¬ (n.transCommit v).needCleanout = true := by
  simp [ObMvccTransNode.needCleanout, ObMvccTransNode.transCommit, ObMvccTransNode.isCommitted]

namespace FilledIn

variable {t : ObTxTable}

theorem trans {n1 n2 n3 : ObMvccTransNode δ} (h : FilledIn t n1 n2) (h' : FilledIn t n2 n3) :
    FilledIn t n1 n3 := by
  rcases h with rfl | ⟨hneed, hstate, hundo, rfl⟩
  · exact h'
  rcases h' with rfl | ⟨hneed', -⟩
  · exact .inr ⟨hneed, hstate, hundo, rfl⟩
  · exact absurd hneed' (not_needCleanout_transCommit _ _)

theorem unlinkedBy (h : FilledIn t n n') (h' : UnlinkedBy t n') : UnlinkedBy t n := by
  rcases h with rfl | ⟨-, -, -, rfl⟩
  · exact h'
  · exact absurd h'.1 (not_needCleanout_transCommit _ _)

theorem addr (h : FilledIn t n n') : n'.addr = n.addr := by
  rcases h with rfl | ⟨-, -, -, rfl⟩ <;> rfl

/-- Filling in the outcome does not change whether the node is read. -/
theorem canRead (hflag : flag.iterUncommittedRow = false) (h : FilledIn ctx.txTable n n') :
    canRead ctx flag n' = canRead ctx flag n := by
  rcases h with rfl | ⟨hneed, hstate, hundo, rfl⟩
  · rfl
  simp only [ObMvccTransNode.needCleanout, Bool.and_eq_true, Bool.not_eq_true',
    Bool.or_eq_false_iff] at hneed
  obtain ⟨⟨hc, ha⟩, hdelayed⟩ := hneed
  have hbefore : ctx.isDecided flag n = false := by
    simp [ObMvccAccessCtx.isDecided, hc, ha, hdelayed]
  have hcommitted : (n.transCommit (ctx.txTable n.txId).commitVersion).isCommitted = true := rfl
  have hafter : ctx.isDecided flag (n.transCommit (ctx.txTable n.txId).commitVersion) = true := by
    simp [ObMvccAccessCtx.isDecided, hcommitted]
  have htable : ctx.lockForReadFunctor flag n.txId n.seqNo =
      .ok (ctx.snapshotVersion.ge (ctx.txTable n.txId).commitVersion) := by
    simp [ObMvccAccessCtx.lockForReadFunctor, ObMvccAccessCtx.innerLockForRead, hstate, hundo,
      hflag]
  have hnode : ctx.readDecided flag (n.transCommit (ctx.txTable n.txId).commitVersion) =
      .ok (ctx.snapshotVersion.ge (ctx.txTable n.txId).commitVersion) := by
    simp only [ObMvccAccessCtx.readDecided, hcommitted, hflag, Bool.true_or, if_true,
      Bool.false_eq_true, if_false]
    rfl
  rw [Storage.canRead, Storage.canRead, hbefore, hafter, hnode, htable]
  rfl

theorem visible (h : FilledIn ctx.txTable n n') : visible ctx flag n' = visible ctx flag n := by
  rcases h with rfl | ⟨-, hstate, -, rfl⟩
  · rfl
  · have hstate' : (ctx.txTable (n.transCommit (ctx.txTable n.txId).commitVersion).txId).state =
        .commit := hstate
    simp only [Storage.visible, hstate, hstate', decide_true, Bool.or_true, Bool.true_or, if_true]
    rfl

theorem consistent (h : FilledIn ctx.txTable n n') (hn : Consistent ctx n) : Consistent ctx n' := by
  rcases h with rfl | ⟨-, hstate, hundo, rfl⟩
  · exact hn
  · exact
      { committed := fun _ => ⟨hstate, rfl, hundo⟩
        aborted := hn.aborted
        elr := fun he => ⟨(hn.elr he).1, rfl, hundo⟩
        own := fun _ _ _ => .inl rfl
        prepared := hn.prepared }

end FilledIn

/-- A node of the row is cleaned out. -/
def CleanoutStep (t : ObTxTable) (r r' : ObMvccRow δ) : Prop :=
  ∃ n ∈ r.nodes, r' = (r.cleanoutTxNode t n).1

/-- A cleanout fills in the node, or unlinks it. -/
theorem thinned_cleanoutTxNode {t : ObTxTable} (hnodup : (r.nodes.map (·.addr)).Nodup)
    (hn : n ∈ r.nodes) :
    Thinned (FilledIn t) (UnlinkedBy t) r.nodes (r.cleanoutTxNode t n).1.nodes := by
  have hsame {m : ObMvccTransNode δ} (hm : m ∈ r.nodes) (haddr : m.addr = n.addr) : m = n :=
    List.inj_on_of_nodup_map hnodup hm hn haddr
  have hwithout (hu : UnlinkedBy t n) :
      Thinned (FilledIn t) (UnlinkedBy t) r.nodes (r.without n.addr) := by
    refine .filter (fun _ => .inl rfl) fun m hm hmn => ?_
    rw [hsame hm (by simpa using hmn)]
    exact hu
  have hcleaned := cleaned_cleanoutTxNode (t := t) hn
  generalize r.cleanoutTxNode t n = p at hcleaned ⊢
  cases hcleaned with
  | unchanged => exact .refl (fun _ => .inl rfl) _
  | aborted hneed hdecided hnodes =>
    rw [hnodes]
    exact hwithout ⟨hneed, hdecided.imp_right .inl⟩
  | committed hneed hstate hundo _ hnodes =>
    rw [hnodes]
    split_ifs with hlock
    · exact hwithout ⟨hneed, .inr (.inr ⟨hlock, hstate⟩)⟩
    · refine .map fun m hm => ?_
      split_ifs with haddr
      · rw [hsame hm haddr]
        exact .inr ⟨hneed, hstate, hundo, rfl⟩
      · exact .inl rfl

theorem thinned_cleanouts {t : ObTxTable} (hnodup : (r.nodes.map (·.addr)).Nodup)
    (h : Relation.ReflTransGen (CleanoutStep t) r r') :
    Thinned (FilledIn t) (UnlinkedBy t) r.nodes r'.nodes := by
  induction h with
  | refl => exact .refl (fun _ => .inl rfl) _
  | tail _ hstep ih =>
    obtain ⟨n, hn, rfl⟩ := hstep
    have hnodup' := hnodup.sublist (ih.key_sublist (k := (·.addr)) fun _ _ => FilledIn.addr)
    exact ih.trans FilledIn.trans FilledIn.unlinkedBy (thinned_cleanoutTxNode hnodup' hn)

/-- A read that succeeds finds the first visible node. -/
theorem addr_of_lockForRead (hflag : flag.iterUncommittedRow = false)
    (hcons : ∀ n ∈ r.nodes, Consistent ctx n) {v : Option (ObMvccTransNode δ)}
    (h : (r.lockForRead ctx flag).1 = .ok v) :
    v.map (·.addr) = (r.nodes.find? (visible ctx flag)).map (·.addr) := by
  obtain ⟨w, hw, haddr⟩ := findM?_of_lockForRead h
  rw [← haddr, find?_of_findM? hw fun n hn b hb => (hcons n hn).canRead_eq hflag hb]

/-- **A snapshot read** that succeeds finds the first visible node of the row. -/
theorem lockForRead_visible (hflag : flag.iterUncommittedRow = false)
    (hcons : ∀ n ∈ r.nodes, Consistent ctx n) (hnodup : (r.nodes.map (·.addr)).Nodup)
    (hclean : Relation.ReflTransGen (CleanoutStep ctx.txTable) r r') :
    (∀ v, (r.lockForRead ctx flag).1 = .ok v →
      v.map (·.addr) = (r.nodes.find? (visible ctx flag)).map (·.addr)) ∧
    (∀ v', (r'.lockForRead ctx flag).1 = .ok v' → v'.map (·.addr) = (r.nodes.find? fun n =>
      visible ctx flag n && decide (n.addr ∈ r'.nodes.map (·.addr))).map (·.addr)) ∧
    (∀ n ∈ r.nodes, visible ctx flag n = true → n.isLockNode = false →
      n.addr ∈ r'.nodes.map (·.addr)) ∧
    ∀ v, (r.lockForRead ctx flag).1 = .ok v → (∀ n ∈ v, n.addr ∈ r'.nodes.map (·.addr)) →
      ∃ v', (r'.lockForRead ctx flag).1 = .ok v' ∧ v'.map (·.addr) = v.map (·.addr) := by
  have hthin := thinned_cleanouts hnodup hclean
  refine ⟨fun v hv => addr_of_lockForRead hflag hcons hv, fun v' hv' => ?_,
    fun n hn hvis hlock => ?_, fun v hv hmem => ?_⟩
  · have hcons' : ∀ n ∈ r'.nodes, Consistent ctx n := by
      intro n' hn'
      obtain ⟨n, hn, hfill⟩ := hthin.exists_of_mem hn'
      exact hfill.consistent (hcons n hn)
    rw [addr_of_lockForRead hflag hcons' hv']
    exact hthin.find?_key (k := (·.addr)) (fun _ _ => FilledIn.addr) hnodup FilledIn.visible
  · -- what a cleanout unlinks is rolled back or a lock node
    have hlinked : ¬ UnlinkedBy ctx.txTable n := by
      rintro ⟨-, hd⟩
      simp only [visible, isRolledBack, Bool.and_eq_true, Bool.not_eq_true',
        Bool.or_eq_false_iff, decide_eq_false_iff_not] at hvis
      obtain ⟨⟨-, ⟨-, habort⟩, hundo⟩, -⟩ := hvis
      rcases hd with hd | hd | ⟨hd, -⟩
      · exact habort hd
      · simp [hundo] at hd
      · simp [hlock] at hd
    obtain ⟨n', hn', hfill⟩ := hthin.exists_of_not_drop hn hlinked
    rw [← hfill.addr]
    exact List.mem_map_of_mem hn'
  · obtain ⟨w, hw, haddr⟩ := findM?_of_lockForRead hv
    have hmem' : ∀ n ∈ w, n.addr ∈ r'.nodes.map (·.addr) := by
      intro n hn
      have hsome : v.map (·.addr) = some n.addr := by
        rw [← haddr, Option.mem_def.mp hn]
        rfl
      obtain ⟨m, hm, heq⟩ := Option.map_eq_some_iff.mp hsome
      rw [← heq]
      exact hmem m hm
    obtain ⟨w', hw', haddr'⟩ := hthin.findM?_key (k := (·.addr)) (fun _ _ => FilledIn.addr)
      hnodup (FilledIn.canRead hflag) hw hmem'
    obtain ⟨v', hv', haddr''⟩ := lockForRead_of_findM? hw'
    exact ⟨v', hv', haddr''.trans (haddr'.trans haddr)⟩

/-- Transaction 2 reads at the given version, with a snapshot of transaction `snapshotTx`. -/
def readAt (version : SCN) (snapshotTx : ObTransID) : ObMvccAccessCtx :=
  { snapshotVersion := version
    snapshotTxId := snapshotTx
    snapshotSeqNo := ⟨9⟩
    txId := 2
    hasTxCtx := true
    isWeakRead := false
    txTable := oneCommitted
    txCCCtx := fun _ => none }

/-- Transaction 1 has updated the row and locked it again, and its callbacks were removed. -/
def updatedAndLocked : ObMvccRow Unit :=
  rowOf [{ (updateOf 2 1).removeCallback with dmlFlag := .lock }, (updateOf 1 1).removeCallback]

theorem consistent_updatedAndLocked (version : SCN) :
    ∀ n ∈ updatedAndLocked.nodes, Consistent (readAt version 0) n := by
  intro n hn
  have hn : n = { (updateOf 2 1).removeCallback with dmlFlag := .lock } ∨
      n = (updateOf 1 1).removeCallback := by simpa [updatedAndLocked, rowOf] using hn
  rcases hn with rfl | rfl
  all_goals
    refine ⟨fun h => ?_, fun h => ?_, fun h => ?_, fun h => ?_, fun {_} h => ?_⟩ <;> cases h

theorem lockForRead_visible_updatedAndLocked :
    ∃ r', Relation.ReflTransGen (CleanoutStep oneCommitted) updatedAndLocked r' ∧
      r'.nodes = [(updateOf 1 1).removeCallback] ∧
      ∀ v', (r'.lockForRead (readAt (.ofTs 5 (by decide)) 0) {}).1 = .ok v' →
        v'.map (·.addr) = some 1 := by
  have hclean : CleanoutStep oneCommitted updatedAndLocked _ := ⟨_, List.mem_cons_self, rfl⟩
  have h := @lockForRead_visible Unit (readAt (.ofTs 5 (by decide)) 0) {} updatedAndLocked _ rfl
    (consistent_updatedAndLocked _) (by decide) (.single hclean)
  exact ⟨_, .single hclean, rfl, fun v' hv' => h.2.1 v' hv'⟩

/-- The reader's own committed data is hidden, and a cleanout changes what is read. -/
theorem lockForRead_own_committed :
    (∃ n : ObMvccTransNode Unit, Consistent (readAt (.ofTs 3 (by decide)) 1) n ∧
      n.isIncomplete = false ∧ isRolledBack oneCommitted n = false ∧ n.txId = 1 ∧
      n.seqNo.le ⟨9⟩ = true ∧
      ((rowOf [n]).lockForRead (readAt (.ofTs 3 (by decide)) 1) {}).1 = .ok none) ∧
    ∃ r' n n', CleanoutStep oneCommitted updatedAndLocked r' ∧
      (updatedAndLocked.lockForRead (readAt (.ofTs 5 (by decide)) 0) {}).1 = .ok (some n) ∧
      (r'.lockForRead (readAt (.ofTs 5 (by decide)) 0) {}).1 = .ok (some n') ∧
      n.addr ≠ n'.addr := by
  refine ⟨⟨(updateOf 1 1).transCommit (.ofTs 5 (by decide)), ?_, rfl, rfl, rfl, rfl, rfl⟩, ?_⟩
  · exact
      { committed := fun _ => ⟨rfl, rfl, rfl⟩
        aborted := fun h => by cases h
        elr := fun h => by cases h
        own := fun _ _ _ => .inl rfl
        prepared := fun h => by cases h }
  · exact ⟨_, _, _, ⟨_, List.mem_cons_self, rfl⟩, rfl, rfl, by decide⟩

end Andl.Storage
