import Andl.Storage.MvccRow

/-!
# What the operations of a row do to its versions
-/

namespace Andl.Storage.ObMvccRow

open List

variable {δ : Type} {r : ObMvccRow δ} {n : ObMvccTransNode δ}

/-! ### The newest version -/

/-- The newest version that was committed, or released early, on the row. -/
def maxVersion (r : ObMvccRow δ) : Nat := max r.maxTransVersion.val r.maxElrTransVersion.val

/-- The newest versions are valid numbers. -/
def ValidMax (r : ObMvccRow δ) : Prop :=
  r.maxTransVersion.isValid = true ∧ r.maxElrTransVersion.isValid = true

/-- No version newer than the snapshot. -/
theorem maxVersion_le (hmax : r.ValidMax) {s : SCN} (h : r.hasNewerVersion s = false) :
    r.maxVersion ≤ s.val := by
  have hs : s.isValid = true := by
    by_contra hs
    simp [hasNewerVersion, SCN.gt, SCN.lt, hs, hmax.1] at h
  rw [hasNewerVersion, Bool.or_eq_false_iff, SCN.gt, SCN.gt, ← Bool.not_eq_true,
    ← Bool.not_eq_true, SCN.lt_iff hs hmax.1, SCN.lt_iff hs hmax.2] at h
  exact max_le (Nat.le_of_not_lt h.1) (Nat.le_of_not_lt h.2)

@[simp] theorem nodes_updateDmlFlag (flag : ObDmlFlag) (scn : SCN) :
    (r.updateDmlFlag flag scn).nodes = r.nodes := by
  simp only [updateDmlFlag]
  split_ifs <;> rfl

@[simp] theorem maxTransVersion_updateDmlFlag (flag : ObDmlFlag) (scn : SCN) :
    (r.updateDmlFlag flag scn).maxTransVersion = r.maxTransVersion := by
  simp only [updateDmlFlag]
  split_ifs <;> rfl

@[simp] theorem maxElrTransVersion_updateDmlFlag (flag : ObDmlFlag) (scn : SCN) :
    (r.updateDmlFlag flag scn).maxElrTransVersion = r.maxElrTransVersion := by
  simp only [updateDmlFlag]
  split_ifs <;> rfl

/-- A commit raises the newest version. -/
theorem transCommit_eq {v : SCN} (hv : v.isValid = true) (n : ObMvccTransNode δ) :
    ∃ r', r.transCommit v n = .ok r' ∧ r'.nodes = r.nodes ∧
      (r.ValidMax → r'.ValidMax ∧ r'.maxVersion = max r.maxVersion v.val) := by
  refine ⟨_, if_neg (by simp [hv]), ?_, fun hmax => ⟨?_, ?_⟩⟩
  · simp [updateMaxElrTransVersion, updateMaxTransVersion]
  · simp [ValidMax, updateMaxElrTransVersion, updateMaxTransVersion,
      SCN.incUpdate_of_valid hmax.1 hv, SCN.incUpdate_of_valid hmax.2 hv]
  · simp only [maxVersion, updateMaxElrTransVersion, updateMaxTransVersion,
      maxTransVersion_updateDmlFlag, maxElrTransVersion_updateDmlFlag,
      (SCN.incUpdate_of_valid hmax.1 hv).2, (SCN.incUpdate_of_valid hmax.2 hv).2]
    omega

/-! ### Unlinking -/

/-- The versions without one node. -/
def without (r : ObMvccRow δ) (a : Nat) : List (ObMvccTransNode δ) :=
  r.nodes.filter (·.addr ≠ a)

theorem unlinkTransNode_eq (hn : n ∈ r.nodes) :
    r.unlinkTransNode n = .ok { r with
      nodes := r.without n.addr
      totalTransNodeCnt := r.totalTransNodeCnt - 1 } := by
  rw [unlinkTransNode, if_pos]
  · rfl
  · exact any_eq_true.mpr ⟨n, hn, decide_eq_true rfl⟩

theorem without_setNode (r : ObMvccRow δ) (n : ObMvccTransNode δ) :
    (r.setNode n).without n.addr = r.without n.addr := by
  unfold without setNode
  induction r.nodes with
  | nil => rfl
  | cons m ms ih =>
    rw [map_cons, filter_cons, filter_cons, ih]
    by_cases hm : m.addr = n.addr <;> simp [hm]

theorem without_cons {m : ObMvccTransNode δ} {ms : List (ObMvccTransNode δ)}
    (hr : r.nodes = m :: ms) (hnodup : (r.nodes.map (·.addr)).Nodup) : r.without m.addr = ms := by
  rw [hr, map_cons, nodup_cons] at hnodup
  rw [without, hr, filter_cons_of_neg (by simp), filter_eq_self]
  intro x hx
  have hne : x.addr ≠ m.addr := fun h => hnodup.1 (h ▸ mem_map_of_mem hx)
  simpa using hne

/-! ### The end of a transaction -/

/-- The nodes after `n` was committed with the version. -/
def withCommitted (r : ObMvccRow δ) (n : ObMvccTransNode δ) (v : SCN) :
    List (ObMvccTransNode δ) :=
  r.nodes.map fun m => if m.addr = n.addr then n.transCommit v else m

theorem mem_setNode (hn : n ∈ r.nodes) {n' : ObMvccTransNode δ} (haddr : n'.addr = n.addr) :
    n' ∈ (r.setNode n').nodes :=
  mem_map.mpr ⟨n, hn, if_pos haddr.symm⟩

/-- Committing a node; a lock node is unlinked. -/
theorem commitCallback_eq (hn : n ∈ r.nodes) {v : SCN} (hv : v.isValid = true) :
    ∃ r', r.commitCallback v n = .ok r' ∧
      (r.ValidMax → r'.ValidMax ∧ r'.maxVersion = max r.maxVersion v.val) ∧
      r'.nodes = if n.isLockNode then r.without n.addr else r.withCommitted n v := by
  obtain ⟨r1, hcommit, hnodes, hmax⟩ := transCommit_eq hv n
  have hn1 : n ∈ r1.nodes := hnodes ▸ hn
  have hmem : n.transCommit v ∈ (r1.setNode (n.transCommit v)).nodes := mem_setNode hn1 rfl
  rw [commitCallback, hcommit]
  by_cases hlock : n.isLockNode = true
  · refine ⟨{ r1.setNode (n.transCommit v) with
      nodes := r.without n.addr
      totalTransNodeCnt := r1.totalTransNodeCnt - 1 }, ?_, hmax, (if_pos hlock).symm⟩
    have hlock' : (n.transCommit v).isLockNode = true := hlock
    have hwithout : (r1.setNode (n.transCommit v)).without (n.transCommit v).addr =
        r.without n.addr := by
      rw [without_setNode, without, without, hnodes]
      rfl
    show (if _ then _ else _) = _
    rw [if_pos hlock', unlinkTransNode_eq hmem, hwithout]
    rfl
  · have hlock' : ¬ (n.transCommit v).isLockNode = true := hlock
    refine ⟨r1.setNode (n.transCommit v), ?_, hmax, ?_⟩
    · show (if _ then _ else _) = _
      rw [if_neg hlock']
      rfl
    · rw [if_neg hlock, withCommitted, ← hnodes]
      rfl

/-- Aborting a node that is not decided unlinks it. -/
theorem abortCallback_eq (hn : n ∈ r.nodes) (hcommitted : n.isCommitted = false)
    (haborted : n.isAborted = false) :
    r.abortCallback n = { r with
      nodes := r.without n.addr
      totalTransNodeCnt := r.totalTransNodeCnt - 1 } := by
  have hmem : n.transAbort ∈ (r.setNode n.transAbort).nodes := mem_setNode hn rfl
  have hunlink := unlinkTransNode_eq hmem
  rw [without_setNode] at hunlink
  have hsame : (r.setNode n.transAbort).unlinkTransNode n =
      (r.setNode n.transAbort).unlinkTransNode n.transAbort := rfl
  rw [abortCallback, if_pos (by simp [hcommitted, haborted])]
  simp only [hsame, hunlink]
  rfl

/-- An early release marks the nodes of the transaction on top. -/
theorem elrNodes_eq {T : ObTransID} {v : SCN} {nodes : List (ObMvccTransNode δ)}
    (h : ∀ n ∈ nodes, n.txId = T → n.transVersion = .maxScn ∨ n.transVersion = v) :
    ∃ pre post, nodes = pre ++ post ∧ (∀ n ∈ pre, n.txId = T) ∧
      (∀ n ∈ post.head?, n.txId ≠ T) ∧
      elrNodes T v nodes = (.ok (), pre.map (·.setElr v) ++ post) := by
  induction nodes with
  | nil =>
    exact ⟨[], [], rfl, fun _ h => absurd h not_mem_nil,
      fun _ h => absurd h (Option.not_mem_none _), rfl⟩
  | cons n ns ih =>
    rw [elrNodes]
    by_cases htx : T ≠ n.txId
    · refine ⟨[], n :: ns, rfl, fun _ h => absurd h not_mem_nil, fun m hm => ?_, if_pos htx⟩
      rw [← Option.some.inj hm]
      exact htx.symm
    · have heq : n.txId = T := (not_not.mp htx).symm
      have hnot : ¬ (decide (n.transVersion ≠ .maxScn) && n.transVersion.gt v) = true := by
        rcases h n mem_cons_self heq with hv | hv
        · simp [hv]
        · simp [hv, SCN.gt, SCN.lt_irrefl]
      obtain ⟨pre, post, rfl, hpre, hpost, hrun⟩ := ih fun m hm => h m (mem_cons_of_mem _ hm)
      rw [if_neg htx, if_neg hnot, hrun]
      exact ⟨n :: pre, post, rfl, forall_mem_cons.mpr ⟨heq, hpre⟩, hpost, rfl⟩

/-! ### Cleanout -/

/-- The transaction table decides a node. -/
def TableDecided (t : ObTxTable) (n : ObMvccTransNode δ) : Prop :=
  (t n.txId).state = .commit ∨ (t n.txId).state = .abort ∨
    (t n.txId).undoStatusList.isContain n.seqNo = true

theorem isCommitted_of_needCleanout (h : n.needCleanout = true) : n.isCommitted = false := by
  simp only [ObMvccTransNode.needCleanout, Bool.and_eq_true, Bool.not_eq_true',
    Bool.or_eq_false_iff] at h
  exact h.1.1

/-- What a cleanout does to the row and to the node. -/
inductive Cleaned (t : ObTxTable) (r : ObMvccRow δ) (n : ObMvccTransNode δ) :
    ObMvccRow δ × ObMvccTransNode δ → Prop
  | unchanged : Cleaned t r n (r, n)
  | aborted {r' : ObMvccRow δ} (hneed : n.needCleanout = true)
      (hdecided : (t n.txId).state = .abort ∨
        (t n.txId).undoStatusList.isContain n.seqNo = true)
      (hnodes : r'.nodes = r.without n.addr) (htrans : r'.maxTransVersion = r.maxTransVersion)
      (helr : r'.maxElrTransVersion = r.maxElrTransVersion) :
      Cleaned t r n (r', n.transAbort)
  | committed {r' : ObMvccRow δ} (hneed : n.needCleanout = true)
      (hstate : (t n.txId).state = .commit)
      (hrollback : (t n.txId).undoStatusList.isContain n.seqNo = false)
      (hmax : r.ValidMax → r'.ValidMax ∧
        r'.maxVersion = max r.maxVersion (t n.txId).commitVersion.val)
      (hnodes : r'.nodes = if n.isLockNode then r.without n.addr
        else r.withCommitted n (t n.txId).commitVersion) :
      Cleaned t r n (r', n.transCommit (t n.txId).commitVersion)

/-- Writing back a commit is what the callback does. -/
theorem cleanoutTxNodeOperation_commit {d : ObTxDataCheckData} (hneed : n.needCleanout = true)
    (hstate : d.state = .commit) (hrollback : d.isRollback = false) {r' : ObMvccRow δ}
    (h : r.commitCallback d.commitVersion n = .ok r') :
    cleanoutTxNodeOperation d r n = (r', n.transCommit d.commitVersion) := by
  unfold cleanoutTxNodeOperation
  simp only [hneed, hstate, hrollback]
  rw [commitCallback] at h
  obtain ⟨r1, hcommit, h⟩ := ObResult.bind_eq_ok.mp h
  simp only [hcommit]
  by_cases hlock : (n.transCommit d.commitVersion).isLockNode = true
  · rw [if_pos hlock] at h ⊢
    cases hunlink : (r1.setNode (n.transCommit d.commitVersion)).unlinkTransNode
        (n.transCommit d.commitVersion) with
    | error e =>
      rw [hunlink] at h
      exact congrArg (·, _) (Except.ok.inj h)
    | ok r2 =>
      rw [hunlink] at h
      exact congrArg (·, _) (Except.ok.inj h)
  · rw [if_neg hlock] at h ⊢
    exact congrArg (·, _) (Except.ok.inj h)

/-- Writing back an abort unlinks the node. -/
theorem cleanoutTxNodeOperation_abort {d : ObTxDataCheckData} (hneed : n.needCleanout = true)
    (hn : n ∈ r.nodes) (hd : d.state = .abort ∨ d.isRollback = true) :
    cleanoutTxNodeOperation d r n = ({ r with
      nodes := r.without n.addr
      totalTransNodeCnt := r.totalTransNodeCnt - 1 }, n.transAbort) := by
  unfold cleanoutTxNodeOperation
  simp only [unlinkTransNode_eq hn, hneed]
  cases hroll : d.isRollback with
  | true => simp
  | false =>
    have hstate : d.state = .abort := by simpa [hroll] using hd
    simp [hstate]

/-- **A cleanout** leaves a node, unlinks it as aborted, or commits it. -/
theorem cleaned_cleanoutTxNode {t : ObTxTable} (hn : n ∈ r.nodes) :
    Cleaned t r n (r.cleanoutTxNode t n) := by
  unfold cleanoutTxNode
  by_cases hneed : n.needCleanout = true
  swap
  · rw [if_neg hneed]
    exact .unchanged
  rw [if_pos hneed]
  cases hroll : ((t n.txId).checkData n.seqNo).isRollback with
  | true =>
    rw [cleanoutTxNodeOperation_abort hneed hn (.inr hroll)]
    exact .aborted hneed (.inr hroll) rfl rfl rfl
  | false =>
    cases hstate : (t n.txId).state with
    | abort =>
      rw [cleanoutTxNodeOperation_abort hneed hn (.inl hstate)]
      exact .aborted hneed (.inl hstate) rfl rfl rfl
    | commit =>
      by_cases hvalid : (t n.txId).commitVersion.isValid = true
      · obtain ⟨r', hcb, hmax, hnodes⟩ := commitCallback_eq hn hvalid
        rw [cleanoutTxNodeOperation_commit hneed hstate hroll hcb]
        exact .committed hneed hstate hroll hmax hnodes
      · -- without a version, nothing can be filled in
        have hd : ((t n.txId).checkData n.seqNo).state = .commit := hstate
        have herror : r.transCommit ((t n.txId).checkData n.seqNo).commitVersion n =
            .error .invalidArgument := if_pos (by simpa [ObTxData.checkData] using hvalid)
        rw [cleanoutTxNodeOperation, hd, hroll, if_neg (by decide), if_pos hneed,
          if_neg (by decide)]
        simp only [herror]
        exact .unchanged
    | running =>
      have hd : ((t n.txId).checkData n.seqNo).state = .running := hstate
      rw [cleanoutTxNodeOperation, hd, hroll, if_pos (by decide)]
      exact .unchanged
    | elrCommit =>
      have hd : ((t n.txId).checkData n.seqNo).state = .elrCommit := hstate
      rw [cleanoutTxNodeOperation, hd, hroll, if_neg (by decide), if_pos hneed,
        if_neg (by decide)]
      exact .unchanged

/-! ### Writing -/

theorem txNode_findWritePos (ctx : ObStoreCtx) (isLockNode : Bool) (r : ObMvccRow δ)
    (res : ObMvccWriteResult) (iter : List (ObMvccTransNode δ)) :
    (r.findWritePos ctx isLockNode res iter).2.1.txNode = res.txNode := by
  induction iter generalizing r with
  | nil => rfl
  | cons n prevs ih =>
    simp only [findWritePos]
    split_ifs
    · rfl
    · exact ih _
    · rfl
    · rfl

/-- The row with a node on top. -/
def push (r : ObMvccRow δ) (node : ObMvccTransNode δ) : ObMvccRow δ :=
  { r with
    nodes := node :: r.nodes
    totalTransNodeCnt := r.totalTransNodeCnt + 1 }

@[simp] theorem mvccUndo_push (r : ObMvccRow δ) (node : ObMvccTransNode δ) :
    (r.push node).mvccUndo = r := by
  simp [mvccUndo, push]

@[simp] theorem hasNewerVersion_push (r : ObMvccRow δ) (node : ObMvccTransNode δ) (s : SCN) :
    (r.push node).hasNewerVersion s = r.hasNewerVersion s := rfl

theorem mvccWriteInner_cases (ctx : ObStoreCtx) (r : ObMvccRow δ) (node : ObMvccTransNode δ) :
    let p := r.findWritePos ctx node.isLockNode {} r.nodes
    ∃ ret res, (r.mvccWriteInner ctx node = (ret, p.1, res) ∧ res.txNode = none ∧
        res.canInsert = p.2.1.canInsert) ∨
      (r.mvccWriteInner ctx node = (.ok (), p.1.push node, res) ∧ res.txNode.isSome = true ∧
        res.canInsert = true ∧ p.2.1.canInsert = true) := by
  have hnone := txNode_findWritePos ctx node.isLockNode r {} r.nodes
  simp only [mvccWriteInner]
  generalize r.findWritePos ctx node.isLockNode {} r.nodes = p at *
  obtain ⟨r1, res1, iter⟩ := p
  dsimp only at *
  by_cases hcan : (res1.canInsert && res1.needInsert) = true
  swap
  · rw [if_neg hcan]
    exact ⟨_, _, .inl ⟨rfl, hnone, rfl⟩⟩
  rw [if_pos hcan]
  have hcan' : res1.canInsert = true := (Bool.and_eq_true_iff.mp hcan).1
  cases iter with
  | none => exact ⟨.ok (), _, .inr ⟨rfl, rfl, hcan', hcan'⟩⟩
  | some n =>
    dsimp only
    split
    · exact ⟨_, _, .inl ⟨rfl, hnone, rfl⟩⟩
    split
    · exact ⟨_, _, .inl ⟨rfl, hnone, rfl⟩⟩
    · exact ⟨.ok (), _, .inr ⟨rfl, rfl, hcan', hcan'⟩⟩

/-- **A write** leaves the row as it was, or as the search for its place leaves it, or puts its node
on top. -/
theorem mvccWrite_cases (ctx : ObStoreCtx) (r : ObMvccRow δ) (node : ObMvccTransNode δ)
    (checkExist : Bool) :
    let p := r.findWritePos ctx node.isLockNode {} r.nodes
    ∃ ret r' res, r.mvccWrite ctx node checkExist = (ret, r', res) ∧
      (r' = r ∨ r' = p.1 ∨ r' = p.1.push node ∧ ret = .ok ()) ∧
      (ret = .ok () → p.2.1.canInsert = true ∧
        p.1.hasNewerVersion ctx.snapshotVersion = false) := by
  intro p
  unfold mvccWrite
  by_cases hnewer : r.hasNewerVersion ctx.snapshotVersion = true
  · rw [if_pos hnewer]
    exact ⟨_, _, _, rfl, .inl rfl, nofun⟩
  rw [if_neg hnewer]
  obtain ⟨ret, res, ⟨hinner, hnone, hcan⟩ | ⟨hinner, hsome, hins, hcan⟩⟩ :=
    mvccWriteInner_cases ctx r node
  · rw [hinner]
    cases ret with
    | error e => exact ⟨_, _, _, rfl, .inr (.inl rfl), nofun⟩
    | ok u =>
      dsimp only
      split_ifs with h1 h2 h3
      · exact ⟨_, _, _, rfl, .inr (.inl rfl), nofun⟩
      · rw [undoInserted, hnone]
        exact ⟨_, _, _, rfl, .inr (.inl rfl), nofun⟩
      · rw [undoInserted, hnone]
        exact ⟨_, _, _, rfl, .inr (.inl rfl), nofun⟩
      · refine ⟨_, _, _, rfl, .inr (.inl rfl), fun _ => ⟨?_, by simpa using h2⟩⟩
        rw [← hcan]
        simpa using h1
  · rw [hinner]
    dsimp only
    split_ifs with h1 h2 h3
    · simp [hins] at h1
    · rw [undoInserted, if_pos hsome, mvccUndo_push]
      exact ⟨_, _, _, rfl, .inr (.inl rfl), nofun⟩
    · rw [undoInserted, if_pos hsome, mvccUndo_push]
      exact ⟨_, _, _, rfl, .inr (.inl rfl), nofun⟩
    · refine ⟨_, _, _, rfl, .inr (.inr ⟨rfl, rfl⟩), fun _ => ⟨hcan, by simpa using h2⟩⟩

end Andl.Storage.ObMvccRow

namespace Andl.Storage

/-! ### Small rows -/

/-- An update of a row with one column. -/
def updateOf (addr : Nat) (T : ObTransID) : ObMvccTransNode Unit :=
  { addr := addr
    txId := T
    transVersion := .maxScn
    scn := .maxScn
    seqNo := ⟨addr⟩
    writeEpoch := 0
    type := .normal
    flag := {}
    dmlFlag := .update
    row := [some ()] }

/-- A row with the given nodes, before anything was committed on it. -/
def rowOf (nodes : List (ObMvccTransNode Unit)) : ObMvccRow Unit :=
  { (.reset : ObMvccRow Unit) with
    nodes := nodes
    totalTransNodeCnt := nodes.length }

/-- No transaction has ended. -/
def allRunning : ObTxTable := fun _ => ⟨.running, .minScn, []⟩

/-- Transaction 1 has committed with version 5. -/
def oneCommitted : ObTxTable :=
  Function.update allRunning 1 ⟨.commit, .ofTs 5 (by decide), []⟩

end Andl.Storage
