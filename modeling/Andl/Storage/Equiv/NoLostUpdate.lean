import Andl.Lib.Run
import Andl.Storage.Equiv.VersionOrder

/-!
# No lost update on a row
-/

namespace Andl.Storage

open ObMvccRow List Function

variable {δ : Type}

/-! ### Rows -/

/-- The invariant of a row and the transaction table. -/
structure RowInv (cv : ObTransID → SCN) (t : ObTxTable) (r : ObMvccRow δ) : Prop where
  valid_max : r.ValidMax
  ordered : Ordered cv t r.nodes r.maxVersion
  table {T : ObTransID} : (t T).state = .commit → (t T).commitVersion = cv T

/-- No version gets lost: it is recorded in the row, or its node is still there. -/
structure Kept (cv : ObTransID → SCN) (t : ObTxTable) (r : ObMvccRow δ) (t' : ObTxTable)
    (r' : ObMvccRow δ) : Prop where
  max_le : r.maxVersion ≤ r'.maxVersion
  nodes {m : ObMvccTransNode δ} : m ∈ r.nodes → HasVersion t m →
    (cv m.txId).val ≤ r'.maxVersion ∨ ∃ m' ∈ r'.nodes, m'.txId = m.txId ∧ HasVersion t' m'

theorem Kept.refl {cv : ObTransID → SCN} {t : ObTxTable} {r : ObMvccRow δ} : Kept cv t r t r :=
  ⟨le_rfl, fun hm hv => .inr ⟨_, hm, rfl, hv⟩⟩

theorem Kept.trans {cv : ObTransID → SCN} {t1 t2 t3 : ObTxTable} {r1 r2 r3 : ObMvccRow δ}
    (h : Kept cv t1 r1 t2 r2) (h' : Kept cv t2 r2 t3 r3) : Kept cv t1 r1 t3 r3 where
  max_le := h.max_le.trans h'.max_le
  nodes hm hv := by
    rcases h.nodes hm hv with hle | ⟨m', hm', htx, hv'⟩
    · exact .inl (hle.trans h'.max_le)
    · rw [← htx]
      exact h'.nodes hm' hv'

section Steps

variable {cv : ObTransID → SCN} {t : ObTxTable} {r r' : ObMvccRow δ} {n : ObMvccTransNode δ}

theorem without_sublist (r : ObMvccRow δ) (a : Nat) : (r.without a).Sublist r.nodes :=
  filter_sublist

/-- A node without a version of its own is unlinked. -/
theorem RowInv.unlink (h : RowInv cv t r) (hn : n ∈ r.nodes) (hnodes : r'.nodes = r.without n.addr)
    (hvalid : r'.ValidMax) (hle : r.maxVersion ≤ r'.maxVersion)
    (hversion : HasVersion t n → (cv n.txId).val ≤ r'.maxVersion) :
    RowInv cv t r' ∧ Kept cv t r t r' := by
  refine ⟨⟨hvalid, ?_, h.table⟩, hle, fun {m} hm hv => ?_⟩
  · rw [hnodes]
    exact (h.ordered.mono hle).sublist (without_sublist r _)
  · by_cases haddr : m.addr = n.addr
    · rw [h.ordered.eq_of_addr hn hm haddr] at hv ⊢
      exact .inl (hversion hv)
    · refine .inr ⟨m, ?_, rfl, hv⟩
      rw [hnodes]
      exact mem_filter.mpr ⟨hm, by simpa using haddr⟩

/-- A node of a committed transaction is committed. -/
theorem RowInv.commit (h : RowInv cv t r) (hn : n ∈ r.nodes)
    (hstate : (t n.txId).state = .commit) (hvalid : r'.ValidMax)
    (hversion : r'.maxVersion = max r.maxVersion (cv n.txId).val)
    (hnodes : r'.nodes = if n.isLockNode then r.without n.addr
      else r.withCommitted n (cv n.txId)) :
    RowInv cv t r' ∧ Kept cv t r t r' := by
  have hle : r.maxVersion ≤ r'.maxVersion := hversion ▸ le_max_left _ _
  have hcv : (cv n.txId).val ≤ r'.maxVersion := hversion ▸ le_max_right _ _
  split_ifs at hnodes with hlock
  · exact h.unlink hn hnodes hvalid hle fun _ => hcv
  · refine ⟨⟨hvalid, ?_, h.table⟩, hle, fun {m} hm hv => ?_⟩
    · rw [hnodes]
      exact (h.ordered.mono hle).commit hn hstate hcv
    · by_cases haddr : m.addr = n.addr
      · rw [h.ordered.eq_of_addr hn hm haddr]
        exact .inl hcv
      · refine .inr ⟨m, ?_, rfl, hv⟩
        rw [hnodes]
        exact mem_map.mpr ⟨m, hm, if_neg haddr⟩

/-- A cleanout keeps the invariant. -/
theorem RowInv.cleaned (h : RowInv cv t r) (hn : n ∈ r.nodes) {p : ObMvccRow δ × ObMvccTransNode δ}
    (hc : Cleaned t r n p) : RowInv cv t p.1 ∧ Kept cv t r t p.1 := by
  cases hc with
  | unchanged => exact ⟨h, .refl⟩
  | @aborted r' hneed hdecided hnodes htrans helr =>
    have hcommitted := isCommitted_of_needCleanout hneed
    have hvalid := h.valid_max
    rw [ValidMax, ← htrans, ← helr] at hvalid
    have hmax : r.maxVersion = r'.maxVersion := by
      rw [maxVersion, maxVersion, htrans, helr]
    refine h.unlink hn hnodes hvalid hmax.le fun hv => ?_
    rw [← hmax]
    rcases hv with hv | hv | ⟨hstate, hroll⟩
    · simp [hcommitted] at hv
    · exact h.ordered.le_max hn (.inr hv)
    · rcases hdecided with hd | hd
      · simp [hstate] at hd
      · simp [hroll] at hd
  | committed _ hstate _ hmax hnodes =>
    obtain ⟨hvalid, hversion⟩ := hmax h.valid_max
    rw [h.table hstate] at hversion hnodes
    exact h.commit hn hstate hvalid hversion hnodes

/-- An early release keeps the invariant. -/
theorem RowInv.elr (hcv : ∀ T, (cv T).isValid = true) (h : RowInv cv t r) {T : ObTransID}
    (hstate : (t T).state ≠ .running) :
    RowInv cv t (r.elr T (cv T)).2 ∧ Kept cv t r t (r.elr T (cv T)).2 := by
  obtain ⟨pre, post, hnodes, hpre, hpost, helr⟩ :=
    @elrNodes_eq δ T (cv T) r.nodes fun n hn htx => htx ▸ h.ordered.version hn
  obtain ⟨hvalid, hversion⟩ := SCN.incUpdate_of_valid h.valid_max.2 (hcv T)
  unfold ObMvccRow.elr
  split_ifs with hneed
  swap
  · exact ⟨h, .refl⟩
  simp only [helr]
  have hM : max r.maxTransVersion.val (r.maxElrTransVersion.incUpdate (cv T)).val =
      max r.maxVersion (cv T).val := by
    rw [hversion, maxVersion, max_assoc]
  refine ⟨⟨⟨h.valid_max.1, hvalid⟩, ?_, h.table⟩, ?_, fun {m} hm hv => .inr ?_⟩
  · show Ordered cv t (pre.map (·.setElr (cv T)) ++ post) (max _ _)
    rw [hM]
    have ho := h.ordered
    rw [hnodes] at ho
    exact (ho.mono (le_max_left _ _)).release hpre hpost hstate (le_max_right _ _)
  · show r.maxVersion ≤ max _ _
    rw [hM]
    exact le_max_left _ _
  · rw [hnodes] at hm
    rcases mem_append.mp hm with hm | hm
    · exact ⟨_, mem_append_left _ (mem_map_of_mem hm), rfl, .inr (.inl rfl)⟩
    · exact ⟨m, mem_append_right _ hm, rfl, hv⟩

/-! ### Writing -/

variable {prevs : List (ObMvccTransNode δ)} {ctx : ObStoreCtx}

theorem RowInv.released_below (h : RowInv cv t r) (hr : r.nodes = n :: prevs)
    (hn : (t n.txId).state = .commit ∨ n.isElr = true) {m : ObMvccTransNode δ} (hm : m ∈ prevs) :
    Released t m ∧ ((cv m.txId).val ≤ r.maxVersion ∨ m.txId = n.txId) := by
  have hbelow := h.ordered.below
  have hmem : m ∈ r.nodes := hr ▸ mem_cons_of_mem _ hm
  rw [hr] at hbelow
  rcases (pairwise_cons.mp hbelow).1 m hm with htx | ⟨hrel, -, hle⟩
  · refine ⟨?_, .inr htx.symm⟩
    rcases hn with hstate | helr
    · exact .inr (.inr (htx ▸ hstate))
    · exact h.ordered.elr_released (hr ▸ mem_cons_self) helr hmem htx.symm
  · exact ⟨hrel, .inl hle⟩

/-- Every node of another transaction is released, with a version that is recorded. -/
def OthersReleased (cv : ObTransID → SCN) (t : ObTxTable) (T : ObTransID)
    (r : ObMvccRow δ) : Prop :=
  ∀ m ∈ r.nodes, m.txId ≠ T → Released t m ∧ (cv m.txId).val ≤ r.maxVersion

/-- A write may go on top of a node that is committed or released early. -/
theorem RowInv.othersReleased (h : RowInv cv t r) (hr : r.nodes = n :: prevs)
    (hn : n.isCommitted = true ∨ n.isElr = true) (T : ObTransID) : OthersReleased cv t T r := by
  have hmem : n ∈ r.nodes := hr ▸ mem_cons_self
  have hle := h.ordered.le_max hmem hn
  have htop : (t n.txId).state = .commit ∨ n.isElr = true :=
    hn.imp_left fun hc => (h.ordered.committed hmem hc).1
  intro m hm _
  rw [hr] at hm
  rcases mem_cons.mp hm with rfl | hm
  · exact ⟨hn.imp_right .inl, hle⟩
  · obtain ⟨hrel, hle' | htx⟩ := h.released_below hr htop hm
    · exact ⟨hrel, hle'⟩
    · exact ⟨hrel, htx ▸ hle⟩

/-- A write may go on top of a node of its own transaction. -/
theorem RowInv.othersReleased_own (h : RowInv cv t r) (hr : r.nodes = n :: prevs) :
    OthersReleased cv t n.txId r := by
  have hbelow := h.ordered.below
  rw [hr] at hbelow
  intro m hm hne
  rw [hr] at hm
  rcases mem_cons.mp hm with rfl | hm
  · exact absurd rfl hne
  · rcases (pairwise_cons.mp hbelow).1 m hm with htx | ⟨hrel, -, hle⟩
    · exact absurd htx.symm hne
    · exact ⟨hrel, hle⟩

/-- The node on top, after a cleanout. -/
theorem RowInv.cleaned_top (h : RowInv cv t r) (hr : r.nodes = n :: prevs)
    {p : ObMvccRow δ × ObMvccTransNode δ} (hc : Cleaned t r n p) :
    p.1.nodes.map (·.addr) ⊆ r.nodes.map (·.addr) ∧
    (p.2.isCommitted = true ∨ p.2.isElr = true →
      (∀ T, OthersReleased cv t T p.1) ∧ ∀ m ∈ r.nodes, ¬ Undecided t m) ∧
    (p.2.isAborted = true → p.1.nodes = prevs ∧ ¬ Undecided t n) ∧
    (p.2.isCommitted = false → p.2.isElr = false → p.2.isAborted = false → p = (r, n)) := by
  have hmem : n ∈ r.nodes := hr ▸ mem_cons_self
  have haborted : n.isAborted = false := h.ordered.not_aborted hmem
  have hwithout : r.without n.addr = prevs := without_cons hr h.ordered.nodup
  -- under a node that is committed or released early, nothing is undecided
  have hdecided (hn : (t n.txId).state = .commit ∨ n.isElr = true) :
      ∀ m ∈ r.nodes, ¬ Undecided t m := by
    intro m hm hu
    rw [hr] at hm
    rcases mem_cons.mp hm with rfl | hm
    · exact hu.not_released (hn.elim (.inr ∘ .inr) (.inr ∘ .inl))
    · exact hu.not_released (h.released_below hr hn hm).1
  have htop (hn : n.isCommitted = true ∨ n.isElr = true) :
      (t n.txId).state = .commit ∨ n.isElr = true :=
    hn.imp_left fun hcm => (h.ordered.committed hmem hcm).1
  cases hc with
  | unchanged =>
    refine ⟨List.Subset.refl _, fun hn => ⟨fun T => h.othersReleased hr hn T, hdecided (htop hn)⟩,
      fun ha => ?_, fun _ _ _ => rfl⟩
    simp [haborted] at ha
  | @aborted r' _ htable hnodes htrans helr =>
    have hmax : r'.maxVersion = r.maxVersion := by rw [maxVersion, maxVersion, htrans, helr]
    refine ⟨?_, fun hn => ?_, fun _ => ⟨hnodes.trans hwithout, fun hu => hu.2.2.2 ?_⟩,
      fun _ _ ha => ?_⟩
    · rw [hnodes]
      exact map_subset _ (without_sublist r _).subset
    · have hn' : n.isCommitted = true ∨ n.isElr = true := hn
      refine ⟨fun T m hm hne => ?_, hdecided (htop hn')⟩
      rw [hnodes] at hm
      rw [hmax]
      exact h.othersReleased hr hn' T m ((without_sublist r _).subset hm) hne
    · exact htable.elim (.inr ∘ .inl) (.inr ∘ .inr)
    · cases ha
  | @committed r' _ hstate _ hmax hnodes =>
    obtain ⟨-, hversion⟩ := hmax h.valid_max
    rw [h.table hstate] at hversion hnodes
    have hle : r.maxVersion ≤ r'.maxVersion := hversion ▸ le_max_left _ _
    have hcv : (cv n.txId).val ≤ r'.maxVersion := hversion ▸ le_max_right _ _
    -- a node that is left is the one committed now, or lies below it
    have hleft {m : ObMvccTransNode δ} (hm : m ∈ r'.nodes) :
        m = n.transCommit (cv n.txId) ∨ m ∈ prevs := by
      rw [hnodes] at hm
      split_ifs at hm with hlock
      · exact .inr (hwithout ▸ hm)
      · obtain ⟨x, hx, rfl⟩ := mem_map.mp hm
        by_cases haddr : x.addr = n.addr
        · exact .inl (if_pos haddr)
        · rw [if_neg haddr]
          rw [hr] at hx
          rcases mem_cons.mp hx with rfl | hx
          · exact absurd rfl haddr
          · exact .inr hx
    refine ⟨?_, fun _ => ⟨fun T m hm _ => ?_, hdecided (.inl hstate)⟩, fun ha => ?_,
      fun hcm => ?_⟩
    · intro a ha
      obtain ⟨m, hm, rfl⟩ := mem_map.mp ha
      rcases hleft hm with rfl | hm
      · exact mem_map_of_mem (f := (·.addr)) hmem
      · exact mem_map_of_mem (hr ▸ mem_cons_of_mem _ hm)
    · rcases hleft hm with rfl | hm
      · exact ⟨.inl rfl, hcv⟩
      · obtain ⟨hrel, hle' | htx⟩ := h.released_below hr (.inl hstate) hm
        · exact ⟨hrel, hle'.trans hle⟩
        · exact ⟨hrel, htx ▸ hcv⟩
    · have ha' : n.isAborted = true := ha
      simp [haborted] at ha'
    · cases hcm

/-- What the walk to the place of a write leaves behind. -/
structure Walked (cv : ObTransID → SCN) (t : ObTxTable) (T : ObTransID) (r : ObMvccRow δ)
    (p : ObMvccRow δ × ObMvccWriteResult × Option (ObMvccTransNode δ)) : Prop where
  inv : RowInv cv t p.1
  kept : Kept cv t r t p.1
  addrs : p.1.nodes.map (·.addr) ⊆ r.nodes.map (·.addr)
  released : p.2.1.canInsert = true → OthersReleased cv t T p.1
  decided {m : ObMvccTransNode δ} : p.2.1.canInsert = true → m ∈ r.nodes → m.txId ≠ T →
    ¬ Undecided t m

/-- The walk to the place of a write, from the newest node of a row. -/
theorem walked_findWritePos (isLockNode : Bool) (res : ObMvccWriteResult)
    {iter : List (ObMvccTransNode δ)} (hr : r.nodes = iter) (h : RowInv cv ctx.txTable r) :
    Walked cv ctx.txTable ctx.txId r (r.findWritePos ctx isLockNode res iter) := by
  induction iter generalizing r with
  | nil =>
    rw [findWritePos]
    refine ⟨h, .refl, List.Subset.refl _, fun _ m hm => ?_, fun _ hm => ?_⟩
    · rw [hr] at hm
      exact absurd hm not_mem_nil
    · rw [hr] at hm
      exact absurd hm not_mem_nil
  | cons n prevs ih =>
    have hmem : n ∈ r.nodes := hr ▸ mem_cons_self
    have hcleaned := cleaned_cleanoutTxNode (t := ctx.txTable) hmem
    obtain ⟨haddrs, hreleased, hunlinked, hsame⟩ := h.cleaned_top hr hcleaned
    obtain ⟨hinv, hkept⟩ := h.cleaned hmem hcleaned
    rw [findWritePos]
    generalize r.cleanoutTxNode ctx.txTable n = p at *
    obtain ⟨r1, n1⟩ := p
    dsimp only at *
    by_cases htop : (n1.isCommitted || n1.isElr) = true
    · -- a decided node: the write goes on top
      rw [if_pos htop]
      obtain ⟨hothers, hdecided⟩ := hreleased (Bool.or_eq_true_iff.mp htop)
      exact ⟨hinv, hkept, haddrs, fun _ => hothers _, fun _ hm _ => hdecided _ hm⟩
    rw [if_neg htop]
    by_cases haborted : n1.isAborted = true
    · -- an aborted node: it is unlinked, and the walk goes on below
      rw [if_pos haborted]
      obtain ⟨hr1, hdecided⟩ := hunlinked haborted
      obtain ⟨hinv', hkept', haddrs', hreleased', hdecided'⟩ := ih hr1 hinv
      refine ⟨hinv', hkept.trans hkept', List.Subset.trans haddrs' haddrs, hreleased',
        fun hcan hm hne => ?_⟩
      rw [hr] at hm
      rcases mem_cons.mp hm with rfl | hm
      · exact hdecided
      · exact hdecided' hcan (hr1 ▸ hm) hne
    rw [if_neg haborted]
    obtain ⟨hcommitted, helr⟩ := Bool.or_eq_false_iff.mp (Bool.not_eq_true _ ▸ htop)
    obtain ⟨rfl, rfl⟩ := Prod.mk.inj (hsame hcommitted helr (Bool.not_eq_true _ ▸ haborted))
    by_cases htx : n1.txId = ctx.txId
    · -- a node of the transaction itself
      rw [if_pos htx]
      have hothers := htx ▸ h.othersReleased_own hr
      exact ⟨h, .refl, List.Subset.refl _, fun _ => hothers,
        fun _ hm hne hu => hu.not_released (hothers _ hm hne).1⟩
    · -- locked by another transaction
      rw [if_neg htx]
      exact ⟨h, .refl, List.Subset.refl _, fun hcan => (by cases hcan),
        fun hcan => (by cases hcan)⟩

/-- A node on top of the row, over released ones. -/
theorem RowInv.push (h : RowInv cv t r) (haddr : n.addr ∉ r.nodes.map (·.addr))
    (hnew : n.isCommitted = false ∧ n.isElr = false ∧ n.isAborted = false)
    (hversion : n.transVersion = .maxScn) (hrun : (t n.txId).state = .running)
    (hothers : OthersReleased cv t n.txId r) (hle : r.maxVersion ≤ (cv n.txId).val) :
    RowInv cv t (r.push n) ∧ Kept cv t r t (r.push n) := by
  obtain ⟨hc, he, ha⟩ := hnew
  refine ⟨⟨h.valid_max, ?_, h.table⟩, le_rfl, fun {m} hm hv =>
    .inr ⟨m, mem_cons_of_mem _ hm, rfl, hv⟩⟩
  refine h.ordered.push haddr hc he ha hversion hrun fun m hm hne => ?_
  obtain ⟨hrel, hmax⟩ := hothers m hm hne
  exact ⟨hrel, hmax.trans hle, hmax⟩

/-- A write that succeeds has seen the versions of the other transactions. -/
theorem RowInv.mvccWrite_ok (h : RowInv cv ctx.txTable r) {checkExist : Bool}
    {res : ObMvccWriteResult} (hw : r.mvccWrite ctx n checkExist = (.ok (), r', res)) :
    (∀ m ∈ r.nodes, m.txId ≠ ctx.txId → ¬ Undecided ctx.txTable m ∧
      (HasVersion ctx.txTable m → (cv m.txId).val ≤ ctx.snapshotVersion.val)) ∧
    r.maxVersion ≤ ctx.snapshotVersion.val := by
  have hwalk := walked_findWritePos n.isLockNode {} rfl h
  obtain ⟨ret, r1, res1, heq, -, hok⟩ := mvccWrite_cases ctx r n checkExist
  obtain ⟨hret, -⟩ := Prod.mk.inj (hw.symm.trans heq)
  obtain ⟨hcan, hnewer⟩ := hok hret.symm
  have hle := maxVersion_le hwalk.inv.valid_max hnewer
  refine ⟨fun m hm hne => ⟨hwalk.decided hcan hm hne, fun hv => ?_⟩, hwalk.kept.max_le.trans hle⟩
  rcases hwalk.kept.nodes hm hv with hmax | ⟨m', hm', htx, -⟩
  · exact hmax.trans hle
  · have hmax := (hwalk.released hcan m' hm' (htx ▸ hne)).2
    rw [htx] at hmax
    exact hmax.trans hle

/-- A write keeps the invariant. -/
theorem RowInv.mvccWrite (h : RowInv cv ctx.txTable r) (htx : n.txId = ctx.txId)
    (haddr : n.addr ∉ r.nodes.map (·.addr))
    (hnew : n.isCommitted = false ∧ n.isElr = false ∧ n.isAborted = false)
    (hversion : n.transVersion = .maxScn) (hrun : (ctx.txTable ctx.txId).state = .running)
    (hsnapshot : ctx.snapshotVersion.val ≤ (cv ctx.txId).val) (checkExist : Bool) :
    RowInv cv ctx.txTable (r.mvccWrite ctx n checkExist).2.1 ∧
      Kept cv ctx.txTable r ctx.txTable (r.mvccWrite ctx n checkExist).2.1 := by
  have hwalk := walked_findWritePos n.isLockNode {} rfl h
  obtain ⟨ret, r1, res1, heq, hrow, hok⟩ := mvccWrite_cases ctx r n checkExist
  rw [heq]
  rcases hrow with rfl | rfl | ⟨rfl, hret⟩
  · exact ⟨h, .refl⟩
  · exact ⟨hwalk.inv, hwalk.kept⟩
  · obtain ⟨hcan, hnewer⟩ := hok hret
    have hle := maxVersion_le hwalk.inv.valid_max hnewer
    rw [← htx] at hrun hsnapshot
    have hothers := hwalk.released hcan
    rw [← htx] at hothers
    obtain ⟨hinv, hkept⟩ := hwalk.inv.push (fun ha => haddr (hwalk.addrs ha)) hnew hversion hrun
      hothers (hle.trans hsnapshot)
    exact ⟨hinv, hwalk.kept.trans hkept⟩

end Steps

/-! ### Runs -/

/-- A row and the transaction table. -/
structure TxRow (δ : Type) where
  table : ObTxTable
  row : ObMvccRow δ

/-- No transaction has ended, and the row is empty. -/
def TxRow.Initial (s : TxRow δ) : Prop :=
  (∀ T, (s.table T).state = .running) ∧ s.row = .reset

/-- How a transaction ends: by its commit, which an early release may precede, or its abort. -/
inductive EndStep : TxDataState → TxDataState → Prop
  | release : EndStep .running .elrCommit
  | commit : EndStep .running .commit
  | abort : EndStep .running .abort
  | commitReleased : EndStep .elrCommit .commit
  | abortReleased : EndStep .elrCommit .abort

theorem EndStep.not_ended {a b : TxDataState} (h : EndStep a b) : a ≠ .commit := by
  cases h <;> decide

theorem EndStep.ended {a b : TxDataState} (h : EndStep a b) : b ≠ .running := by
  cases h <;> decide

/-- What can happen to a row and to the transaction table. -/
inductive Act (cv : ObTransID → SCN) : TxRow δ → TxRow δ → Prop
  | write {s : TxRow δ} {ctx : ObStoreCtx} {node : ObMvccTransNode δ} (checkExist : Bool)
      (htable : ctx.txTable = s.table) (hrun : (s.table ctx.txId).state = .running)
      (hsnapshot : ctx.snapshotVersion.val ≤ (cv ctx.txId).val)
      (htx : node.txId = ctx.txId) (haddr : node.addr ∉ s.row.nodes.map (·.addr))
      (hnew : node.isCommitted = false ∧ node.isElr = false ∧ node.isAborted = false)
      (hversion : node.transVersion = .maxScn) :
      Act cv s ⟨s.table, (s.row.mvccWrite ctx node checkExist).2.1⟩
  /-- `mvcc_undo` of the node inserted last -/
  | undo {s : TxRow δ} {n : ObMvccTransNode δ} (hn : n ∈ s.row.nodes.head?)
      (hrun : (s.table n.txId).state = .running) : Act cv s ⟨s.table, s.row.mvccUndo⟩
  /-- `set_state` of the transaction data -/
  | endTx {s : TxRow δ} {T : ObTransID} {d : ObTxData} (hstate : EndStep (s.table T).state d.state)
      (hundo : d.undoStatusList = (s.table T).undoStatusList)
      (hversion : d.state = .commit → d.commitVersion = cv T) :
      Act cv s ⟨Function.update s.table T d, s.row⟩
  /-- a rollback to a savepoint, which `abortNode` and `cleanout` then write back -/
  | rollbackTo {s : TxRow δ} {T : ObTransID} (undo : ObUndoAction)
      (hrun : (s.table T).state = .running) :
      Act cv s ⟨Function.update s.table T
        { s.table T with undoStatusList := undo :: (s.table T).undoStatusList }, s.row⟩
  | commitNode {s : TxRow δ} {n : ObMvccTransNode δ} {r : ObMvccRow δ} (hn : n ∈ s.row.nodes)
      (hstate : (s.table n.txId).state = .commit)
      (hcommit : s.row.commitCallback (cv n.txId) n = .ok r) : Act cv s ⟨s.table, r⟩
  | abortNode {s : TxRow δ} {n : ObMvccTransNode δ} (hn : n ∈ s.row.nodes)
      (hstate : (s.table n.txId).state ≠ .commit) : Act cv s ⟨s.table, s.row.abortCallback n⟩
  | elr {s : TxRow δ} (T : ObTransID)
      (hstate : (s.table T).state = .elrCommit ∨ (s.table T).state = .commit) :
      Act cv s ⟨s.table, (s.row.elr T (cv T)).2⟩
  | cleanout {s : TxRow δ} {n : ObMvccTransNode δ} (hn : n ∈ s.row.nodes) :
      Act cv s ⟨s.table, (s.row.cleanoutTxNode s.table n).1⟩
  /-- a flag that does not decide the node is set or cleared, as by `remove_callback` -/
  | mark {s : TxRow δ} {n : ObMvccTransNode δ} {f : NodeFlag} (hn : n ∈ s.row.nodes)
      (hc : f.committed = n.flag.committed) (he : f.elr = n.flag.elr)
      (ha : f.aborted = n.flag.aborted) :
      Act cv s ⟨s.table, s.row.setNode { n with flag := f }⟩

instance (t : ObTxTable) (n : ObMvccTransNode δ) : Decidable (HasVersion t n) :=
  inferInstanceAs (Decidable (_ ∨ _))

/-- The versions committed or released early on the row. -/
def TxRow.versions (cv : ObTransID → SCN) (s : TxRow δ) : List SCN :=
  (s.row.nodes.filter fun n => HasVersion s.table n).map fun n => cv n.txId

/-- A step reports the versions on the row after it. -/
def Step (cv : ObTransID → SCN) (s : TxRow δ) (es : List SCN) (s' : TxRow δ) : Prop :=
  Act cv s s' ∧ es = s'.versions cv

section Runs

variable {cv : ObTransID → SCN} {s s' s₀ : TxRow δ} {es : List SCN}

/-- The data of a transaction that has not committed changes. -/
theorem RowInv.update {t : ObTxTable} {r : ObMvccRow δ} (h : RowInv cv t r) {T : ObTransID}
    {d : ObTxData} (hT : (t T).state ≠ .commit)
    (hactive : d.state = .running → (t T).state = .running)
    (hversion : d.state = .commit → d.commitVersion = cv T) :
    RowInv cv (Function.update t T d) r ∧ Kept cv t r (Function.update t T d) r := by
  have hcommit (U : ObTransID) (hU : (t U).state = .commit) : Function.update t T d U = t U := by
    refine update_of_ne ?_ _ _
    rintro rfl
    exact hT hU
  refine ⟨⟨h.valid_max, h.ordered.of_table (fun U hU => ?_) fun U hU => ?_, fun {U} hU => ?_⟩,
    le_rfl, fun {m} hm hv => .inr ⟨m, hm, rfl, ?_⟩⟩
  · rw [hcommit U hU]
    exact hU
  · by_cases heq : U = T
    · rw [heq, update_self] at hU
      rw [heq]
      exact hactive hU
    · rwa [update_of_ne heq] at hU
  · by_cases heq : U = T
    · rw [heq, update_self] at hU ⊢
      exact hversion hU
    · rw [update_of_ne heq] at hU ⊢
      exact h.table hU
  · refine hv.imp_right (Or.imp_right fun ⟨hstate, hroll⟩ => ?_)
    rw [hcommit _ hstate]
    exact ⟨hstate, hroll⟩

/-- **Every step** keeps the invariant, and loses no version. -/
theorem RowInv.act (hcv : ∀ T, (cv T).isValid = true) (h : RowInv cv s.table s.row)
    (hact : Act cv s s') : RowInv cv s'.table s'.row ∧ Kept cv s.table s.row s'.table s'.row := by
  cases hact with
  | write checkExist htable hrun hsnapshot htx haddr hnew hversion =>
    rw [← htable] at h hrun ⊢
    exact h.mvccWrite htx haddr hnew hversion hrun hsnapshot checkExist
  | @undo n hn hrun =>
    obtain ⟨ns, hr⟩ := head?_eq_some_iff.mp hn
    have hmem : n ∈ s.row.nodes := hr ▸ mem_cons_self
    have hundo : s.row.mvccUndo = { s.row with
        nodes := ns
        totalTransNodeCnt := s.row.totalTransNodeCnt - 1 } := by
      rw [mvccUndo, hr]
    rw [hundo]
    refine h.unlink hmem (without_cons hr h.ordered.nodup).symm h.valid_max le_rfl fun hv => ?_
    rcases hv with hv | hv | ⟨hstate, -⟩
    · exact h.ordered.le_max hmem (.inl hv)
    · exact h.ordered.le_max hmem (.inr hv)
    · simp [hrun] at hstate
  | @endTx T d hstate hundo hversion =>
    exact h.update hstate.not_ended (fun hrun => absurd hrun hstate.ended) hversion
  | @rollbackTo T undo hrun =>
    refine h.update (fun hcommit => ?_) (fun _ => hrun) fun hcommit => ?_
    · simp [hrun] at hcommit
    · simp [hrun] at hcommit
  | @commitNode n r hn hstate hcommit =>
    obtain ⟨r', hok, hmax, hnodes⟩ := commitCallback_eq hn (hcv n.txId)
    obtain rfl := Except.ok.inj (hok.symm.trans hcommit)
    obtain ⟨hvalid, hversion⟩ := hmax h.valid_max
    exact h.commit hn hstate hvalid hversion hnodes
  | @abortNode n hn hstate =>
    have hcommitted : n.isCommitted = false := by
      by_contra hc
      exact hstate (h.ordered.committed hn (by simpa using hc)).1
    rw [abortCallback_eq hn hcommitted (h.ordered.not_aborted hn)]
    refine h.unlink hn rfl h.valid_max le_rfl fun hv => ?_
    rcases hv with hv | hv | ⟨hv, -⟩
    · exact h.ordered.le_max hn (.inl hv)
    · exact h.ordered.le_max hn (.inr hv)
    · exact absurd hv hstate
  | elr T hstate =>
    refine h.elr hcv fun hrun => ?_
    rcases hstate with hT | hT <;> simp [hrun] at hT
  | cleanout hn => exact h.cleaned hn (cleaned_cleanoutTxNode hn)
  | @mark n f hn hc he ha =>
    refine ⟨⟨h.valid_max, h.ordered.mark hn hc he ha, h.table⟩, le_rfl, fun {m} hm hv => .inr ?_⟩
    by_cases haddr : m.addr = n.addr
    · refine ⟨_, mem_setNode hn rfl, ?_⟩
      rw [h.ordered.eq_of_addr hn hm haddr] at hv ⊢
      refine ⟨rfl, hv.imp (fun h' => ?_) (Or.imp_left fun h' => ?_)⟩
      · exact hc.trans h'
      · exact he.trans h'
    · exact ⟨m, mem_map.mpr ⟨m, hm, if_neg haddr⟩, rfl, hv⟩

/-- The version is recorded in the row, or its node is there. -/
def Recorded (cv : ObTransID → SCN) (s : TxRow δ) (v : SCN) : Prop :=
  v.val ≤ s.row.maxVersion ∨ ∃ m ∈ s.row.nodes, cv m.txId = v ∧ HasVersion s.table m

theorem rowInv_of_run (hcv : ∀ T, (cv T).isValid = true) (hinit : s₀.Initial)
    (hrun : Run (Step cv) s₀ es s) : RowInv cv s.table s.row ∧ ∀ v ∈ es, Recorded cv s v := by
  refine hrun.invariant (fun es s => RowInv cv s.table s.row ∧ ∀ v ∈ es, Recorded cv s v)
    (fun es b es' c ⟨hb, hes⟩ ⟨hact, hemit⟩ => ?_) ⟨?_, fun _ hv => absurd hv not_mem_nil⟩
  · obtain ⟨hc, hkept⟩ := hb.act hcv hact
    refine ⟨hc, fun v hv => ?_⟩
    rcases mem_append.mp hv with hv | hv
    · rcases hes v hv with hle | ⟨m, hm, rfl, hver⟩
      · exact .inl (hle.trans hkept.max_le)
      · refine (hkept.nodes hm hver).imp_right fun ⟨m', hm', htx, hver'⟩ => ?_
        exact ⟨m', hm', congrArg cv htx, hver'⟩
    · rw [hemit] at hv
      obtain ⟨m, hm, rfl⟩ := mem_map.mp hv
      obtain ⟨hm, hver⟩ := mem_filter.mp hm
      exact .inr ⟨m, hm, rfl, of_decide_eq_true hver⟩
  · obtain ⟨hrunning, hreset⟩ := hinit
    rw [hreset]
    have hmin : SCN.minScn.isValid = true := by decide
    refine ⟨⟨hmin, hmin⟩, ?_, fun {T} hT => ?_⟩
    · constructor
      · exact nodup_nil
      all_goals first
        | exact .nil
        | intros; exact absurd ‹_ ∈ reset.nodes› not_mem_nil
    · simp [hrunning T] at hT

/-- **No lost update.** In every state that is reached, the undecided nodes belong to one
transaction and lie above the committed nodes of the others, and committed versions do not increase
from the head on. -/
theorem no_lost_update (hcv : ∀ T, (cv T).isValid = true) (hinit : s₀.Initial)
    (hrun : Run (Step cv) s₀ es s) :
    (∀ n ∈ s.row.nodes, ∀ m ∈ s.row.nodes, Undecided s.table n → Undecided s.table m →
      n.txId = m.txId) ∧
    s.row.nodes.Pairwise (fun n m => n.isCommitted = true → Undecided s.table m →
      n.txId = m.txId) ∧
    s.row.nodes.Pairwise (fun n m => n.isCommitted = true → m.isCommitted = true →
      m.transVersion.val ≤ n.transVersion.val) ∧
    ∀ ctx node checkExist r' res, ctx.txTable = s.table →
      (s.table ctx.txId).state = .running →
      s.row.mvccWrite ctx node checkExist = (.ok (), r', res) →
      (∀ m ∈ s.row.nodes, m.txId ≠ ctx.txId → ¬ Undecided s.table m) ∧
        ∀ v ∈ es, v.val ≤ ctx.snapshotVersion.val := by
  obtain ⟨hinv, hrecorded⟩ := rowInv_of_run hcv hinit hrun
  have hbelow := hinv.ordered.below
  -- a node below one of another transaction is released
  have hundecided : s.row.nodes.Pairwise fun n m => Undecided s.table m → n.txId = m.txId := by
    refine hbelow.imp fun hr hu => ?_
    exact hr.resolve_right fun hr => hu.not_released hr.1
  refine ⟨?_, ?_, ?_, ?_⟩
  · let R (n m : ObMvccTransNode δ) : Prop :=
      Undecided s.table n → Undecided s.table m → n.txId = m.txId
    have : Std.Symm R := ⟨fun _ _ hr hm hn => (hr hn hm).symm⟩
    have hpw : s.row.nodes.Pairwise R := by
      apply hundecided.imp
      intro _ _ hr _
      exact hr
    exact fun n hn m hm => hpw.forall_of_forall (fun _ _ _ _ => rfl) hn hm
  · apply hundecided.imp
    intro _ _ hr _
    exact hr
  · refine hbelow.imp_of_mem fun {n m} hn hm hr hcn hcm => ?_
    rw [(hinv.ordered.committed hn hcn).2, (hinv.ordered.committed hm hcm).2]
    rcases hr with htx | ⟨-, hle, -⟩
    · rw [htx]
    · exact hle
  · intro ctx node checkExist r' res htable hactive hw
    rw [← htable] at hinv hactive
    obtain ⟨hothers, hmax⟩ := hinv.mvccWrite_ok hw
    rw [htable] at hothers hactive
    refine ⟨fun m hm hne => (hothers m hm hne).1, fun v hv => ?_⟩
    rcases hrecorded v hv with hle | ⟨m, hm, rfl, hver⟩
    · exact hle.trans hmax
    by_cases htx : m.txId = ctx.txId
    · -- what the transaction itself has written has no version yet
      have hflag : m.isCommitted = true ∨ m.isElr = true := by
        refine hver.imp_right fun hver => hver.resolve_right fun hc => ?_
        rw [htx, hactive] at hc
        cases hc.1
      exact (hinv.ordered.le_max hm hflag).trans hmax
    · exact (hothers m hm htx).2 hver

end Runs

/-! ### Two transactions -/

theorem five_le : 5 ≤ SCN.obMaxScnTsNs := by decide

/-- A write with snapshot 5. -/
def writeAt (t : ObTxTable) (T : ObTransID) : ObStoreCtx :=
  { txId := T
    snapshotVersion := .ofTs 5 five_le
    readerSeqNo := ⟨9⟩
    writeFlag := {}
    txTable := t }

/-- Transaction 1 has updated the row twice, its callbacks were removed, and it has committed. -/
def twiceUpdated : TxRow Unit :=
  ⟨oneCommitted, rowOf [(updateOf 2 1).removeCallback, (updateOf 1 1).removeCallback]⟩

theorem run_twiceUpdated : ∃ es, Run (Step fun _ => .ofTs 5 (by decide))
    ⟨allRunning, rowOf []⟩ es twiceUpdated ∧ SCN.ofTs 5 (by decide) ∈ es := by
  let cv : ObTransID → SCN := fun _ => .ofTs 5 (by decide)
  have h1 : Act cv ⟨allRunning, rowOf []⟩ ⟨allRunning, rowOf [updateOf 1 1]⟩ :=
    @Act.write _ _ ⟨allRunning, rowOf []⟩ (writeAt allRunning 1) (updateOf 1 1) false rfl rfl
      le_rfl rfl (by decide) ⟨rfl, rfl, rfl⟩ rfl
  have h2 : Act cv ⟨allRunning, rowOf [updateOf 1 1]⟩
      ⟨allRunning, rowOf [updateOf 2 1, updateOf 1 1]⟩ :=
    @Act.write _ _ ⟨allRunning, rowOf [updateOf 1 1]⟩ (writeAt allRunning 1) (updateOf 2 1)
      false rfl rfl le_rfl rfl (by decide) ⟨rfl, rfl, rfl⟩ rfl
  have h3 : Act cv ⟨allRunning, rowOf [updateOf 2 1, updateOf 1 1]⟩
      ⟨allRunning, rowOf [(updateOf 2 1).removeCallback, updateOf 1 1]⟩ :=
    @Act.mark _ _ ⟨allRunning, rowOf [updateOf 2 1, updateOf 1 1]⟩ (updateOf 2 1)
      { delayedCleanout := true } mem_cons_self rfl rfl rfl
  have h4 : Act cv ⟨allRunning, rowOf [(updateOf 2 1).removeCallback, updateOf 1 1]⟩
      ⟨allRunning, rowOf [(updateOf 2 1).removeCallback, (updateOf 1 1).removeCallback]⟩ :=
    @Act.mark _ _ ⟨allRunning, rowOf [(updateOf 2 1).removeCallback, updateOf 1 1]⟩
      (updateOf 1 1) { delayedCleanout := true } (mem_cons_of_mem _ mem_cons_self)
      rfl rfl rfl
  have h5 : Act cv
      ⟨allRunning, rowOf [(updateOf 2 1).removeCallback, (updateOf 1 1).removeCallback]⟩
      twiceUpdated :=
    Act.endTx .commit rfl fun _ => rfl
  exact ⟨_, ((((Run.nil.snoc ⟨h1, rfl⟩).snoc ⟨h2, rfl⟩).snoc ⟨h3, rfl⟩).snoc ⟨h4, rfl⟩).snoc
    ⟨h5, rfl⟩, mem_append_right _ (by decide)⟩

/-- Transaction 2 may write on top, as it has seen version 5. -/
theorem mvccWrite_twiceUpdated : ∃ r res, twiceUpdated.row.mvccWrite (writeAt oneCommitted 2)
    (updateOf 3 2) false = (.ok (), r, res) ∧
    r.nodes = [updateOf 3 2, ((updateOf 2 1).removeCallback).transCommit (.ofTs 5 (by decide)),
      (updateOf 1 1).removeCallback] :=
  ⟨_, _, rfl, rfl⟩

theorem no_lost_update_twiceUpdated : ∃ es, Run (Step fun _ => .ofTs 5 (by decide))
    ⟨allRunning, rowOf []⟩ es twiceUpdated ∧ SCN.ofTs 5 (by decide) ∈ es ∧
      (∀ m ∈ twiceUpdated.row.nodes, m.txId ≠ 2 → ¬ Undecided oneCommitted m) ∧
      ∀ v ∈ es, v.val ≤ 5 := by
  obtain ⟨es, hrun, hes⟩ := run_twiceUpdated
  obtain ⟨r, res, hw, -⟩ := mvccWrite_twiceUpdated
  have h := no_lost_update (fun _ => by decide) ⟨fun _ => rfl, rfl⟩ hrun
  exact ⟨es, hrun, hes, h.2.2.2 (writeAt oneCommitted 2) _ _ _ _ rfl rfl hw⟩

/-- The transaction table decides a node whose flags are still unset. -/
theorem undecided_below_committed : ∃ es es' s', Run (Step fun _ => .ofTs 5 (by decide))
    ⟨allRunning, rowOf []⟩ es twiceUpdated ∧
    (∃ r res, twiceUpdated.row.mvccWrite (writeAt oneCommitted 2) (updateOf 3 2) false =
      (.ok (), r, res) ∧ s' = ⟨oneCommitted, r⟩) ∧
    (∃ m ∈ twiceUpdated.row.nodes, m.txId ≠ 2 ∧
      m.isCommitted = false ∧ m.isElr = false ∧ m.isAborted = false) ∧
    Step (fun _ => .ofTs 5 (by decide)) twiceUpdated es' s' ∧
    ∃ n ∈ s'.row.nodes, ∃ m ∈ s'.row.nodes, n.txId ≠ m.txId ∧
      (n.isCommitted = false ∧ n.isElr = false ∧ n.isAborted = false) ∧
      (m.isCommitted = false ∧ m.isElr = false ∧ m.isAborted = false) := by
  obtain ⟨es, hrun, -⟩ := run_twiceUpdated
  obtain ⟨r, res, hw, hnodes⟩ := mvccWrite_twiceUpdated
  have hact := @Act.write _ (fun _ => .ofTs 5 (by decide)) twiceUpdated (writeAt oneCommitted 2)
    (updateOf 3 2) false rfl rfl le_rfl rfl (by decide) ⟨rfl, rfl, rfl⟩ rfl
  rw [hw] at hact
  refine ⟨es, _, ⟨oneCommitted, r⟩, hrun, ⟨r, res, hw, rfl⟩, ?_, ⟨hact, rfl⟩, ?_⟩
  · exact ⟨(updateOf 2 1).removeCallback, mem_cons_self, by decide, rfl, rfl, rfl⟩
  · show ∃ n ∈ r.nodes, ∃ m ∈ r.nodes, _
    rw [hnodes]
    exact ⟨updateOf 3 2, mem_cons_self, (updateOf 1 1).removeCallback, by simp, by decide,
      ⟨rfl, rfl, rfl⟩, rfl, rfl, rfl⟩

end Andl.Storage
