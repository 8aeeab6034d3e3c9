import Andl.Storage.Equiv.MvccRow

/-!
# The order of the versions of a row
-/

namespace Andl.Storage

open ObMvccRow List

variable {δ : Type}

/-! ### Decided nodes -/

/-- A node that does not lock the row any more. -/
def Released (t : ObTxTable) (n : ObMvccTransNode δ) : Prop :=
  n.isCommitted = true ∨ n.isElr = true ∨ (t n.txId).state = .commit

/-- A node that is neither flagged as committed, released early or aborted, nor decided by the
transaction table. -/
def Undecided (t : ObTxTable) (n : ObMvccTransNode δ) : Prop :=
  n.isCommitted = false ∧ n.isElr = false ∧ n.isAborted = false ∧ ¬ TableDecided t n

/-- A node whose version counts as committed, or released early, on the row. -/
def HasVersion (t : ObTxTable) (n : ObMvccTransNode δ) : Prop :=
  n.isCommitted = true ∨ n.isElr = true ∨ ((t n.txId).state = .commit ∧
    (t n.txId).undoStatusList.isContain n.seqNo = false)

theorem Undecided.not_released {t : ObTxTable} {n : ObMvccTransNode δ} (h : Undecided t n) :
    ¬ Released t n := by
  obtain ⟨hc, he, -, ht⟩ := h
  rintro (hr | hr | hr)
  · simp [hc] at hr
  · simp [he] at hr
  · exact ht (.inl hr)

/-! ### The invariant -/

/-- The versions of a row, up to the newest version `M`. -/
structure Ordered (cv : ObTransID → SCN) (t : ObTxTable) (nodes : List (ObMvccTransNode δ))
    (M : Nat) : Prop where
  nodup : (nodes.map (·.addr)).Nodup
  not_aborted {n : ObMvccTransNode δ} : n ∈ nodes → n.isAborted = false
  committed {n : ObMvccTransNode δ} : n ∈ nodes → n.isCommitted = true →
    (t n.txId).state = .commit ∧ n.transVersion = cv n.txId
  elr {n : ObMvccTransNode δ} : n ∈ nodes → n.isElr = true → (t n.txId).state ≠ .running
  version {n : ObMvccTransNode δ} : n ∈ nodes →
    n.transVersion = .maxScn ∨ n.transVersion = cv n.txId
  le_max {n : ObMvccTransNode δ} : n ∈ nodes → n.isCommitted = true ∨ n.isElr = true →
    (cv n.txId).val ≤ M
  elr_released {n m : ObMvccTransNode δ} : n ∈ nodes → n.isElr = true → m ∈ nodes →
    m.txId = n.txId → Released t m
  below : nodes.Pairwise fun n m => n.txId = m.txId ∨
    Released t m ∧ (cv m.txId).val ≤ (cv n.txId).val ∧ (cv m.txId).val ≤ M

namespace Ordered

variable {cv : ObTransID → SCN} {t t' : ObTxTable} {nodes : List (ObMvccTransNode δ)} {M M' : Nat}

section

variable (h : Ordered cv t nodes M)
include h

/-- Some nodes are unlinked. -/
theorem sublist {nodes' : List (ObMvccTransNode δ)}
    (hs : nodes'.Sublist nodes) : Ordered cv t nodes' M where
  nodup := h.nodup.sublist (hs.map _)
  not_aborted hn := h.not_aborted (hs.subset hn)
  committed hn := h.committed (hs.subset hn)
  elr hn := h.elr (hs.subset hn)
  version hn := h.version (hs.subset hn)
  le_max hn := h.le_max (hs.subset hn)
  elr_released hn he hm := h.elr_released (hs.subset hn) he (hs.subset hm)
  below := h.below.sublist hs

theorem mono (hle : M ≤ M') : Ordered cv t nodes M' where
  nodup := h.nodup
  not_aborted := h.not_aborted
  committed := h.committed
  elr := h.elr
  version := h.version
  le_max hn hf := (h.le_max hn hf).trans hle
  elr_released := h.elr_released
  below := h.below.imp fun hr => hr.imp_right fun ⟨h1, h2, h3⟩ => ⟨h1, h2, h3.trans hle⟩

theorem of_table (hcommit : ∀ T, (t T).state = .commit → (t' T).state = .commit)
    (hactive : ∀ T, (t' T).state = .running → (t T).state = .running) : Ordered cv t' nodes M := by
  have hreleased {m : ObMvccTransNode δ} (hm : Released t m) : Released t' m :=
    hm.imp_right (Or.imp_right (hcommit _))
  exact
    { nodup := h.nodup
      not_aborted := h.not_aborted
      committed := fun hn hc => ⟨hcommit _ (h.committed hn hc).1, (h.committed hn hc).2⟩
      elr := fun hn he hrun => h.elr hn he (hactive _ hrun)
      version := h.version
      le_max := h.le_max
      elr_released := fun hn he hm htx => hreleased (h.elr_released hn he hm htx)
      below := h.below.imp fun hr => hr.imp_right fun ⟨h1, h2⟩ => ⟨hreleased h1, h2⟩ }

/-- Nodes are changed in place, without becoming less decided. -/
theorem map {g : ObMvccTransNode δ → ObMvccTransNode δ}
    (haddr : ∀ m ∈ nodes, (g m).addr = m.addr) (htx : ∀ m ∈ nodes, (g m).txId = m.txId)
    (hreleased : ∀ m ∈ nodes, Released t m → Released t (g m))
    (haborted : ∀ m ∈ nodes, (g m).isAborted = false)
    (hcommitted : ∀ m ∈ nodes, (g m).isCommitted = true →
      (t m.txId).state = .commit ∧ (g m).transVersion = cv m.txId)
    (helr : ∀ m ∈ nodes, (g m).isElr = true → (t m.txId).state ≠ .running ∧
      ∀ m' ∈ nodes, m'.txId = m.txId → Released t (g m'))
    (hversion : ∀ m ∈ nodes, (g m).transVersion = .maxScn ∨ (g m).transVersion = cv m.txId)
    (hmax : ∀ m ∈ nodes, (g m).isCommitted = true ∨ (g m).isElr = true →
      (cv m.txId).val ≤ M) : Ordered cv t (nodes.map g) M where
  nodup := by
    have hmap : (nodes.map g).map (·.addr) = nodes.map (·.addr) := by
      rw [map_map]
      exact map_congr_left haddr
    rw [hmap]
    exact h.nodup
  not_aborted hn := by
    obtain ⟨m, hm, rfl⟩ := mem_map.mp hn
    exact haborted m hm
  committed hn hc := by
    obtain ⟨m, hm, rfl⟩ := mem_map.mp hn
    rw [htx m hm]
    exact hcommitted m hm hc
  elr hn he := by
    obtain ⟨m, hm, rfl⟩ := mem_map.mp hn
    rw [htx m hm]
    exact (helr m hm he).1
  version hn := by
    obtain ⟨m, hm, rfl⟩ := mem_map.mp hn
    rw [htx m hm]
    exact hversion m hm
  le_max hn hf := by
    obtain ⟨m, hm, rfl⟩ := mem_map.mp hn
    rw [htx m hm]
    exact hmax m hm hf
  elr_released hn he hn' heq := by
    obtain ⟨m, hm, rfl⟩ := mem_map.mp hn
    obtain ⟨m', hm', rfl⟩ := mem_map.mp hn'
    rw [htx m hm, htx m' hm'] at heq
    exact (helr m hm he).2 m' hm' heq
  below := by
    refine pairwise_map.mpr (h.below.imp_of_mem fun hn hm hr => ?_)
    rw [htx _ hn, htx _ hm]
    exact hr.imp_right fun ⟨h1, h2⟩ => ⟨hreleased _ hm h1, h2⟩

theorem eq_of_addr {n m : ObMvccTransNode δ} (hn : n ∈ nodes)
    (hm : m ∈ nodes) (haddr : m.addr = n.addr) : m = n :=
  inj_on_of_nodup_map h.nodup hm hn haddr

/-- One node is changed in place. -/
theorem set {n n' : ObMvccTransNode δ} (hn : n ∈ nodes) (haddr : n'.addr = n.addr)
    (htx : n'.txId = n.txId) (hreleased : Released t n → Released t n')
    (haborted : n'.isAborted = false)
    (hcommitted : n'.isCommitted = true → (t n.txId).state = .commit ∧ n'.transVersion = cv n.txId)
    (helr : n'.isElr = n.isElr) (hversion : n'.transVersion = .maxScn ∨ n'.transVersion = cv n.txId)
    (hmax : n'.isCommitted = true ∨ n'.isElr = true → (cv n.txId).val ≤ M) :
    Ordered cv t (nodes.map fun m => if m.addr = n.addr then n' else m) M := by
  -- a property of the new node and of the others
  have hset {P : ObMvccTransNode δ → ObMvccTransNode δ → Prop} (hnew : P n n')
      (hold : ∀ m ∈ nodes, P m m) :
      ∀ m ∈ nodes, P m (if m.addr = n.addr then n' else m) := by
    intro m hm
    split_ifs with heq
    · rw [h.eq_of_addr hn hm heq]
      exact hnew
    · exact hold m hm
  have hreleased' : ∀ m ∈ nodes, Released t m →
      Released t (if m.addr = n.addr then n' else m) :=
    hset (P := fun m m' => Released t m → Released t m') hreleased fun _ _ => id
  refine h.map (hset (P := fun m m' => m'.addr = m.addr) haddr fun _ _ => rfl)
    (hset (P := fun m m' => m'.txId = m.txId) htx fun _ _ => rfl) hreleased'
    (hset (P := fun _ m' => m'.isAborted = false) haborted fun _ => h.not_aborted)
    (hset (P := fun m m' => m'.isCommitted = true →
      (t m.txId).state = .commit ∧ m'.transVersion = cv m.txId) hcommitted fun _ => h.committed)
    (fun m hm he => ?_)
    (hset (P := fun m m' => m'.transVersion = .maxScn ∨ m'.transVersion = cv m.txId) hversion
      fun _ => h.version)
    (hset (P := fun m m' => m'.isCommitted = true ∨ m'.isElr = true → (cv m.txId).val ≤ M) hmax
      fun _ => h.le_max)
  have hm_elr : m.isElr = true := by
    have hsame := hset (P := fun m m' => m'.isElr = m.isElr) helr (fun _ _ => rfl) m hm
    rw [← hsame]
    exact he
  exact ⟨h.elr hm hm_elr,
    fun m' hm' heq => hreleased' m' hm' (h.elr_released hm hm_elr hm' heq)⟩

/-- A node is committed. -/
theorem commit {n : ObMvccTransNode δ} (hn : n ∈ nodes)
    (hstate : (t n.txId).state = .commit) (hle : (cv n.txId).val ≤ M) :
    Ordered cv t
      (nodes.map fun m => if m.addr = n.addr then n.transCommit (cv n.txId) else m) M :=
  have haborted : n.isAborted = false := h.not_aborted hn
  h.set hn rfl rfl (fun _ => .inl rfl) haborted (fun _ => ⟨hstate, rfl⟩) rfl (.inr rfl)
    fun _ => hle

end

/-- A flag that does not decide a node is set or cleared. -/
theorem mark (h : Ordered cv t nodes M) {n : ObMvccTransNode δ} (hn : n ∈ nodes) {f : NodeFlag}
    (hc : f.committed = n.flag.committed) (he : f.elr = n.flag.elr)
    (ha : f.aborted = n.flag.aborted) :
    Ordered cv t (nodes.map fun m => if m.addr = n.addr then { n with flag := f } else m) M := by
  have hcommitted : ObMvccTransNode.isCommitted { n with flag := f } = n.isCommitted := hc
  have helr : ObMvccTransNode.isElr { n with flag := f } = n.isElr := he
  have haborted : ObMvccTransNode.isAborted { n with flag := f } = n.isAborted := ha
  have hversion := h.version hn
  refine h.set hn rfl rfl ?_ ?_ ?_ helr hversion ?_
  · intro hr
    rw [Released, hcommitted, helr]
    exact hr
  · rw [haborted]
    exact h.not_aborted hn
  · rw [hcommitted]
    exact h.committed hn
  · rw [hcommitted, helr]
    exact h.le_max hn

/-- A node is put on top. -/
theorem push (h : Ordered cv t nodes M) {n : ObMvccTransNode δ}
    (haddr : n.addr ∉ nodes.map (·.addr))
    (hc : n.isCommitted = false) (he : n.isElr = false) (ha : n.isAborted = false)
    (hversion : n.transVersion = .maxScn) (hrun : (t n.txId).state = .running)
    (hbelow : ∀ m ∈ nodes, m.txId ≠ n.txId → Released t m ∧
      (cv m.txId).val ≤ (cv n.txId).val ∧ (cv m.txId).val ≤ M) :
    Ordered cv t (n :: nodes) M where
  nodup := nodup_cons.mpr ⟨haddr, h.nodup⟩
  not_aborted hm := by
    rcases mem_cons.mp hm with rfl | hm
    · exact ha
    · exact h.not_aborted hm
  committed hm hcm := by
    rcases mem_cons.mp hm with rfl | hm
    · simp [hc] at hcm
    · exact h.committed hm hcm
  elr hm hem := by
    rcases mem_cons.mp hm with rfl | hm
    · simp [he] at hem
    · exact h.elr hm hem
  version hm := by
    rcases mem_cons.mp hm with rfl | hm
    · exact .inl hversion
    · exact h.version hm
  le_max hm hf := by
    rcases mem_cons.mp hm with rfl | hm
    · simp [hc, he] at hf
    · exact h.le_max hm hf
  elr_released := by
    intro x y hx hex hy heq
    rcases mem_cons.mp hx with rfl | hx'
    · simp [he] at hex
    rcases mem_cons.mp hy with rfl | hy'
    · -- an active transaction has released nothing
      rw [heq] at hrun
      exact absurd hrun (h.elr hx' hex)
    · exact h.elr_released hx' hex hy' heq
  below := by
    refine pairwise_cons.mpr ⟨fun m hm => ?_, h.below⟩
    by_cases heq : n.txId = m.txId
    · exact .inl heq
    · exact .inr (hbelow m hm (Ne.symm heq))

/-- The nodes of a transaction on top are released early. -/
theorem release {T : ObTransID} {pre post : List (ObMvccTransNode δ)}
    (h : Ordered cv t (pre ++ post) M) (hpre : ∀ n ∈ pre, n.txId = T)
    (hpost : ∀ n ∈ post.head?, n.txId ≠ T) (hstate : (t T).state ≠ .running)
    (hle : (cv T).val ≤ M) : Ordered cv t (pre.map (·.setElr (cv T)) ++ post) M := by
  let g : ObMvccTransNode δ → ObMvccTransNode δ := fun m =>
    if m.addr ∈ pre.map (·.addr) then m.setElr (cv T) else m
  have hg_pre {m : ObMvccTransNode δ} (hm : m ∈ pre) : g m = m.setElr (cv T) :=
    if_pos (mem_map_of_mem hm)
  have hg_post {m : ObMvccTransNode δ} (hm : m ∈ post) : g m = m := by
    refine if_neg fun hmem => ?_
    obtain ⟨n, hn, haddr⟩ := mem_map.mp hmem
    have heq := h.eq_of_addr (mem_append_right _ hm) (mem_append_left _ hn) haddr
    have hdisj := (nodup_append.mp h.nodup.of_map).2.2
    exact hdisj n hn m hm heq
  have hmap : (pre ++ post).map g = pre.map (·.setElr (cv T)) ++ post := by
    rw [map_append]
    congr 1
    · exact map_congr_left fun m hm => hg_pre hm
    · exact (map_congr_left fun m hm => hg_post hm).trans (map_id _)
  -- below another transaction, the nodes of the transaction were released before
  have hbelow {m : ObMvccTransNode δ} (hm : m ∈ post) (htx : m.txId = T) : Released t m := by
    have hpw := (h.sublist (sublist_append_right pre post)).below
    cases post with
    | nil => exact absurd hm not_mem_nil
    | cons x post =>
      have hx : x.txId ≠ T := hpost x rfl
      rcases mem_cons.mp hm with rfl | hm
      · exact absurd htx hx
      · rcases (pairwise_cons.mp hpw).1 m hm with heq | hr
        · exact absurd (heq.trans htx) hx
        · exact hr.1
  have hreleased : ∀ m ∈ pre ++ post, Released t m → Released t (g m) := by
    intro m hm hr
    rcases mem_append.mp hm with hm | hm
    · rw [hg_pre hm]
      exact .inr (.inl rfl)
    · rwa [hg_post hm]
  have hall : ∀ m ∈ pre ++ post, m.txId = T → Released t (g m) := by
    intro m hm htx
    rcases mem_append.mp hm with hm' | hm'
    · rw [hg_pre hm']
      exact .inr (.inl rfl)
    · exact hreleased m hm (hbelow hm' htx)
  rw [← hmap]
  refine h.map ?_ ?_ hreleased ?_ ?_ ?_ ?_ ?_
  all_goals intro m hm
  all_goals rcases mem_append.mp hm with hm' | hm'
  · rw [hg_pre hm']
    rfl
  · rw [hg_post hm']
  · rw [hg_pre hm']
    rfl
  · rw [hg_post hm']
  · rw [hg_pre hm']
    exact h.not_aborted (n := m) hm
  · rw [hg_post hm']
    exact h.not_aborted hm
  · rw [hg_pre hm']
    intro hc
    rw [hpre m hm']
    exact ⟨hpre m hm' ▸ (h.committed (n := m) hm hc).1, rfl⟩
  · rw [hg_post hm']
    exact h.committed hm
  · rw [hpre m hm']
    exact fun _ => ⟨hstate, hall⟩
  · rw [hg_post hm']
    exact fun he => ⟨h.elr hm he, fun m' hm'' heq =>
      hreleased m' hm'' (h.elr_released hm he hm'' heq)⟩
  · rw [hg_pre hm', hpre m hm']
    exact .inr rfl
  · rw [hg_post hm']
    exact h.version hm
  · rw [hpre m hm']
    exact fun _ => hle
  · rw [hg_post hm']
    exact h.le_max hm

end Ordered

end Andl.Storage
