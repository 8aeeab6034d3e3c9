import Andl.Container.Equiv.PlacementHashSet
import Andl.TableLock.ObjLock

/-!
# Which transactions a lock conflict reports
-/

namespace Andl.TableLock

open List

open Andl.Storage (ObTransID)
open Andl.Container (ObIteratableHashSet)

/-! ### The modes -/

/-- The lock compatibility matrix of `ob_table_lock_common.h`; the mode of no lock is compatible
with all. -/
def compatible : ObTableLockMode → ObTableLockMode → Bool
  | .noLock, _ => true
  | _, .noLock => true
  | .rowShare, m => m ≠ .exclusive
  | .rowExclusive, m => m = .rowShare ∨ m = .rowExclusive
  | .share, m => m = .rowShare ∨ m = .share
  | .shareRowExclusive, m => m = .rowShare
  | .exclusive, _ => false

/-- The union of the modes that are held. -/
def heldModes (held : Fin tableLockModeCount → Bool) : ℕ :=
  (List.finRange tableLockModeCount).foldl
    (fun modes i => modes ||| if held i then (getLockModeByIndex i).bits else 0) 0

/-- The lists that `get_tx_id_set_` looks at. -/
def lookedAt (conflictModes : ℕ) (i : Fin tableLockModeCount) : Bool :=
  ((getLockModeByIndex i).bits &&& conflictModes) = (getLockModeByIndex i).bits

/-- The mode of a list that is looked at is incompatible with the request. -/
theorem incompatible_of_lookedAt (held : Fin tableLockModeCount → Bool) (m : ObTableLockMode)
    (i : Fin tableLockModeCount) (h : lookedAt (requestLock (heldModes held) m.bits).2 i = true) :
    compatible (getLockModeByIndex i) m = false := by
  have hbits : heldModes held = heldModes ![held 0, held 1, held 2, held 3, held 4] := rfl
  rw [hbits] at h
  generalize held 0 = b0, held 1 = b1, held 2 = b2, held 3 = b3, held 4 = b4 at h
  cases m <;> revert b0 b1 b2 b3 b4 i <;> decide

theorem lookedAt_of_exclusive (held : Fin tableLockModeCount → Bool) (m : ObTableLockMode)
    (hheld : held 0 = true) (hne : (requestLock (heldModes held) m.bits).2 ≠ 0) :
    (requestLock (heldModes held) m.bits).2 = ObTableLockMode.exclusive.bits := by
  have hbits : heldModes held = heldModes ![held 0, held 1, held 2, held 3, held 4] := rfl
  rw [hbits, hheld] at hne ⊢
  generalize held 1 = b1, held 2 = b2, held 3 = b3, held 4 = b4 at hne ⊢
  cases m <;> revert b1 b2 b3 b4 <;> decide

theorem lookedAt_of_held (held : Fin tableLockModeCount → Bool) (m : ObTableLockMode)
    (i : Fin tableLockModeCount) (h0 : held 0 = false) (hi : held i = true)
    (hm : compatible (getLockModeByIndex i) m = false) :
    lookedAt (requestLock (heldModes held) m.bits).2 i =
      !decide (getLockModeByIndex i = .shareRowExclusive ∧ (m = .rowExclusive ∨ m = .share)) := by
  have hbits : heldModes held = heldModes ![held 0, held 1, held 2, held 3, held 4] := rfl
  have hi' : ![held 0, held 1, held 2, held 3, held 4] i = true := by
    rw [← hi]
    fin_cases i <;> rfl
  clear hi
  rw [hbits, h0]
  rw [h0] at hi'
  generalize held 1 = b1, held 2 = b2, held 3 = b3, held 4 = b4 at hi' ⊢
  cases m <;> revert b1 b2 b3 b4 i <;> decide

/-! ### The set -/

section Collect

variable {hash : ObTransID → ℕ}

/-- The transactions of a list other than the requesting one, in the order of their operations. -/
def otherTxs (myselfTx : ObTransID) (opList : ObTableLockOpList) : List ObTransID :=
  (opList.map (·.lockOp.createTransId)).filter (myselfTx ≠ ·)

theorem mem_otherTxs {myselfTx t : ObTransID} {opList : ObTableLockOpList} :
    t ∈ otherTxs myselfTx opList ↔
      ∃ node ∈ opList, node.lockOp.createTransId = t ∧ t ≠ myselfTx := by
  simp only [otherTxs, mem_filter, mem_map, decide_eq_true_eq, ne_comm]
  constructor
  · rintro ⟨⟨node, hnode, rfl⟩, hne⟩
    exact ⟨node, hnode, rfl, hne⟩
  · rintro ⟨node, hnode, rfl, hne⟩
    exact ⟨⟨node, hnode, rfl⟩, hne⟩

/-- The set after transactions were offered to it. -/
structure Collected (hash : ObTransID → ℕ) (txs : List ObTransID) (s : ObTxIDSet)
    (r : ObTxIDSet × ObResult Unit) : Prop where
  sound : r.1.Sound hash
  mem : ∀ t ∈ r.1.list, t ∈ s.list ∨ t ∈ txs
  keeps : ∀ t ∈ s.list, t ∈ r.1.list
  all : r.2 = .ok () → ∀ t ∈ txs, t ∈ r.1.list
  full : r.2 ≠ .ok () → r.1.list.length = 16 ∧ ∃ t ∈ txs, t ∉ r.1.list

variable {s : ObTxIDSet}

theorem Collected.nil (h : s.Sound hash) : Collected hash [] s (s, .ok ()) where
  sound := h
  mem := fun _ ht => .inl ht
  keeps := fun _ ht => ht
  all := fun _ _ ht => absurd ht not_mem_nil
  full := fun hne => absurd rfl hne

/-- First some transactions, all of which go in, then others. -/
theorem Collected.trans {txs txs' : List ObTransID} {s' : ObTxIDSet} {r : ObTxIDSet × ObResult Unit}
    (h : Collected hash txs s (s', .ok ())) (h' : Collected hash txs' s' r) :
    Collected hash (txs ++ txs') s r where
  sound := h'.sound
  mem := by
    intro t ht
    rw [mem_append]
    rcases h'.mem t ht with ht | ht
    · rcases h.mem t ht with ht | ht
      · exact .inl ht
      · exact .inr (.inl ht)
    · exact .inr (.inr ht)
  keeps := fun t ht => h'.keeps t (h.keeps t ht)
  all := by
    intro hok t ht
    rcases mem_append.mp ht with ht | ht
    · exact h'.keeps t (h.all rfl t ht)
    · exact h'.all hok t ht
  full := by
    intro hne
    obtain ⟨hlen, t, ht, hnot⟩ := h'.full hne
    exact ⟨hlen, t, mem_append_right _ ht, hnot⟩

/-- The collection ends at an error. -/
theorem Collected.error {txs : List ObTransID} {s' : ObTxIDSet} {e : ObError}
    (h : Collected hash txs s (s', .error e)) (txs' : List ObTransID) :
    Collected hash (txs ++ txs') s (s', .error e) where
  sound := h.sound
  mem := by
    intro t ht
    rcases h.mem t ht with ht | ht
    · exact .inl ht
    · exact .inr (mem_append_left _ ht)
  keeps := h.keeps
  all := by
    intro hok
    cases hok
  full := by
    intro hne
    obtain ⟨hlen, t, ht, hnot⟩ := h.full hne
    exact ⟨hlen, t, mem_append_left _ ht, hnot⟩

/-- One transaction is offered. -/
theorem collected_one (h : s.Sound hash) (t : ObTransID) :
    Collected hash [t] s
      (match s.setRefactored hash t with
        | .ok s' => (s', .ok ())
        | .error .hashExist => (s, .ok ())
        | .error e => (s, .error e)) := by
  by_cases hmem : t ∈ s.list
  · rw [ObIteratableHashSet.setRefactored_of_mem h hmem]
    exact ⟨h, fun _ ht => .inl ht, fun _ ht => ht,
      fun _ x hx => mem_singleton.mp hx ▸ hmem, fun hne => absurd rfl hne⟩
  · rcases Nat.lt_or_ge s.list.length 16 with hlt | hge
    · obtain ⟨s', hs', hlist, hsound⟩ := ObIteratableHashSet.setRefactored_of_lt h hmem hlt
      rw [hs']
      refine ⟨hsound, fun x hx => ?_, fun x hx => ?_, fun _ x hx => ?_, fun hne => absurd rfl hne⟩
      · rw [hlist] at hx
        exact mem_append.mp hx
      · rw [hlist]
        exact mem_append_left _ hx
      · rw [hlist]
        exact mem_append_right _ hx
    · have hlen : s.list.length = 16 := Nat.le_antisymm h.length_le hge
      rw [ObIteratableHashSet.setRefactored_of_full h hmem hlen]
      exact ⟨h, fun _ ht => .inl ht, fun _ ht => ht, fun hok => (by cases hok),
        fun _ => ⟨hlen, t, mem_singleton_self t, hmem⟩⟩

theorem otherTxs_cons (myselfTx : ObTransID) (curr : ObTableLockOpLinkNode)
    (rest : ObTableLockOpList) :
    otherTxs myselfTx (curr :: rest) =
      (if myselfTx ≠ curr.lockOp.createTransId then [curr.lockOp.createTransId] else []) ++
        otherTxs myselfTx rest := by
  by_cases h : myselfTx = curr.lockOp.createTransId
  · simp [otherTxs, h]
  · simp [otherTxs, h]

/-- **The operations of one list**, finished transactions included. -/
theorem getTxIdSetFromList_spec (h : s.Sound hash) (myselfTx : ObTransID)
    (opList : ObTableLockOpList) :
    Collected hash (otherTxs myselfTx opList) s
      (getTxIdSetFromList hash myselfTx true opList s) := by
  induction opList generalizing s with
  | nil => exact .nil h
  | cons curr rest ih =>
    rw [otherTxs_cons, getTxIdSetFromList]
    by_cases hme : myselfTx = curr.lockOp.createTransId
    · simp only [hme, ne_eq, not_true_eq_false, and_false, if_false, nil_append]
      rw [← hme]
      exact ih h
    · have hone := collected_one h curr.lockOp.createTransId
      simp only [ne_eq, hme, not_false_eq_true, true_or, and_self, if_true]
      cases hset : s.setRefactored hash curr.lockOp.createTransId with
      | ok s' =>
        rw [hset] at hone
        exact hone.trans (ih hone.sound)
      | error e =>
        rw [hset] at hone
        by_cases he : e = .hashExist
        · subst he
          exact hone.trans (ih h)
        · cases e <;> first | exact absurd rfl he | exact hone.error _

/-- The transactions of the lists that are looked at. -/
def lookedAtTxs (obj : ObOBJLock) (myselfTx : ObTransID) (conflictModes : ℕ)
    (is : List (Fin tableLockModeCount)) : List ObTransID :=
  (is.filter (lookedAt conflictModes)).flatMap fun i => otherTxs myselfTx ((obj.map i).getD [])

theorem getTxIdSetLoop_spec (h : s.Sound hash) (obj : ObOBJLock) (myselfTx : ObTransID)
    (conflictModes : ℕ) (is : List (Fin tableLockModeCount)) :
    Collected hash (lookedAtTxs obj myselfTx conflictModes is) s
      (getTxIdSetLoop obj hash myselfTx conflictModes true is s) := by
  induction is generalizing s with
  | nil => exact .nil h
  | cons i rest ih =>
    rw [getTxIdSetLoop]
    by_cases hi : ((getLockModeByIndex i).bits &&& conflictModes) = (getLockModeByIndex i).bits
    · have htxs : lookedAtTxs obj myselfTx conflictModes (i :: rest) =
          otherTxs myselfTx ((obj.map i).getD []) ++
            lookedAtTxs obj myselfTx conflictModes rest := by
        simp [lookedAtTxs, lookedAt, hi]
      have hlist := getTxIdSetFromList_spec h myselfTx ((obj.map i).getD [])
      rw [htxs]
      simp only [hi, if_true]
      generalize getTxIdSetFromList hash myselfTx true ((obj.map i).getD []) s = r at hlist ⊢
      obtain ⟨s', _ | _⟩ := r
      · exact hlist.error _
      · exact hlist.trans (ih hlist.sound)
    · have htxs : lookedAtTxs obj myselfTx conflictModes (i :: rest) =
          lookedAtTxs obj myselfTx conflictModes rest := by
        simp [lookedAtTxs, lookedAt, hi]
      rw [htxs]
      simp only [hi, if_false]
      exact ih h

/-- The set collects the transactions of every list that is looked at, up to 16. -/
theorem getTxIdSet_spec (obj : ObOBJLock) (hash : ObTransID → ℕ) (myselfTx : ObTransID)
    (conflictModes : ℕ) :
    Collected hash
      (lookedAtTxs obj myselfTx conflictModes (List.finRange tableLockModeCount)) .empty
      (obj.getTxIdSet hash myselfTx conflictModes true) :=
  getTxIdSetLoop_spec (ObIteratableHashSet.sound_empty hash) obj myselfTx conflictModes _

end Collect

/-! ### The report -/

/-- The recorded operations of other transactions whose mode is incompatible with the request. -/
def ObOBJLock.blockers (obj : ObOBJLock) (lockOp : ObTableLockOp) : ObTableLockOpList :=
  (List.finRange tableLockModeCount).flatMap fun i =>
    ((obj.map i).getD []).filter fun node =>
      node.lockOp.createTransId ≠ lockOp.createTransId ∧
        compatible node.lockOp.lockMode lockOp.lockMode = false

/-- The locks of the requesting transaction that an operation of a list, or a count of the unnamed
locks of its mode, stands for. -/
def ObOBJLock.ownLocks (obj : ObOBJLock) (transId : ObTransID) (i : Fin tableLockModeCount) : ℕ :=
  ((obj.map i).getD []).countP (·.lockOp.createTransId = transId) +
    obj.unnamed (getLockModeByIndex i)

section Report

variable {obj : ObOBJLock} {lockOp : ObTableLockOp}

theorem ObOBJLock.mem_blockers {node : ObTableLockOpLinkNode} :
    node ∈ obj.blockers lockOp ↔ ∃ i, node ∈ (obj.map i).getD [] ∧
      node.lockOp.createTransId ≠ lockOp.createTransId ∧
      compatible (getLockModeByIndex i) lockOp.lockMode = false := by
  simp only [ObOBJLock.blockers, mem_flatMap, mem_finRange, true_and, mem_filter,
    decide_eq_true_eq]
  constructor
  · rintro ⟨i, hnode, hne, hm⟩
    rw [obj.own_mode i node hnode] at hm
    exact ⟨i, hnode, hne, hm⟩
  · rintro ⟨i, hnode, hne, hm⟩
    rw [← obj.own_mode i node hnode] at hm
    exact ⟨i, hnode, hne, hm⟩

/-- The transactions of the lists that are looked at. -/
theorem mem_lookedAtTxs {conflictModes : ℕ} {t : ObTransID} :
    t ∈ lookedAtTxs obj lockOp.createTransId conflictModes (List.finRange tableLockModeCount) ↔
      ∃ i, lookedAt conflictModes i = true ∧ ∃ node ∈ (obj.map i).getD [],
        node.lockOp.createTransId = t ∧ t ≠ lockOp.createTransId := by
  simp only [lookedAtTxs, mem_flatMap, mem_filter, mem_finRange, true_and,
    mem_otherTxs]

/-- A list with an operation of another transaction counts. -/
theorem lockModeCnt_pos {cnt : Fin tableLockModeCount → ℕ} {checkForReplace : Bool}
    {i : Fin tableLockModeCount} {node : ObTableLockOpLinkNode}
    (hown : cnt i ≤ obj.ownLocks lockOp.createTransId i)
    (hreplace : obj.isListReplaced
      (obj.listSize i + obj.unnamed (getLockModeByIndex i) - cnt i) lockOp.createTransId
      checkForReplace i = false)
    (hnode : node ∈ (obj.map i).getD [])
    (hne : node.lockOp.createTransId ≠ lockOp.createTransId) :
    0 < obj.lockModeCnt cnt lockOp.createTransId checkForReplace i := by
  rw [ObOBJLock.lockModeCnt, hreplace]
  have hlt : ((obj.map i).getD []).countP (·.lockOp.createTransId = lockOp.createTransId) <
      ((obj.map i).getD []).length := by
    rw [countP_lt_length_iff]
    exact ⟨node, hnode, by simpa using hne⟩
  simp only [ObOBJLock.ownLocks] at hown
  simp only [ObOBJLock.listSize, Bool.false_eq_true, if_false]
  omega

/-- The modes that count are those of `get_other_trans_lock_mode_`. -/
theorem getOtherTransLockMode_eq (cnt : Fin tableLockModeCount → ℕ) (transId : ObTransID)
    (checkForReplace : Bool) :
    obj.getOtherTransLockMode cnt transId checkForReplace =
      heldModes fun i => decide (0 < obj.lockModeCnt cnt transId checkForReplace i) := by
  simp only [ObOBJLock.getOtherTransLockMode, heldModes, decide_eq_true_eq]

/-- There is no conflict without a conflicting elementary lock. -/
theorem existOthers_zero : obj.existOthers lockOp 0 = false := by
  simp [ObOBJLock.existOthers]

theorem existOthers_exclusive (h : obj.existOthers lockOp ObTableLockMode.exclusive.bits = true) :
    ∃ node ∈ (obj.map 0).getD [], node.lockOp.createTransId ≠ lockOp.createTransId := by
  have hshare : ¬(ObTableLockMode.rowShare.bits &&& ObTableLockMode.exclusive.bits ≠ 0 ∧
      obj.rowShare ≠ 0) := fun hc => hc.1 (by decide)
  have hrow : ¬(ObTableLockMode.rowExclusive.bits &&& ObTableLockMode.exclusive.bits ≠ 0 ∧
      obj.rowExclusive ≠ 0) := fun hc => hc.1 (by decide)
  rw [ObOBJLock.existOthers, if_neg hshare, if_neg hrow, any_eq_true] at h
  obtain ⟨i, -, hi⟩ := h
  rw [Bool.and_eq_true, decide_eq_true_eq] at hi
  obtain ⟨hbits, hothers⟩ := hi
  have hi0 : i = 0 := by
    clear hothers
    revert i
    decide
  rw [hi0, existOthersInList, any_eq_true] at hothers
  obtain ⟨node, hnode, hother⟩ := hothers
  rw [decide_eq_true_eq] at hother
  exact ⟨node, hnode, Ne.symm hother.1⟩

/-- A request that the mode check refuses, by the modes that count. -/
structure Refused (obj : ObOBJLock) (lockOp : ObTableLockOp)
    (held : Fin tableLockModeCount → Bool) (conflictModes : ℕ) : Prop where
  modes : conflictModes = (requestLock (heldModes held) lockOp.lockMode.bits).2
  ne_zero : conflictModes ≠ 0
  exist : obj.existOthers lockOp conflictModes = true
  counts : ∀ i, ∀ node ∈ (obj.map i).getD [],
    node.lockOp.createTransId ≠ lockOp.createTransId → held i = true

theorem checkAllowLock_refused {hash : ObTransID → ℕ} {cnt : Fin tableLockModeCount → ℕ}
    {checkForReplace : Bool}
    (hop : (if lockOp.needRecordLockOp then checkOpAllowLock obj lockOp else .ok ()) = .ok ())
    (hret : (obj.checkAllowLock hash lockOp cnt true false checkForReplace).ret =
      .error .tryLockRowConflict)
    (hown : ∀ i, cnt i ≤ obj.ownLocks lockOp.createTransId i)
    (hreplace : ∀ i, obj.isListReplaced
      (obj.listSize i + obj.unnamed (getLockModeByIndex i) - cnt i) lockOp.createTransId
      checkForReplace i = false) :
    ∃ held conflictModes, Refused obj lockOp held conflictModes ∧
      (obj.checkAllowLock hash lockOp cnt true false checkForReplace).conflictTxSet =
        (obj.getTxIdSet hash lockOp.createTransId conflictModes true).1 := by
  simp only [ObOBJLock.checkAllowLock, Bool.false_eq_true, and_false, if_false] at hret ⊢
  simp only [ObOBJLock.checkModes, hop, getOtherTransLockMode_eq] at hret ⊢
  set held : Fin tableLockModeCount → Bool := fun i =>
    decide (0 < obj.lockModeCnt cnt lockOp.createTransId checkForReplace i)
  set r := requestLock (heldModes held) lockOp.lockMode.bits
  by_cases hconf : r.1 = false ∧ obj.existOthers lockOp r.2 = true
  · have hne : r.2 ≠ 0 := by
      intro h0
      rw [h0, existOthers_zero] at hconf
      cases hconf.2
    refine ⟨held, r.2, ⟨rfl, hne, hconf.2, fun i node hnode hother => ?_⟩, ?_⟩
    · exact decide_eq_true (lockModeCnt_pos (hown i) (hreplace i) hnode hother)
    · rw [if_pos hconf, if_pos ⟨rfl, hne⟩]
  · rw [if_neg hconf] at hret
    cases hret

namespace Refused

variable {held : Fin tableLockModeCount → Bool} {conflictModes : ℕ}

section

variable (h : Refused obj lockOp held conflictModes)
include h

/-- A list that is looked at holds operations in the way only. -/
theorem incompatible {i : Fin tableLockModeCount} (hi : lookedAt conflictModes i = true) :
    compatible (getLockModeByIndex i) lockOp.lockMode = false := by
  rw [h.modes] at hi
  exact incompatible_of_lookedAt held lockOp.lockMode i hi

theorem eq_exclusive (h0 : held 0 = true) : conflictModes = ObTableLockMode.exclusive.bits := by
  rw [h.modes]
  exact lookedAt_of_exclusive held lockOp.lockMode h0 (h.modes ▸ h.ne_zero)

theorem exclusive_iff :
    held 0 = true ↔ ∃ other ∈ obj.blockers lockOp, other.lockOp.lockMode = .exclusive := by
  constructor
  · intro h0
    have hbits := h.eq_exclusive h0
    have hexist := h.exist
    rw [hbits] at hexist
    obtain ⟨node, hnode, hother⟩ := existOthers_exclusive hexist
    have hinc : compatible (getLockModeByIndex 0) lockOp.lockMode = false :=
      h.incompatible (by rw [hbits]; decide)
    exact ⟨node, ObOBJLock.mem_blockers.mpr ⟨0, hnode, hother, hinc⟩, obj.own_mode 0 node hnode⟩
  · rintro ⟨node, hnode, hmode⟩
    obtain ⟨i, hnode, hother, -⟩ := ObOBJLock.mem_blockers.mp hnode
    rw [obj.own_mode i node hnode] at hmode
    obtain rfl : i = 0 := by
      clear hnode
      revert i
      decide
    exact h.counts 0 node hnode hother

/-- **The lists that are looked at**, among those with an operation in the way. -/
theorem lookedAt_iff {i : Fin tableLockModeCount} {node : ObTableLockOpLinkNode}
    (hnode : node ∈ (obj.map i).getD []) (hblock : node ∈ obj.blockers lockOp) :
    lookedAt conflictModes i = true ↔
      if ∃ other ∈ obj.blockers lockOp, other.lockOp.lockMode = .exclusive then
        node.lockOp.lockMode = .exclusive
      else ¬(node.lockOp.lockMode = .shareRowExclusive ∧
        (lockOp.lockMode = .rowExclusive ∨ lockOp.lockMode = .share)) := by
  obtain ⟨j, hnode', hother, hinc⟩ := ObOBJLock.mem_blockers.mp hblock
  rw [← obj.own_mode j node hnode', obj.own_mode i node hnode] at hinc
  rw [obj.own_mode i node hnode]
  by_cases h0 : held 0 = true
  · rw [if_pos (h.exclusive_iff.mp h0), h.eq_exclusive h0]
    clear hnode hinc
    revert i
    decide
  · rw [if_neg (fun he => h0 (h.exclusive_iff.mpr he)), h.modes,
      lookedAt_of_held held lockOp.lockMode i (by simpa using h0) (h.counts i node hnode hother)
        hinc]
    simp only [Bool.not_eq_true', decide_eq_false_iff_not]

/-- The transactions that are collected are in the way. -/
theorem exists_of_mem {t : ObTransID}
    (ht : t ∈ lookedAtTxs obj lockOp.createTransId conflictModes
      (List.finRange tableLockModeCount)) :
    ∃ i, lookedAt conflictModes i = true ∧ ∃ node ∈ (obj.map i).getD [],
      node ∈ obj.blockers lockOp ∧ node.lockOp.createTransId = t := by
  obtain ⟨i, hi, node, hnode, rfl, hother⟩ := mem_lookedAtTxs.mp ht
  exact ⟨i, hi, node, hnode,
    ObOBJLock.mem_blockers.mpr ⟨i, hnode, hother, h.incompatible hi⟩, rfl⟩

end

end Refused

/-- An in-transaction lock of transaction 2 on table 1. -/
def heldOp (mode : ObTableLockMode) : ObTableLockOp :=
  ⟨⟨.table, 1⟩, mode, ⟨0, 0⟩, 2, .inTransCommonLock, .doing, SCN.invalid⟩

/-- The object with the share lock of transaction 2. -/
def shareHeld : ObOBJLock where
  map := ![none, some [⟨heldOp .share, by decide⟩], none, none, none]
  rowShare := 0
  rowExclusive := 0
  own_mode := by decide

/-- The object with the share row exclusive lock of transaction 2. -/
def shareRowExclusiveHeld : ObOBJLock where
  map := ![none, none, none, some [⟨heldOp .shareRowExclusive, by decide⟩], none]
  rowShare := 0
  rowExclusive := 0
  own_mode := by decide

/-- The row exclusive lock of an update by transaction 1. -/
def dmlRequest : ObTableLockOp :=
  ⟨⟨.table, 1⟩, .rowExclusive, ⟨0, 0⟩, 1, .inTransDmlLock, .doing, SCN.invalid⟩

end Report

end Andl.TableLock
