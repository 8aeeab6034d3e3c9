import Andl.Lib.Run
import Andl.Storage.UndoStatus

/-!
# Undo status lists keep what is undone
-/

namespace Andl.Storage

open List

/-! ### Containment -/

/-- **Containment of actions** implies containment of sequence numbers, also where the outer action
is one of all branches. -/
theorem ObUndoAction.isContain_of_isContainAction {u v : ObUndoAction} {seqNo : ObTxSEQ}
    (huv : u.isContainAction v = true) (hv : v.isContain seqNo = true) :
    u.isContain seqNo = true := by
  simp only [isContainAction, isContain, Bool.and_eq_true, Bool.or_eq_true, decide_eq_true_eq]
    at huv hv ⊢
  obtain ⟨⟨hbranch, hfrom⟩, hto⟩ := huv
  obtain ⟨⟨hcmp, hgt⟩, hle⟩ := hv
  refine ⟨⟨?_, by omega⟩, by omega⟩
  rcases hbranch with hzero | hsame
  · exact .inl hzero
  · rw [hsame]
    exact hcmp

@[simp] theorem ObUndoAction.isValid_reset : ObUndoAction.reset.isValid = false := rfl

namespace UndoStatusNodes

variable {l : UndoStatusNodes}

/-- The search through the nodes is the one through all actions. -/
theorem isContain_eq (l : UndoStatusNodes) (seqNo : ObTxSEQ) :
    l.isContain seqNo = ObUndoStatusList.isContain l.actions seqNo := by
  rw [isContain, ObUndoStatusList.isContain, actions, any_flatMap]

theorem isContain_iff {seqNo : ObTxSEQ} :
    l.isContain seqNo = true ↔ ∃ a ∈ l.actions, a.isContain seqNo = true := by
  rw [isContain_eq, ObUndoStatusList.isContain, any_eq_true]

theorem actions_cons (node : ObUndoStatusNode) (rest : List ObUndoStatusNode) (cnt : ℤ) :
    (⟨node :: rest, cnt⟩ : UndoStatusNodes).actions =
      node.undoActions ++ (⟨rest, cnt⟩ : UndoStatusNodes).actions :=
  flatMap_cons

/-- The shape of a list: the counter is right, no node is empty, and only the head has room. -/
structure Packed (l : UndoStatusNodes) : Prop where
  cnt : l.undoNodeCnt = l.nodes.length
  nonempty : ∀ node ∈ l.nodes, node.undoActions ≠ []
  full : ∀ node ∈ l.nodes.tail, node.undoActions.length = txDataUndoActMaxNumPerNode

theorem Packed.empty : Packed .empty where
  cnt := rfl
  nonempty := by simp [UndoStatusNodes.empty]
  full := by simp [UndoStatusNodes.empty]

/-- The list behind the head. -/
theorem Packed.tail {node : ObUndoStatusNode} {rest : List ObUndoStatusNode} {cnt : ℤ}
    (h : Packed ⟨node :: rest, cnt⟩) : Packed ⟨rest, cnt - 1⟩ where
  cnt := by
    have hcnt : cnt = ((node :: rest).length : ℕ) := h.cnt
    rw [length_cons] at hcnt
    show cnt - 1 = (rest.length : ℤ)
    omega
  nonempty := fun m hm => h.nonempty m (mem_cons_of_mem _ hm)
  full := fun m hm => h.full m (mem_of_mem_tail hm)

/-- A head with fewer actions. -/
theorem Packed.head {node node' : ObUndoStatusNode} {rest : List ObUndoStatusNode} {cnt : ℤ}
    (h : Packed ⟨node :: rest, cnt⟩) (hnode' : node'.undoActions ≠ []) :
    Packed ⟨node' :: rest, cnt⟩ where
  cnt := h.cnt
  nonempty := by
    intro m hm
    rcases mem_cons.mp hm with rfl | hm
    · exact hnode'
    · exact h.nonempty m (mem_cons_of_mem _ hm)
  full := h.full

/-- A new head in front of a full one, or of nothing. -/
theorem Packed.cons {node : ObUndoStatusNode} (h : Packed l) (hnode : node.undoActions ≠ [])
    (hfull : ∀ head ∈ l.nodes.head?, head.undoActions.length = txDataUndoActMaxNumPerNode) :
    Packed ⟨node :: l.nodes, l.undoNodeCnt + 1⟩ where
  cnt := by
    rw [h.cnt, length_cons]
    rfl
  nonempty := by
    intro m hm
    rcases mem_cons.mp hm with rfl | hm
    · exact hnode
    · exact h.nonempty m hm
  full := by
    intro m hm
    rw [tail_cons] at hm
    obtain ⟨nodes, cnt⟩ := l
    cases nodes with
    | nil => cases hm
    | cons head rest =>
      rcases mem_cons.mp hm with rfl | hm
      · exact hfull m rfl
      · exact h.full m hm

end UndoStatusNodes

open UndoStatusNodes

/-! ### Merging -/

/-- What becomes of the new action: it stays, or an action of the list contains it and it is reset.
-/
def Outcome (new new' : ObUndoAction) (kept : List ObUndoAction) : Prop :=
  new' = new ∨ new' = .reset ∧ ∃ a ∈ kept, a.isContainAction new = true

theorem Outcome.mono {new new' : ObUndoAction} {kept kept' : List ObUndoAction}
    (h : Outcome new new' kept) (hsub : ∀ a ∈ kept, a ∈ kept') : Outcome new new' kept' :=
  h.imp_right fun ⟨hreset, a, ha, hcontain⟩ => ⟨hreset, a, hsub a ha, hcontain⟩

theorem mergeLoop_spec (new : ObUndoAction) (actions : List ObUndoAction) :
    ∃ popped, actions = popped ++ (mergeLoop new actions).1 ∧
      (∀ a ∈ popped, new.isContainAction a = true) ∧
      Outcome new (mergeLoop new actions).2 (mergeLoop new actions).1 := by
  induction actions with
  | nil => exact ⟨[], rfl, by simp, .inl rfl⟩
  | cons action older ih =>
    rw [mergeLoop]
    split_ifs with hpop hreset
    · obtain ⟨popped, hsplit, hpopped, hout⟩ := ih
      refine ⟨action :: popped, by rw [cons_append, ← hsplit], ?_, hout⟩
      intro a ha
      rcases mem_cons.mp ha with rfl | ha
      · exact hpop
      · exact hpopped a ha
    · exact ⟨[], rfl, by simp, .inr ⟨rfl, action, mem_cons_self, hreset⟩⟩
    · exact ⟨[], rfl, by simp, .inl rfl⟩

/-- The same in the order of the node. -/
theorem ObUndoStatusNode.merge_spec (node : ObUndoStatusNode) (new : ObUndoAction) :
    ∃ popped, node.undoActions = (node.merge new).undoActions ++ popped ∧
      (∀ a ∈ popped, new.isContainAction a = true) ∧
      Outcome new (mergeLoop new node.undoActions.reverse).2 (node.merge new).undoActions := by
  obtain ⟨popped, hsplit, hpopped, hout⟩ := mergeLoop_spec new node.undoActions.reverse
  refine ⟨popped.reverse, ?_, fun a ha => hpopped a (mem_reverse.mp ha),
    hout.mono fun a ha => mem_reverse.mpr ha⟩
  have hrev := congrArg List.reverse hsplit
  rw [reverse_reverse, reverse_append] at hrev
  exact hrev

/-- What merging the new action into `l` may give. -/
structure Merged (l : UndoStatusNodes) (new : ObUndoAction) (l' : UndoStatusNodes)
    (new' : ObUndoAction) : Prop where
  packed : Packed l'
  kept : ∀ a ∈ l'.actions, a ∈ l.actions
  dropped : ∀ a ∈ l.actions, a ∈ l'.actions ∨ new.isContainAction a = true
  outcome : Outcome new new' l'.actions

/-- **Merging** drops only actions that the new one contains. -/
theorem mergeUndoActions_spec {l : UndoStatusNodes} (h : Packed l) (new : ObUndoAction) :
    ∃ l' new', mergeUndoActions l.undoNodeCnt new l.nodes = (.ok (), l', new') ∧
      Merged l new l' new' := by
  obtain ⟨nodes, cnt⟩ := l
  show ∃ l' new', mergeUndoActions cnt new nodes = (.ok (), l', new') ∧ _
  induction nodes generalizing cnt with
  | nil => exact ⟨⟨[], cnt⟩, new, rfl, h, fun _ ha => ha, fun _ ha => .inl ha, .inl rfl⟩
  | cons node rest ih =>
    obtain ⟨popped, hsplit, hpopped, hout⟩ := node.merge_spec new
    rw [mergeUndoActions]
    by_cases hempty : (node.merge new).undoActions.length = 0
    · -- every action of the node is inside of the new one, which goes on to the next node
      have hnil := eq_nil_of_length_eq_zero hempty
      rw [hnil] at hsplit hout
      have hnew : (mergeLoop new node.undoActions.reverse).2 = new := by
        rcases hout with hnew | ⟨-, a, ha, -⟩
        · exact hnew
        · cases ha
      have hcnt : cnt = ((node :: rest).length : ℕ) := h.cnt
      rw [length_cons] at hcnt
      obtain ⟨l', new', heq, hmerged⟩ := ih (cnt - 1) h.tail
      refine ⟨l', new', ?_, hmerged.packed, ?_, ?_, hmerged.outcome⟩
      · rw [if_pos hempty, if_neg (by omega), hnew, heq]
      · intro a ha
        rw [actions_cons]
        exact mem_append_right _ (hmerged.kept a ha)
      · intro a ha
        rw [actions_cons, hsplit, nil_append] at ha
        rcases mem_append.mp ha with ha | ha
        · exact .inr (hpopped a ha)
        · exact hmerged.dropped a ha
    · refine ⟨⟨node.merge new :: rest, cnt⟩, _, by rw [if_neg hempty],
        h.head fun hnil => hempty (by rw [hnil, length_nil]), ?_, ?_,
        hout.mono fun a ha => by rw [actions_cons]; exact mem_append_left _ ha⟩
      · intro a ha
        rw [actions_cons] at ha ⊢
        rw [hsplit, append_assoc]
        rcases mem_append.mp ha with ha | ha
        · exact mem_append_left _ ha
        · exact mem_append_right _ (mem_append_right _ ha)
      · intro a ha
        rw [actions_cons, hsplit, append_assoc] at ha
        rw [actions_cons]
        rcases mem_append.mp ha with ha | ha
        · exact .inl (mem_append_left _ ha)
        · rcases mem_append.mp ha with ha | ha
          · exact .inr (hpopped a ha)
          · exact .inl (mem_append_right _ ha)

/-- The list contains as much as before, together with the new action. -/
theorem Merged.isContain_or {l l' : UndoStatusNodes} {new new' : ObUndoAction}
    (h : Merged l new l' new') (seqNo : ObTxSEQ) :
    (l'.isContain seqNo = true ∨ new.isContain seqNo = true) ↔
      (l.isContain seqNo = true ∨ new.isContain seqNo = true) := by
  rw [isContain_iff, isContain_iff]
  constructor
  · rintro (⟨a, ha, hcontain⟩ | hcontain)
    · exact .inl ⟨a, h.kept a ha, hcontain⟩
    · exact .inr hcontain
  · rintro (⟨a, ha, hcontain⟩ | hcontain)
    · rcases h.dropped a ha with hkept | hinside
      · exact .inl ⟨a, hkept, hcontain⟩
      · exact .inr (ObUndoAction.isContain_of_isContainAction hinside hcontain)
    · exact .inr hcontain

/-! ### Adding an action -/

theorem insertUndoAction_spec {l : UndoStatusNodes} (h : Packed l) (new : ObUndoAction)
    (undoNode alloc : Bool) :
    (∃ l' keep, insertUndoAction l new undoNode alloc = (.ok (), l', keep) ∧ Packed l' ∧
      ∀ a, a ∈ l'.actions ↔ a ∈ l.actions ∨ a = new) ∨
    (insertUndoAction l new undoNode alloc = (.error .allocateMemoryFailed, l, undoNode) ∧
      undoNode = false ∧ alloc = false) := by
  have hnewNode (hfull : ∀ head ∈ l.nodes.head?,
      head.undoActions.length = txDataUndoActMaxNumPerNode) :
      (∃ l' keep, insertUndoAction.newNode new undoNode alloc l = (.ok (), l', keep) ∧ Packed l' ∧
        ∀ a, a ∈ l'.actions ↔ a ∈ l.actions ∨ a = new) ∨
      (insertUndoAction.newNode new undoNode alloc l =
        (.error .allocateMemoryFailed, l, undoNode) ∧ undoNode = false ∧ alloc = false) := by
    rw [insertUndoAction.newNode]
    split_ifs with hmem
    · refine .inl ⟨_, _, rfl, h.cons (cons_ne_nil _ _) hfull, fun a => ?_⟩
      rw [actions_cons, mem_append]
      show a ∈ [new] ∨ a ∈ l.actions ↔ _
      rw [mem_singleton, or_comm]
    · rw [Bool.not_eq_true, Bool.or_eq_false_iff] at hmem
      exact .inr ⟨rfl, hmem⟩
  obtain ⟨nodes, cnt⟩ := l
  cases nodes with
  | nil => exact hnewNode fun _ hhead => by cases hhead
  | cons node rest =>
    rw [insertUndoAction]
    by_cases hroom : node.undoActions.length < txDataUndoActMaxNumPerNode
    · refine .inl ⟨_, _, dif_pos hroom, h.head (by simp [ObUndoStatusNode.push]), fun a => ?_⟩
      rw [actions_cons, actions_cons, ObUndoStatusNode.push]
      simp only [mem_append, mem_singleton]
      tauto
    · simp only [dif_neg hroom]
      refine hnewNode fun head hhead => ?_
      obtain rfl : node = head := Option.some.inj hhead
      exact le_antisymm node.size_le (not_lt.mp hroom)

/-- **A call of `add_undo_action`** adds the action, unless it needs a node and there is none: then
the older actions inside of the new one are gone already, and nothing else is. -/
theorem addUndoAction_spec {l : UndoStatusNodes} (h : Packed l) (c : UndoCall)
    (hvalid : c.action.isValid = true) :
    (∃ l' keep, addUndoAction l c = (.ok (), l', keep) ∧ Packed l' ∧
      (∀ a ∈ l'.actions, a ∈ l.actions ∨ a = c.action) ∧
      ∀ seqNo, l'.isContain seqNo = true ↔
        l.isContain seqNo = true ∨ c.action.isContain seqNo = true) ∨
    (∃ l', addUndoAction l c = (.error .allocateMemoryFailed, l', c.undoNode) ∧
      c.undoNode = false ∧ c.alloc = false ∧ Packed l' ∧
      ∀ seqNo, (l'.isContain seqNo = true ∨ c.action.isContain seqNo = true) ↔
        (l.isContain seqNo = true ∨ c.action.isContain seqNo = true)) := by
  obtain ⟨l1, new', hmerge, hmerged⟩ := mergeUndoActions_spec h c.action
  rw [addUndoAction, hmerge]
  dsimp only
  rcases hmerged.outcome with rfl | ⟨rfl, older, holder, hinside⟩
  · rw [hvalid, Bool.not_true, if_neg Bool.false_ne_true]
    rcases insertUndoAction_spec hmerged.packed c.action c.undoNode c.alloc with
      ⟨l', keep, heq, hpacked, hactions⟩ | ⟨heq, hnode, halloc⟩
    · refine .inl ⟨l', keep, heq, hpacked,
        fun a ha => ((hactions a).mp ha).imp_left (hmerged.kept a), fun seqNo => ?_⟩
      rw [← hmerged.isContain_or, isContain_iff, isContain_iff]
      constructor
      · rintro ⟨a, ha, hcontain⟩
        rcases (hactions a).mp ha with ha | rfl
        · exact .inl ⟨a, ha, hcontain⟩
        · exact .inr hcontain
      · rintro (⟨a, ha, hcontain⟩ | hcontain)
        · exact ⟨a, (hactions a).mpr (.inl ha), hcontain⟩
        · exact ⟨_, (hactions _).mpr (.inr rfl), hcontain⟩
    · exact .inr ⟨l1, heq, hnode, halloc, hmerged.packed, hmerged.isContain_or⟩
  · -- the action is inside of an older one, which is still there
    refine .inl ⟨l1, c.undoNode, rfl, hmerged.packed, fun a ha => .inl (hmerged.kept a ha),
      fun seqNo => ?_⟩
    rw [← hmerged.isContain_or]
    refine ⟨.inl, fun hcontain => hcontain.elim id fun hcontain => ?_⟩
    exact isContain_iff.mpr
      ⟨older, holder, ObUndoAction.isContain_of_isContainAction hinside hcontain⟩

/-- A call of `add_undo_action` for a valid action that succeeds. -/
inductive UndoStep : UndoStatusNodes → List ObUndoAction → UndoStatusNodes → Prop
  | add {l l' : UndoStatusNodes} {keep : Bool} (c : UndoCall) (hvalid : c.action.isValid = true)
    (heq : addUndoAction l c = (.ok (), l', keep)) : UndoStep l [c.action] l'

/-- What holds after the given actions have been added. -/
structure UndoneBy (added : List ObUndoAction) (l : UndoStatusNodes) : Prop where
  packed : Packed l
  valid : ∀ a ∈ l.actions, a.isValid = true
  contain : ∀ seqNo, l.isContain seqNo = true ↔ ∃ a ∈ added, a.isContain seqNo = true

theorem UndoneBy.step {added es : List ObUndoAction} {l l' : UndoStatusNodes}
    (h : UndoneBy added l) (hstep : UndoStep l es l') : UndoneBy (added ++ es) l' := by
  obtain ⟨c, hvalid, heq⟩ := hstep
  rcases addUndoAction_spec h.packed c hvalid with
    ⟨l1, keep1, heq1, hpacked, hactions, hcontain⟩ | ⟨l1, hfail, -⟩
  · rw [heq] at heq1
    obtain rfl : l' = l1 := congrArg (·.2.1) heq1
    refine ⟨hpacked, fun a ha => ?_, fun seqNo => ?_⟩
    · rcases hactions a ha with ha | rfl
      · exact h.valid a ha
      · exact hvalid
    rw [hcontain, h.contain]
    simp only [mem_append, mem_singleton, or_and_right, exists_or, exists_eq_left]
  · rw [heq] at hfail
    cases hfail

theorem undoneBy_of_run {added : List ObUndoAction} {l : UndoStatusNodes}
    (hrun : Run UndoStep .empty added l) : UndoneBy added l :=
  hrun.invariant UndoneBy (fun _ _ _ _ h hstep => h.step hstep)
    ⟨Packed.empty, by simp [UndoStatusNodes.empty, UndoStatusNodes.actions],
      fun _ => by simp [UndoStatusNodes.empty, UndoStatusNodes.isContain]⟩

/-- The list with the action that undoes 4 and 5. -/
def undoneFive : UndoStatusNodes := (addUndoAction .empty ⟨⟨⟨5⟩, ⟨3⟩⟩, false, true⟩).2.1

theorem addUndoAction_undoneFive :
    addUndoAction .empty ⟨⟨⟨5⟩, ⟨3⟩⟩, false, true⟩ = (.ok (), undoneFive, false) := rfl

end Andl.Storage
