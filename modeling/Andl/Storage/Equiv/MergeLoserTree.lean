import Andl.Container.Equiv.LoserTree
import Andl.Storage.RowsMerger

/-!
# What a merge loser tree holds
-/

namespace Andl.ObMergeLoserTree

variable {T κ : Type} [LinearOrder κ] {key : T → κ} {iterIdx : T → ℤ} {t : ObMergeLoserTree T}

/-- The duel of `ObMergeLoserTree` orders players of different iterators. -/
theorem duelSpec (key : T → κ) (iterIdx : T → ℤ) :
    ObLoserTree.DuelSpec key iterIdx (duel key iterIdx) := by
  intro t o d i hi hne
  have hlt : toLex (key o, iterIdx o) < toLex (key d, iterIdx d) ↔
      key o < key d ∨ key o = key d ∧ iterIdx o < iterIdx d := Prod.Lex.toLex_lt_toLex
  rw [duel, if_neg (by omega), if_neg hne]
  rcases lt_trichotomy (key o) (key d) with hk | hk | hk
  · have hcmp : compare (key o) (key d) = .lt := compare_lt_iff_lt.mpr hk
    simp [hcmp, hlt, hk, hk.ne]
  · have hcmp : compare (key o) (key d) = .eq := compare_eq_iff_eq.mpr hk
    by_cases hid : iterIdx o > iterIdx d
    · have hnot : ¬ toLex (key o, iterIdx o) < toLex (key d, iterIdx d) := by
        rw [hlt, not_or]
        exact ⟨hk.not_lt, fun h => absurd h.2 (by omega)⟩
      rw [decide_eq_true hk, decide_eq_false hnot]
      simp [hcmp, hid]
    · have hyes : toLex (key o, iterIdx o) < toLex (key d, iterIdx d) :=
        hlt.mpr (.inr ⟨hk, by omega⟩)
      rw [decide_eq_true hk, decide_eq_true hyes]
      simp [hcmp, hid]
  · have hcmp : compare (key o) (key d) = .gt := compare_gt_iff_gt.mpr hk
    simp [hcmp, hlt, hk.ne', not_lt_of_gt hk]

/-- The items of the merger. -/
def items (t : ObMergeLoserTree T) : Multiset T :=
  match t.king with
  | some king => king ::ₘ t.tree.liveItems
  | none => t.tree.liveItems

theorem items_of_king {king : T} (h : t.king = some king) :
    t.items = king ::ₘ t.tree.liveItems := by
  rw [items, h]

theorem items_of_none (h : t.king = none) : t.items = t.tree.liveItems := by
  rw [items, h]

/-- The invariant of a merge loser tree for `n` players. -/
structure Valid (key : T → κ) (iterIdx : T → ℤ) (n : ℕ) (t : ObMergeLoserTree T) : Prop where
  tree : t.tree.Valid key iterIdx
  playerCnt : t.tree.playerCnt = n
  kingApart : ∀ king, t.king = some king →
    t.tree.liveItems.card < n ∧ ∀ y ∈ t.tree.liveItems, iterIdx y ≠ iterIdx king
  kingFirst : ∀ king, t.king = some king → t.tree.needRebuild = false →
    (∀ y ∈ t.tree.liveItems, toLex (key king, iterIdx king) ≤ toLex (key y, iterIdx y)) ∧
      (t.isKingEqChampion = false ↔ ∀ y ∈ t.tree.liveItems, key y ≠ key king)

variable {n : ℕ}

section

variable (h : t.Valid key iterIdx n)
include h

theorem Valid.card_items : t.items.card = t.count := by
  rw [count]
  cases hk : t.king with
  | none => rw [items_of_none hk, h.tree.card_liveItems]; rfl
  | some king =>
    rw [items_of_king hk, Multiset.card_cons, h.tree.card_liveItems]
    rfl

theorem Valid.empty_iff : t.empty = true ↔ t.items = 0 := by
  rw [empty]
  cases hk : t.king with
  | none =>
    rw [items_of_none hk, ← h.tree.empty_iff]
    simp
  | some king =>
    rw [items_of_king hk]
    simp

/-- **`push`** adds an item of an iterator that has none. -/
theorem push_spec (hroom : t.items.card < n) {x : T} (hnew : ∀ y ∈ t.items, iterIdx y ≠ iterIdx x) :
    ∃ t', t.push x = .ok t' ∧ t'.Valid key iterIdx n ∧ t'.items = x ::ₘ t.items ∧
      t'.tree.needRebuild = true := by
  cases hk : t.king with
  | none =>
    rw [items_of_none hk] at hroom hnew ⊢
    obtain ⟨tree, hpush, hv, hlive, hpc, hneed⟩ := ObLoserTree.push_spec h.tree
      (by rw [h.playerCnt]; exact hroom) hnew
    refine ⟨{ t with tree := tree }, ?_, ?_, ?_, hneed⟩
    · rw [push, if_neg (by simp [hk]), hpush]
      rfl
    · exact ⟨hv, hpc.trans h.playerCnt, by simp [hk], by simp [hk]⟩
    · exact (items_of_none (t := { t with tree := tree }) hk).trans hlive
  | some king =>
    rw [items_of_king hk] at hroom hnew ⊢
    rw [Multiset.card_cons] at hroom
    have hfree : ¬ t.tree.curFreeCnt ≤ 1 := by
      rw [h.tree.card_liveItems, ObLoserTree.count, h.playerCnt] at hroom
      omega
    obtain ⟨tree, hpush, hv, hlive, hpc, hneed⟩ := ObLoserTree.push_spec h.tree
      (by rw [h.playerCnt]; omega) (fun y hy => hnew y (Multiset.mem_cons_of_mem hy))
    refine ⟨{ t with tree := tree }, ?_, ?_, ?_, hneed⟩
    · rw [push, if_neg (fun hc => hfree hc.2), hpush]
      rfl
    · refine ⟨hv, hpc.trans h.playerCnt, ?_, fun _ _ hno => ?_⟩
      · intro king' hking'
        rw [hk] at hking'
        obtain rfl := Option.some.inj hking'
        change tree.liveItems.card < n ∧ ∀ y ∈ tree.liveItems, iterIdx y ≠ iterIdx king
        rw [hlive, Multiset.card_cons]
        refine ⟨hroom, fun y hy => ?_⟩
        rcases Multiset.mem_cons.mp hy with rfl | hy
        · exact (hnew king (Multiset.mem_cons_self _ _)).symm
        · exact (h.kingApart king hk).2 y hy
      · exact absurd (hno.symm.trans hneed) (by simp)
    · rw [items_of_king (t := { t with tree := tree }) hk, hlive, Multiset.cons_swap]

theorem Valid.push_rebuild {x : T} (hroom : t.tree.liveItems.card < n)
    (hnew : ∀ y ∈ t.tree.liveItems, iterIdx y ≠ iterIdx x) :
    ∃ tree tree', t.tree.push x = .ok tree ∧ tree.rebuild (duel key iterIdx) = .ok tree' ∧
      Valid key iterIdx n ⟨tree', none, false⟩ ∧
      items ⟨tree', none, false⟩ = x ::ₘ t.tree.liveItems ∧ tree'.needRebuild = false := by
  obtain ⟨tree, hpush, hv, hlive, hpc, -⟩ := ObLoserTree.push_spec h.tree
    (by rw [h.playerCnt]; exact hroom) hnew
  obtain ⟨tree', hre, hv', hlive', hpc', hno⟩ := ObLoserTree.rebuild_spec (duelSpec key iterIdx) hv
  refine ⟨tree, tree', hpush, hre, ⟨hv', (hpc'.trans hpc).trans h.playerCnt, by simp, by simp⟩, ?_,
    hno⟩
  rw [items_of_none rfl, hlive', hlive]

/-- **`rebuild`** keeps the items. -/
theorem rebuild_spec :
    ∃ t', t.rebuild key iterIdx = .ok t' ∧ t'.Valid key iterIdx n ∧ t'.items = t.items ∧
      t'.tree.needRebuild = false := by
  by_cases hneed : t.tree.needRebuild = true
  · have hempty : ¬ t.empty = true := by
      have := h.tree.pending hneed
      have hte : ¬ t.tree.empty = true := by
        simp only [ObLoserTree.empty, beq_iff_eq]
        omega
      simp [empty, hte]
    rw [rebuild, if_neg (by simp [hneed]), if_neg hempty]
    cases hk : t.king with
    | none =>
      obtain ⟨tree, hre, hv, hlive, hpc, hno⟩ := ObLoserTree.rebuild_spec (duelSpec key iterIdx)
        h.tree
      refine ⟨{ t with tree := tree }, ?_, ⟨hv, hpc.trans h.playerCnt, by simp [hk], by simp [hk]⟩,
        ?_, hno⟩
      · simp only [pure, Except.pure, bind, Except.bind, hre]
      · rw [items_of_none (t := { t with tree := tree }) hk, items_of_none hk, hlive]
    | some king =>
      obtain ⟨hroom, hnew⟩ := h.kingApart king hk
      obtain ⟨tree, tree', hpush, hre, hv, hitems, hno⟩ := h.push_rebuild hroom hnew
      refine ⟨_, ?_, hv, hitems.trans (items_of_king hk).symm, hno⟩
      simp only [pure, Except.pure, bind, Except.bind, hpush, hre]
  · have hno : t.tree.needRebuild = false := by simpa using hneed
    exact ⟨t, by rw [rebuild, if_pos (by simp [hno])], h, rfl, hno⟩

end

theorem kingFor_eq_some {champion player : T} {isEq : Bool}
    (h : kingFor key iterIdx champion player = some isEq) :
    toLex (key player, iterIdx player) ≤ toLex (key champion, iterIdx champion) ∧
      (isEq = true ↔ key champion = key player) := by
  unfold kingFor at h
  rcases hcmp : compare (key champion) (key player) with _ | _ | _ <;> rw [hcmp] at h
  · exact absurd h (by simp)
  · have hk : key champion = key player := compare_eq_iff_eq.mp hcmp
    dsimp only at h
    split_ifs at h with hid
    refine ⟨(Prod.Lex.toLex_lt_toLex.mpr (.inr ⟨hk.symm, hid⟩)).le, ?_⟩
    rw [← Option.some.inj h]
    simp [hk]
  · have hk : key player < key champion := compare_gt_iff_gt.mp hcmp
    refine ⟨(Prod.Lex.toLex_lt_toLex.mpr (.inl hk)).le, ?_⟩
    rw [← Option.some.inj h]
    simp [hk.ne']

/-- **`push_top`** adds an item and needs no rebuild. -/
theorem pushTop_spec (h : t.Valid key iterIdx n) (hking : t.king = none)
    (hneed : t.tree.needRebuild = false) (hroom : t.items.card < n) {x : T}
    (hnew : ∀ y ∈ t.items, iterIdx y ≠ iterIdx x) :
    ∃ t', t.pushTop key iterIdx x = .ok t' ∧ t'.Valid key iterIdx n ∧
      t'.items = x ::ₘ t.items ∧ t'.tree.needRebuild = false := by
  rw [items_of_none hking] at hroom hnew ⊢
  have hcard := h.tree.card_liveItems
  have hfree : t.tree.curFreeCnt ≠ 0 := by
    rw [hcard, ObLoserTree.count, h.playerCnt] at hroom
    have := h.tree.frame.freeCnt
    have := h.playerCnt
    omega
  rw [pushTop, if_neg (by simp [hking]), if_neg hfree, if_neg (by simp [hneed])]
  by_cases hcount : t.tree.count = 0
  · have hlive : t.tree.liveItems = 0 := by rw [← Multiset.card_eq_zero, hcard, hcount]
    refine ⟨{ t with king := some x, isKingEqChampion := false }, by rw [if_pos hcount], ?_,
      items_of_king rfl, hneed⟩
    exact ⟨h.tree, h.playerCnt, fun king hk => ⟨hroom, Option.some.inj hk ▸ hnew⟩,
      fun king _ _ => by simp [hlive]⟩
  · have hone : t.tree.playerCnt ≠ 1 := by
      rw [h.playerCnt]
      omega
    have hlive : t.tree.liveItems ≠ 0 := fun h0 => hcount (by rw [← hcard, h0, Multiset.card_zero])
    obtain ⟨z, hz, hwin, -, hmin, -⟩ := h.tree.exists_champion hneed hone hlive
    have hzlt : ¬ t.tree.playerCnt < z := by
      have := ObLoserTree.mem_slots_lt hz
      omega
    rw [if_neg hcount]
    simp only [hwin, if_neg hzlt]
    cases hfor : (if t.tree.count > 1 then kingFor key iterIdx (t.tree.players z) x else none) with
    | some isEq =>
      -- the player is the new king
      have hfor' : kingFor key iterIdx (t.tree.players z) x = some isEq := by
        split_ifs at hfor
        exact hfor
      obtain ⟨hle, hiff⟩ := kingFor_eq_some hfor'
      have hall : ∀ y ∈ t.tree.liveItems, toLex (key x, iterIdx x) ≤ toLex (key y, iterIdx y) := by
        intro y hy
        obtain ⟨s, hs, rfl⟩ := ObLoserTree.mem_liveItems.mp hy
        exact hle.trans (hmin s hs)
      refine ⟨{ t with king := some x, isKingEqChampion := isEq }, rfl, ?_, items_of_king rfl,
        hneed⟩
      refine ⟨h.tree, h.playerCnt, fun king hk => ⟨hroom, Option.some.inj hk ▸ hnew⟩, ?_⟩
      intro king hk _
      obtain rfl := Option.some.inj hk
      refine ⟨hall, ?_⟩
      show isEq = false ↔ _
      rw [← Bool.not_eq_true, hiff]
      constructor
      · intro hne y hy hyk
        -- the champion lies between the king and `y`
        obtain ⟨s, hs, rfl⟩ := ObLoserTree.mem_liveItems.mp hy
        exact hne (le_antisymm ((Prod.Lex.monotone_fst _ _ (hmin s hs)).trans hyk.le)
          (Prod.Lex.monotone_fst _ _ hle))
      · exact fun hne => hne _ (ObLoserTree.mem_liveItems.mpr ⟨z, hz, rfl⟩)
    | none =>
      obtain ⟨tree, tree', hpush, hre, hv, hitems, hno⟩ := h.push_rebuild hroom hnew
      refine ⟨_, ?_, hv, hitems, hno⟩
      simp only [pure, Except.pure, bind, Except.bind, hpush, hre]

/-- **`top` and `pop`** on a merger with items and no pending push. -/
theorem top_pop_spec (h : t.Valid key iterIdx n) (hneed : t.tree.needRebuild = false)
    (hitems : t.items ≠ 0) :
    ∃ x rest, t.items = x ::ₘ rest ∧
      (∀ y ∈ rest, toLex (key x, iterIdx x) ≤ toLex (key y, iterIdx y)) ∧
      (t.isUniqueChampion = true ↔ ∀ y ∈ rest, key y ≠ key x) ∧ t.top = .ok x ∧
      ∃ t', t.pop key iterIdx = .ok t' ∧ t'.Valid key iterIdx n ∧ t'.items = rest ∧
        t'.king = none ∧ t'.tree.needRebuild = false := by
  cases hk : t.king with
  | some king =>
    obtain ⟨hfirst, heq⟩ := h.kingFirst king hk hneed
    refine ⟨king, t.tree.liveItems, items_of_king hk, hfirst, ?_, ?_, ?_⟩
    · rw [isUniqueChampion, hk, ← heq]
      simp
    · rw [top, hk]
    · refine ⟨{ t with king := none, isKingEqChampion := false }, ?_, ?_, items_of_none rfl, rfl,
        hneed⟩
      · rw [pop, if_neg (by simp [hneed]), if_pos (by simp [hk])]
      · exact ⟨h.tree, h.playerCnt, by simp, by simp⟩
  | none =>
    rw [items_of_none hk] at hitems ⊢
    obtain ⟨x, rest, hspec⟩ := ObLoserTree.top_pop_spec (duelSpec key iterIdx) h.tree hneed hitems
    obtain ⟨tree, hpop, hv, hlive, hpc, hno⟩ := hspec.pop_eq
    refine ⟨x, rest, hspec.liveItems_eq, hspec.least, ?_, ?_, ?_⟩
    · rw [isUniqueChampion, hk]
      exact hspec.unique
    · rw [top, hk]
      exact hspec.top_eq
    · refine ⟨{ t with tree := tree }, ?_, ?_, ?_, hk, hno⟩
      · rw [pop, if_neg (by simp [hneed]), if_neg (by simp [hk]), hpop]
        rfl
      · exact ⟨hv, hpc.trans h.playerCnt, by simp [hk], by simp [hk]⟩
      · exact (items_of_none (t := { t with tree := tree }) hk).trans hlive

theorem king_of_empty (hitems : t.items = 0) : t.king = none := by
  cases hk : t.king with
  | none => rfl
  | some king =>
    rw [items_of_king hk] at hitems
    exact absurd hitems (Multiset.cons_ne_zero)

/-- A merger without items answers `OB_EMPTY_RESULT`. -/
theorem top_pop_empty (h : t.Valid key iterIdx n) (hneed : t.tree.needRebuild = false)
    (hitems : t.items = 0) :
    t.top = .error .emptyResult ∧ t.pop key iterIdx = .error .emptyResult := by
  have hk := king_of_empty hitems
  rw [items_of_none hk] at hitems
  constructor
  · rw [top, hk]
    exact ObLoserTree.top_empty h.tree hneed hitems
  · rw [pop, if_neg (by simp [hneed]), if_neg (by simp [hk]),
      ObLoserTree.pop_empty h.tree hneed hitems]
    rfl

/-- `init` gives a valid merger without items. -/
theorem init_spec [Inhabited T] (hn : 1 ≤ n) (key : T → κ) (iterIdx : T → ℤ) :
    ∃ t : ObMergeLoserTree T, init n = .ok t ∧ t.Valid key iterIdx n ∧ t.items = 0 ∧
      t.king = none ∧ t.tree.needRebuild = false := by
  obtain ⟨tree, hinit, hv, hlive, hpc, hneed⟩ := ObLoserTree.initBasicInfo_spec hn key iterIdx
  refine ⟨{ tree := tree, king := none, isKingEqChampion := false }, ?_,
    ⟨hv, hpc, by simp, by simp⟩, (items_of_none rfl).trans hlive, rfl, hneed⟩
  rw [init, hinit]
  rfl

end Andl.ObMergeLoserTree
