import Andl.Lib.Run
import Andl.Storage.Equiv.MergeLoserTree

/-!
# The row mergers refine a sorted multiset
-/

namespace Andl

open List Function

variable {ρ κ σ : Type} [LinearOrder κ]

/-- A call that a scan makes on its merger. -/
inductive MergerCall (ρ : Type) where
  | push (row : ρ) (iterIdx : ℤ)
  | pushTop (row : ρ) (iterIdx : ℤ)
  | rebuild
  | pop
  | top

/-- One call on a merger, with what it answers. The item a scan pushes has just been constructed. -/
def ObRowsMerger.exec (m : ObRowsMerger σ (ObScanMergeLoserTreeItem ρ)) (s : σ) :
    MergerCall ρ → ObResult (σ × Option (ρ × ℤ))
  | .push row iterIdx => do
    let s ← m.push s { row := row, iterIdx := iterIdx }
    return (s, none)
  | .pushTop row iterIdx => do
    let s ← m.pushTop s { row := row, iterIdx := iterIdx }
    return (s, none)
  | .rebuild => do
    let s ← m.rebuild s
    return (s, none)
  | .pop => do
    let s ← m.pop s
    return (s, none)
  | .top => do
    let item ← m.top s
    return (s, some (item.row, item.iterIdx))

/-- The merger after a call. The only call that fails in the runs below is one on an empty merger,
which the code rejects before it changes anything. -/
def ObRowsMerger.after (m : ObRowsMerger σ (ObScanMergeLoserTreeItem ρ)) (s : σ)
    (c : MergerCall ρ) : σ :=
  match m.exec s c with
  | .ok (s', _) => s'
  | .error _ => s

/-- The live items of a merger in the order of the merge, whether items were pushed since the last
rebuild, and whether the last call was a `pop`. -/
structure SortedItems (ρ : Type) where
  live : List (ρ × ℤ) := []
  pending : Bool := false
  popped : Bool := false

namespace SortedItems

/-- The order of the merge: by key, and by iterator among equal keys. -/
def before (key : ρ → κ) (a b : ρ × ℤ) : Prop := toLex (key a.1, a.2) ≤ toLex (key b.1, b.2)

instance (key : ρ → κ) : DecidableRel (before key) := fun a b =>
  inferInstanceAs (Decidable (toLex (key a.1, a.2) ≤ toLex (key b.1, b.2)))

instance (key : ρ → κ) : Std.Total (before key) := ⟨fun _ _ => le_total _ _⟩

instance (key : ρ → κ) : IsTrans (ρ × ℤ) (before key) := ⟨fun _ _ _ => le_trans⟩

/-- The calls that are allowed on a merger for `n` items: an item is pushed when there is room and
its iterator has none, `push_top` only right after a `pop`, and nothing is read between a `push` and
the next `rebuild`. -/
def Legal (n : ℕ) (a : SortedItems ρ) : MergerCall ρ → Prop
  | .push _ iterIdx => a.live.length < n ∧ ∀ x ∈ a.live, x.2 ≠ iterIdx
  | .pushTop _ iterIdx => a.popped = true ∧ a.live.length < n ∧ ∀ x ∈ a.live, x.2 ≠ iterIdx
  | .rebuild => True
  | .pop => a.pending = false
  | .top => a.pending = false

/-- What a call answers: nothing but `OB_SUCCESS`, the first item for `top`, and `OB_EMPTY_RESULT`
for `top` and `pop` when there is none. -/
def answer (a : SortedItems ρ) : MergerCall ρ → ObResult (Option (ρ × ℤ))
  | .pop =>
    match a.live with
    | [] => .error .emptyResult
    | _ :: _ => .ok none
  | .top =>
    match a.live with
    | [] => .error .emptyResult
    | x :: _ => .ok (some x)
  | _ => .ok none

/-- The items after a call. -/
def next (key : ρ → κ) (a : SortedItems ρ) : MergerCall ρ → SortedItems ρ
  | .push row iterIdx =>
    { live := a.live.orderedInsert (before key) (row, iterIdx), pending := true }
  | .pushTop row iterIdx =>
    { live := a.live.orderedInsert (before key) (row, iterIdx), pending := a.pending }
  | .rebuild => { live := a.live }
  | .pop => { live := a.live.tail, pending := a.pending, popped := true }
  | .top => { live := a.live, pending := a.pending }

/-- The sorted items as a machine that reads calls. -/
def machine (key : ρ → κ) (n : ℕ) : Machine (SortedItems ρ) (MergerCall ρ) where
  ok := Legal n
  next := next key

/-- The items are sorted, at most one for each iterator, and nothing is pending after a `pop`. -/
structure WellFormed (key : ρ → κ) (a : SortedItems ρ) : Prop where
  sorted : a.live.Pairwise (before key)
  nodup : (a.live.map Prod.snd).Nodup
  popped : a.popped = true → a.pending = false

theorem nodup_orderedInsert {key : ρ → κ} {l : List (ρ × ℤ)} {x : ρ × ℤ}
    (h : (l.map Prod.snd).Nodup) (hx : ∀ y ∈ l, y.2 ≠ x.2) :
    ((l.orderedInsert (before key) x).map Prod.snd).Nodup := by
  rw [((perm_orderedInsert (before key) x l).map Prod.snd).nodup_iff, map_cons,
    nodup_cons]
  refine ⟨fun hin => ?_, h⟩
  obtain ⟨y, hy, hyx⟩ := mem_map.mp hin
  exact hx y hy hyx

theorem WellFormed.next {key : ρ → κ} {n : ℕ} {a : SortedItems ρ} {c : MergerCall ρ}
    (h : a.WellFormed key) (hc : a.Legal n c) : (a.next key c).WellFormed key := by
  cases c with
  | push row iterIdx =>
    exact ⟨h.sorted.orderedInsert _ _, nodup_orderedInsert h.nodup hc.2, by simp [SortedItems.next]⟩
  | pushTop row iterIdx =>
    exact ⟨h.sorted.orderedInsert _ _, nodup_orderedInsert h.nodup hc.2.2,
      by simp [SortedItems.next]⟩
  | rebuild => exact ⟨h.sorted, h.nodup, by simp [SortedItems.next]⟩
  | pop =>
    refine ⟨h.sorted.tail, ?_, fun _ => hc⟩
    show (a.live.tail.map Prod.snd).Nodup
    rw [map_tail]
    exact h.nodup.sublist (tail_sublist _)
  | top => exact ⟨h.sorted, h.nodup, by simp [SortedItems.next]⟩

/-- An item that nothing goes before is the first. -/
theorem WellFormed.eq_cons {key : ρ → κ} {a : SortedItems ρ} (h : a.WellFormed key) {x : ρ × ℤ}
    {rest : Multiset (ρ × ℤ)} (hlive : (a.live : Multiset (ρ × ℤ)) = x ::ₘ rest)
    (hx : ∀ y ∈ rest, before key x y) : ∃ l, a.live = x :: l ∧ (l : Multiset (ρ × ℤ)) = rest := by
  cases hl : a.live with
  | nil =>
    rw [hl] at hlive
    exact absurd hlive.symm Multiset.cons_ne_zero
  | cons y l =>
    have hsorted := h.sorted
    have hnodup := h.nodup
    rw [hl] at hlive hsorted hnodup
    have hxmem : x ∈ y :: l := by
      rw [← Multiset.mem_coe, hlive]
      exact Multiset.mem_cons_self x rest
    have hyx : y = x := by
      rcases mem_cons.mp hxmem with hyx | hxl
      · exact hyx.symm
      · -- then `x` and `y` go before each other, so they are of one iterator
        have hle : before key y x := rel_of_pairwise_cons hsorted hxl
        have hymem : y ∈ x ::ₘ rest := by
          rw [← hlive]
          exact Multiset.mem_coe.mpr mem_cons_self
        rcases Multiset.mem_cons.mp hymem with hyx | hyrest
        · exact hyx
        · have heq := le_antisymm hle (hx y hyrest)
          rw [map_cons, nodup_cons] at hnodup
          refine absurd (mem_map.mpr ⟨x, hxl, ?_⟩) hnodup.1
          exact (Prod.mk.inj (toLex.injective heq)).2.symm
    subst hyx
    refine ⟨l, rfl, ?_⟩
    rw [← Multiset.cons_coe] at hlive
    exact (Multiset.cons_inj_right y).mp hlive

end SortedItems

open SortedItems

/-- A merger answers as the sorted items do. -/
structure Answers (key : ρ → κ) (n : ℕ) (m : ObRowsMerger σ (ObScanMergeLoserTreeItem ρ)) (s : σ)
    (a : SortedItems ρ) : Prop where
  count : m.count s = a.live.length
  empty : m.empty s = true ↔ a.live = []
  call : ∀ c, a.Legal n c → (m.exec s c).map Prod.snd = a.answer c
  unique : a.pending = false → ∀ x rest, a.live = x :: rest →
    (m.isUniqueChampion s = true ↔ ∀ y ∈ rest, key y.1 ≠ key x.1)

/-- A relation between mergers and sorted items that shows in the answers and that legal calls keep.
-/
structure Simulation (key : ρ → κ) (n : ℕ) (m : ObRowsMerger σ (ObScanMergeLoserTreeItem ρ))
    (R : σ → SortedItems ρ → Prop) : Prop where
  answers : ∀ s a, R s a → Answers key n m s a
  step : ∀ s a c, R s a → a.Legal n c → R (m.after s c) (a.next key c)

/-- The relation holds after every legal sequence of calls. -/
theorem Simulation.run {key : ρ → κ} {n : ℕ} {m : ObRowsMerger σ (ObScanMergeLoserTreeItem ρ)}
    {R : σ → SortedItems ρ → Prop} (h : Simulation key n m R) {s : σ} {a : SortedItems ρ}
    {cs : List (MergerCall ρ)} (hR : R s a) (hcs : (machine key n).Accepts a cs) :
    R (cs.foldl m.after s) ((machine key n).run a cs) := by
  induction cs generalizing s a with
  | nil => exact hR
  | cons c cs ih => exact ih (h.step s a c hR hcs.1) hcs.2

/-! ### The loser tree -/

/-- What the scan sees of an item. -/
def ObScanMergeLoserTreeItem.entry (x : ObScanMergeLoserTreeItem ρ) : ρ × ℤ := (x.row, x.iterIdx)

/-- The loser tree of a scan, with the rows ordered by `key`. -/
abbrev scanMergeLoserTree (key : ρ → κ) :
    ObRowsMerger (ObMergeLoserTree (ObScanMergeLoserTreeItem ρ)) (ObScanMergeLoserTreeItem ρ) :=
  ObMergeLoserTree.rowsMerger (fun x => key x.row) fun x => x.iterIdx

/-- A loser tree that holds the sorted items. -/
structure TreeHolds (key : ρ → κ) (n : ℕ) (t : ObMergeLoserTree (ObScanMergeLoserTreeItem ρ))
    (a : SortedItems ρ) : Prop where
  valid : t.Valid (fun x => key x.row) (fun x => x.iterIdx) n
  items : t.items.map (·.entry) = a.live
  wellFormed : a.WellFormed key
  pending : t.tree.needRebuild = a.pending
  king : a.popped = true → t.king = none

namespace TreeHolds

variable {key : ρ → κ} {n : ℕ} {t : ObMergeLoserTree (ObScanMergeLoserTreeItem ρ)}
variable {a : SortedItems ρ}

section

variable (h : TreeHolds key n t a)
include h

theorem card_items : t.items.card = a.live.length := by
  rw [← Multiset.card_map (·.entry), h.items, Multiset.coe_card]

theorem apart {iterIdx : ℤ} (hnew : ∀ x ∈ a.live, x.2 ≠ iterIdx) :
    ∀ y ∈ t.items, y.iterIdx ≠ iterIdx := by
  intro y hy
  refine hnew y.entry ?_
  rw [← Multiset.mem_coe, ← h.items]
  exact Multiset.mem_map_of_mem _ hy

theorem items_eq_zero : t.items = 0 ↔ a.live = [] := by
  rw [← Multiset.card_eq_zero, h.card_items, length_eq_zero_iff]

/-- An item that was added is in its place of the sorted list. -/
theorem insert {t' : ObMergeLoserTree (ObScanMergeLoserTreeItem ρ)} {x : ObScanMergeLoserTreeItem ρ}
    (hitems : t'.items = x ::ₘ t.items) :
    t'.items.map (·.entry) = (a.live.orderedInsert (before key) x.entry : Multiset (ρ × ℤ)) := by
  rw [hitems, Multiset.map_cons, h.items, Multiset.cons_coe]
  exact Multiset.coe_eq_coe.mpr (perm_orderedInsert _ _ _).symm

/-- The first item of the list is the one at the top. -/
theorem top_pop (hpending : a.pending = false) (hne : a.live ≠ []) :
    ∃ x l t', a.live = x.entry :: l ∧ t.top = .ok x ∧
      (t.isUniqueChampion = true ↔ ∀ y ∈ l, key y.1 ≠ key x.row) ∧
      t.pop (fun x => key x.row) (fun x => x.iterIdx) = .ok t' ∧
      t'.Valid (fun x => key x.row) (fun x => x.iterIdx) n ∧
      t'.items.map (·.entry) = l ∧ t'.king = none ∧ t'.tree.needRebuild = false := by
  obtain ⟨x, rest, hitems, hleast, huniq, htop, t', hpop, hv, hrest, hk, hneed⟩ :=
    ObMergeLoserTree.top_pop_spec h.valid (h.pending.trans hpending)
      (fun h0 => hne (h.items_eq_zero.mp h0))
  obtain ⟨l, hl, hlrest⟩ := h.wellFormed.eq_cons
    (show (a.live : Multiset (ρ × ℤ)) = x.entry ::ₘ rest.map (·.entry) by
      rw [← h.items, hitems, Multiset.map_cons]) (by
      intro y hy
      obtain ⟨y', hy', rfl⟩ := Multiset.mem_map.mp hy
      exact hleast y' hy')
  refine ⟨x, l, t', hl, htop, ?_, hpop, hv, by rw [hrest, hlrest], hk, hneed⟩
  rw [huniq]
  constructor
  · intro hall y hy
    rw [← Multiset.mem_coe, hlrest] at hy
    obtain ⟨y', hy', rfl⟩ := Multiset.mem_map.mp hy
    exact hall y' hy'
  · intro hall y hy
    refine hall y.entry ?_
    rw [← Multiset.mem_coe, hlrest]
    exact Multiset.mem_map_of_mem _ hy

/-- One legal call on the tree: its answer, and what it leaves. -/
theorem exec {c : MergerCall ρ} (hc : a.Legal n c) :
    ((scanMergeLoserTree key).exec t c).map Prod.snd = a.answer c ∧
      TreeHolds key n ((scanMergeLoserTree key).after t c) (a.next key c) := by
  have hwf := h.wellFormed.next hc
  cases c with
  | push row iterIdx =>
    obtain ⟨t', hpush, hv, hitems, hneed⟩ := ObMergeLoserTree.push_spec h.valid
      (x := { row := row, iterIdx := iterIdx }) (by rw [h.card_items]; exact hc.1) (h.apart hc.2)
    have hexec : (scanMergeLoserTree key).exec t (.push row iterIdx) = .ok (t', none) := by
      show (do let s ← t.push { row := row, iterIdx := iterIdx }; return (s, none)) = _
      rw [hpush]
      rfl
    rw [ObRowsMerger.after, hexec]
    exact ⟨rfl, hv, h.insert hitems, hwf, hneed, by simp [SortedItems.next]⟩
  | pushTop row iterIdx =>
    have hpending := h.wellFormed.popped hc.1
    obtain ⟨t', hpush, hv, hitems, hneed⟩ := ObMergeLoserTree.pushTop_spec h.valid
      (h.king hc.1) (h.pending.trans hpending) (x := { row := row, iterIdx := iterIdx })
      (by rw [h.card_items]; exact hc.2.1) (h.apart hc.2.2)
    have hexec : (scanMergeLoserTree key).exec t (.pushTop row iterIdx) = .ok (t', none) := by
      show (do
        let s ← t.pushTop _ _ { row := row, iterIdx := iterIdx }
        return (s, none)) = _
      rw [hpush]
      rfl
    rw [ObRowsMerger.after, hexec]
    exact ⟨rfl, hv, h.insert hitems, hwf, hneed.trans hpending.symm, by simp [SortedItems.next]⟩
  | rebuild =>
    obtain ⟨t', hre, hv, hitems, hneed⟩ := ObMergeLoserTree.rebuild_spec h.valid
    have hexec : (scanMergeLoserTree key).exec t .rebuild = .ok (t', none) := by
      show (do let s ← t.rebuild _ _; return (s, none)) = _
      rw [hre]
      rfl
    rw [ObRowsMerger.after, hexec]
    exact ⟨rfl, hv, by rw [hitems, h.items]; rfl, hwf, hneed, by simp [SortedItems.next]⟩
  | pop =>
    by_cases hne : a.live = []
    · obtain ⟨-, hpop⟩ := ObMergeLoserTree.top_pop_empty h.valid (h.pending.trans hc)
        (h.items_eq_zero.mpr hne)
      have hexec : (scanMergeLoserTree key).exec t .pop = .error .emptyResult := by
        show (do let s ← t.pop _ _; return (s, none)) = _
        rw [hpop]
        rfl
      rw [ObRowsMerger.after, hexec, answer, hne]
      refine ⟨rfl, h.valid, ?_, hwf, h.pending, fun _ => ?_⟩
      · rw [h.items, SortedItems.next, hne]
        rfl
      · exact ObMergeLoserTree.king_of_empty (h.items_eq_zero.mpr hne)
    · obtain ⟨x, l, t', hl, -, -, hpop, hv, hitems, hk, hneed⟩ := h.top_pop hc hne
      have hexec : (scanMergeLoserTree key).exec t .pop = .ok (t', none) := by
        show (do let s ← t.pop _ _; return (s, none)) = _
        rw [hpop]
        rfl
      rw [ObRowsMerger.after, hexec, answer, hl]
      refine ⟨rfl, hv, ?_, hwf, hneed.trans hc.symm, fun _ => hk⟩
      rw [hitems, SortedItems.next, hl]
      rfl
  | top =>
    by_cases hne : a.live = []
    · obtain ⟨htop, -⟩ := ObMergeLoserTree.top_pop_empty h.valid (h.pending.trans hc)
        (h.items_eq_zero.mpr hne)
      have hexec : (scanMergeLoserTree key).exec t .top = .error .emptyResult := by
        show (do
          let item ← t.top
          return (t, some (item.row, item.iterIdx))) = _
        rw [htop]
        rfl
      rw [ObRowsMerger.after, hexec, answer, hne]
      exact ⟨rfl, h.valid, h.items, hwf, h.pending, by simp [SortedItems.next]⟩
    · obtain ⟨x, l, t', hl, htop, -⟩ := h.top_pop hc hne
      have hexec : (scanMergeLoserTree key).exec t .top = .ok (t, some x.entry) := by
        show (do
          let item ← t.top
          return (t, some (item.row, item.iterIdx))) = _
        rw [htop]
        rfl
      rw [ObRowsMerger.after, hexec, answer, hl]
      exact ⟨rfl, h.valid, h.items, hwf, h.pending, by simp [SortedItems.next]⟩

end

end TreeHolds

/-- The loser tree is simulated by the sorted items. -/
theorem mergeLoserTree_simulation (key : ρ → κ) (n : ℕ) :
    Simulation key n (scanMergeLoserTree key) (TreeHolds key n) where
  answers := by
    intro t a h
    refine ⟨?_, ?_, fun c hc => (h.exec hc).1, ?_⟩
    · show t.count = _
      rw [← h.valid.card_items, h.card_items]
    · show t.empty = true ↔ _
      rw [h.valid.empty_iff, h.items_eq_zero]
    · intro hpending x rest hlive
      obtain ⟨x', l, t', hl, -, huniq, -⟩ := h.top_pop hpending (by simp [hlive])
      rw [hlive] at hl
      obtain ⟨rfl, rfl⟩ := List.cons.inj hl
      exact huniq
  step := fun t a c h hc => (h.exec hc).2

/-! ### The sorted array -/

namespace ObSimpleRowsMerger

variable {key : ρ → κ} {x : ObScanMergeLoserTreeItem ρ}

/-- The first `i` cells of an array of items. -/
def cells (items : ℕ → ObScanMergeLoserTreeItem ρ) (i : ℕ) : List (ObScanMergeLoserTreeItem ρ) :=
  (List.range i).map items

theorem cells_succ (items : ℕ → ObScanMergeLoserTreeItem ρ) (i : ℕ) :
    cells items (i + 1) = cells items i ++ [items i] := by
  rw [cells, range_succ, map_append]
  rfl

variable {items : ℕ → ObScanMergeLoserTreeItem ρ} {i : ℕ} {A A' : List (ObScanMergeLoserTreeItem ρ)}

theorem cells_congr {items' : ℕ → ObScanMergeLoserTreeItem ρ}
    (h : ∀ j, j < i → items' j = items j) : cells items' i = cells items i :=
  map_congr_left fun j hj => h j (mem_range.mp hj)

theorem cells_update_of_le {j : ℕ} (h : i ≤ j) (y : ObScanMergeLoserTreeItem ρ) :
    cells (Function.update items j y) i = cells items i :=
  cells_congr fun k hk => update_of_ne (by omega) ..

/-- The item `x` goes before `b`. -/
def Precedes (key : ρ → κ) (x b : ObScanMergeLoserTreeItem ρ) : Prop :=
  toLex (key x.row, x.iterIdx) < toLex (key b.row, b.iterIdx)

/-- Where the loop of `push` stops. -/
inductive StopsAt (key : ρ → κ) (x : ObScanMergeLoserTreeItem ρ) :
    List (ObScanMergeLoserTreeItem ρ) → List (ObScanMergeLoserTreeItem ρ) → Prop
  | nil : StopsAt key x [] []
  | smaller (l : List (ObScanMergeLoserTreeItem ρ)) (a : ObScanMergeLoserTreeItem ρ) :
    key a.row < key x.row → StopsAt key x (l ++ [a]) (l ++ [a])
  | equal (l : List (ObScanMergeLoserTreeItem ρ)) (a : ObScanMergeLoserTreeItem ρ) :
    key a.row = key x.row → a.iterIdx ≤ x.iterIdx →
      StopsAt key x (l ++ [a]) (l ++ [{ a with equalWithNext := true }])

/-- What the loop of `push` over the first `i` cells leaves. -/
structure Shifted (key : ρ → κ) (x : ObScanMergeLoserTreeItem ρ) (i : ℕ)
    (items : ℕ → ObScanMergeLoserTreeItem ρ) (e : Bool)
    (r : (ℕ → ObScanMergeLoserTreeItem ρ) × ℕ × Bool)
    (A A' B : List (ObScanMergeLoserTreeItem ρ)) : Prop where
  cells_eq : cells items i = A ++ B
  stops : StopsAt key x A A'
  above : ∀ b ∈ B, Precedes key x b
  flag : r.2.2 = true ↔ e = true ∨ ∃ b ∈ B, key b.row = key x.row
  pos : r.2.1 ≤ i
  rest : ∀ j, i < j → r.1 j = items j
  result : ∀ y, cells (Function.update r.1 r.2.1 y) (i + 1) = A' ++ y :: B

/-- The item at `i` moves up, and the loop goes on below it. -/
theorem Shifted.move {e e' : Bool} {r : (ℕ → ObScanMergeLoserTreeItem ρ) × ℕ × Bool}
    {B : List (ObScanMergeLoserTreeItem ρ)}
    (h : Shifted key x i (Function.update items (i + 1) (items i)) e' r A A' B)
    (hlt : Precedes key x (items i)) (he : e' = true ↔ e = true ∨ key (items i).row = key x.row) :
    Shifted key x (i + 1) items e r A A' (B ++ [items i]) where
  cells_eq := by
    rw [cells_succ, ← append_assoc, ← h.cells_eq, cells_update_of_le (by omega)]
  stops := h.stops
  above := by
    intro b hb
    rcases mem_append.mp hb with hb | hb
    · exact h.above b hb
    · rw [mem_singleton.mp hb]
      exact hlt
  flag := by
    rw [h.flag, he]
    simp only [mem_append, mem_singleton, or_and_right, exists_or, exists_eq_left]
    rw [or_assoc]
    exact or_congr_right or_comm
  pos := h.pos.trans (Nat.le_succ i)
  rest := by
    intro j hj
    rw [h.rest j (by omega), update_of_ne (by omega)]
  result := by
    intro y
    have hpos := h.pos
    rw [cells_succ, h.result, update_of_ne (by omega), h.rest (i + 1) (by omega),
      update_self, append_assoc, cons_append]

/-- **The loop of `push`** finds the place of `x`. -/
theorem shiftItems_spec (key : ρ → κ) (x : ObScanMergeLoserTreeItem ρ) (i : ℕ)
    (items : ℕ → ObScanMergeLoserTreeItem ρ) (e : Bool) :
    ∃ A A' B, Shifted key x i items e (shiftItems key x i items e) A A' B := by
  induction i generalizing items e with
  | zero =>
    refine ⟨[], [], [], rfl, .nil, by simp, by simp [shiftItems], le_rfl, fun _ _ => rfl, ?_⟩
    intro y
    simp [shiftItems, cells]
  | succ i ih =>
    rcases lt_trichotomy (key x.row) (key (items i).row) with hk | hk | hk
    · have hcmp : compare (key x.row) (key (items i).row) = .lt := compare_lt_iff_lt.mpr hk
      rw [shiftItems]
      simp only [hcmp]
      obtain ⟨A, A', B, h⟩ := ih (Function.update items (i + 1) (items i)) e
      exact ⟨A, A', _, h.move (Prod.Lex.toLex_lt_toLex.mpr (.inl hk)) (by simp [hk.ne'])⟩
    · have hcmp : compare (key x.row) (key (items i).row) = .eq := compare_eq_iff_eq.mpr hk
      rw [shiftItems]
      simp only [hcmp]
      by_cases hid : x.iterIdx < (items i).iterIdx
      · rw [if_pos hid]
        obtain ⟨A, A', B, h⟩ := ih (Function.update items (i + 1) (items i)) true
        exact ⟨A, A', _, h.move (Prod.Lex.toLex_lt_toLex.mpr (.inr ⟨hk, hid⟩)) (by simp [hk])⟩
      · rw [if_neg hid]
        refine ⟨cells items i ++ [items i],
          cells items i ++ [{ items i with equalWithNext := true }], [], ?_,
          .equal _ _ hk.symm (by omega), by simp, by simp, le_rfl, ?_, ?_⟩
        · rw [append_nil, cells_succ]
        · intro j hj
          exact update_of_ne (by omega) ..
        · intro y
          dsimp only
          rw [cells_succ, cells_succ, update_self, update_of_ne (by omega),
            update_self, cells_update_of_le (by omega), cells_update_of_le le_rfl]
    · have hcmp : compare (key x.row) (key (items i).row) = .gt := compare_gt_iff_gt.mpr hk
      rw [shiftItems]
      simp only [hcmp]
      refine ⟨cells items (i + 1), cells items (i + 1), [], by rw [append_nil], ?_, by simp,
        by simp, le_rfl, fun _ _ => rfl, ?_⟩
      · rw [cells_succ]
        exact .smaller _ _ hk
      · intro y
        rw [cells_succ, update_self, cells_update_of_le le_rfl]

/-- Each item's flag says whether the next one has its key. -/
def FlagsRight (key : ρ → κ) : List (ObScanMergeLoserTreeItem ρ) → Prop
  | [] => True
  | [a] => a.equalWithNext = false
  | a :: b :: l => (a.equalWithNext = true ↔ key a.row = key b.row) ∧ FlagsRight key (b :: l)

theorem StopsAt.entries (h : StopsAt key x A A') : A'.map (·.entry) = A.map (·.entry) := by
  cases h with
  | nil => rfl
  | smaller l a _ => rfl
  | equal l a _ _ =>
    rw [map_append, map_append]
    rfl

/-- What is below the place of `x` goes before it. -/
theorem StopsAt.lt (h : StopsAt key x A A') (hsorted : (A.map (·.entry)).Pairwise (before key))
    (hnew : ∀ a ∈ A, a.iterIdx ≠ x.iterIdx) {p : ρ × ℤ} (hp : p ∈ A.map (·.entry)) :
    ¬ before key x.entry p := by
  have hlast : ∀ l (a : ObScanMergeLoserTreeItem ρ), A = l ++ [a] →
      toLex (key a.row, a.iterIdx) < toLex (key x.row, x.iterIdx) →
      toLex (key p.1, p.2) < toLex (key x.row, x.iterIdx) := by
    rintro l a rfl hlt
    rw [map_append, map_cons, map_nil] at hp hsorted
    rcases mem_append.mp hp with hp | hp
    · exact (pairwise_append.mp hsorted).2.2 p hp _ (mem_singleton_self _) |>.trans_lt hlt
    · rw [mem_singleton.mp hp]
      exact hlt
  refine not_le_of_gt ?_
  cases h with
  | nil => exact absurd hp (not_mem_nil)
  | smaller l a hk => exact hlast l a rfl (Prod.Lex.toLex_lt_toLex.mpr (.inl hk))
  | equal l a hk hid =>
    have hne := hnew a (mem_append_right l (mem_singleton_self a))
    exact hlast l a rfl (Prod.Lex.toLex_lt_toLex.mpr (.inr ⟨hk, lt_of_le_of_ne hid hne⟩))

omit [LinearOrder κ] in
theorem FlagsRight.of_append {l l' : List (ObScanMergeLoserTreeItem ρ)}
    (h : FlagsRight key (l ++ l')) : FlagsRight key l' := by
  induction l with
  | nil => exact h
  | cons a l ih =>
    refine ih ?_
    cases hl : l ++ l' with
    | nil => exact trivial
    | cons b l'' =>
      rw [cons_append, hl] at h
      exact h.2

omit [LinearOrder κ] in
/-- The end of the list may be replaced from an item on whose key stays. -/
theorem FlagsRight.replace {l l' l'' : List (ObScanMergeLoserTreeItem ρ)}
    {a a' : ObScanMergeLoserTreeItem ρ} (h : FlagsRight key (l ++ a :: l'))
    (hkey : key a'.row = key a.row) (h' : FlagsRight key (a' :: l'')) :
    FlagsRight key (l ++ a' :: l'') := by
  induction l with
  | nil => exact h'
  | cons b l ih =>
    cases l with
    | nil =>
      refine ⟨?_, h'⟩
      rw [hkey]
      exact h.1
    | cons c l => exact ⟨h.1, ih h.2⟩

/-- Putting `x` in its place keeps the flags right. -/
theorem FlagsRight.insert {B : List (ObScanMergeLoserTreeItem ρ)} {y : ObScanMergeLoserTreeItem ρ}
    (h : FlagsRight key (A ++ B)) (hsorted : B.Pairwise fun a b => key a.row ≤ key b.row)
    (hstop : StopsAt key x A A') (habove : ∀ b ∈ B, Precedes key x b) (hrow : y.row = x.row)
    (hflag : y.equalWithNext = true ↔ ∃ b ∈ B, key b.row = key x.row) :
    FlagsRight key (A' ++ y :: B) := by
  have hkeys : ∀ b ∈ B, key x.row ≤ key b.row := fun b hb =>
    Prod.Lex.monotone_fst _ _ (habove b hb).le
  have hy : FlagsRight key (y :: B) := by
    cases B with
    | nil => simpa [FlagsRight] using hflag
    | cons b B =>
      refine ⟨?_, h.of_append⟩
      rw [hflag, hrow]
      constructor
      · rintro ⟨c, hc, hck⟩
        refine le_antisymm (hkeys b mem_cons_self) ?_
        rcases mem_cons.mp hc with rfl | hc
        · exact hck.le
        · exact (rel_of_pairwise_cons hsorted hc).trans hck.le
      · exact fun hk => ⟨b, mem_cons_self, hk.symm⟩
  cases hstop with
  | nil => exact hy
  | smaller l a hk =>
    rw [append_assoc] at h ⊢
    refine h.replace rfl ⟨?_, hy⟩
    -- the flag of `a` was not set, since what follows has a greater key
    have ha : FlagsRight key (a :: B) := h.of_append
    have hno : ¬ a.equalWithNext = true := by
      cases B with
      | nil => simpa [FlagsRight] using ha
      | cons b B =>
        rw [ha.1]
        exact (hk.trans_le (hkeys b mem_cons_self)).ne
    rw [hrow]
    exact ⟨fun h => absurd h hno, fun h => absurd h hk.ne⟩
  | equal l a hk _ =>
    rw [append_assoc] at h ⊢
    refine h.replace rfl ⟨?_, hy⟩
    rw [hrow]
    exact ⟨fun _ => hk, fun _ => rfl⟩

end ObSimpleRowsMerger

namespace SortedItems

/-- Where an item goes in a sorted list. -/
theorem orderedInsert_append {key : ρ → κ} {P Q : List (ρ × ℤ)} {x : ρ × ℤ}
    (hP : ∀ p ∈ P, ¬ before key x p) (hQ : ∀ q ∈ Q, before key x q) :
    (P ++ Q).orderedInsert (before key) x = P ++ x :: Q := by
  induction P with
  | nil =>
    cases Q with
    | nil => rfl
    | cons q Q => exact orderedInsert_cons_of_le _ _ (hQ q mem_cons_self)
  | cons p P ih =>
    rw [cons_append, orderedInsert_of_not_le _ _ (hP p mem_cons_self),
      ih fun q hq => hP q (mem_cons_of_mem p hq)]
    rfl

end SortedItems

/-- An array that holds the sorted items. -/
structure ArrayHolds (key : ρ → κ) (n : ℕ) (m : ObSimpleRowsMerger ρ) (a : SortedItems ρ) :
    Prop where
  tableCnt : m.tableCnt = n
  items : (ObSimpleRowsMerger.cells m.items m.itemCnt).map (·.entry) = a.live
  flags : ObSimpleRowsMerger.FlagsRight key (ObSimpleRowsMerger.cells m.items m.itemCnt)
  wellFormed : a.WellFormed key

namespace ArrayHolds

variable {key : ρ → κ} {n : ℕ} {m : ObSimpleRowsMerger ρ} {a : SortedItems ρ}

section

variable (h : ArrayHolds key n m a)
include h

theorem itemCnt_eq : m.itemCnt = a.live.length := by
  rw [← h.items, length_map, ObSimpleRowsMerger.cells, length_map, length_range]

theorem empty_iff : m.empty = true ↔ a.live = [] := by
  rw [ObSimpleRowsMerger.empty, beq_iff_eq, h.itemCnt_eq, length_eq_zero_iff]

/-- **`push`** puts an item of a new iterator in its place. -/
theorem push (row : ρ) {iterIdx : ℤ} (hroom : a.live.length < n)
    (hnew : ∀ x ∈ a.live, x.2 ≠ iterIdx) :
    ∃ m', m.push key { row := row, iterIdx := iterIdx } = .ok m' ∧ m'.tableCnt = n ∧
      (ObSimpleRowsMerger.cells m'.items m'.itemCnt).map (·.entry) =
        a.live.orderedInsert (before key) (row, iterIdx) ∧
      ObSimpleRowsMerger.FlagsRight key (ObSimpleRowsMerger.cells m'.items m'.itemCnt) := by
  have hcnt := h.itemCnt_eq
  have hcheck : ¬ m.itemCnt + 1 > m.tableCnt := by
    rw [h.tableCnt]
    omega
  rw [ObSimpleRowsMerger.push, if_neg hcheck]
  by_cases h0 : m.itemCnt = 0
  · have hlive : a.live = [] := by rwa [hcnt, length_eq_zero_iff] at h0
    rw [if_pos h0]
    refine ⟨_, rfl, h.tableCnt, ?_, ?_⟩
    · simp [h0, hlive, ObSimpleRowsMerger.cells, ObScanMergeLoserTreeItem.entry]
    · simp [h0, ObSimpleRowsMerger.cells, ObSimpleRowsMerger.FlagsRight]
  · rw [if_neg h0]
    obtain ⟨A, A', B, hs⟩ := ObSimpleRowsMerger.shiftItems_spec key
      { row := row, iterIdx := iterIdx } m.itemCnt m.items false
    have hitems := h.items
    have hsorted := h.wellFormed.sorted
    have hflags := h.flags
    rw [hs.cells_eq] at hitems hflags
    rw [← hitems, map_append] at hsorted hnew
    refine ⟨_, rfl, h.tableCnt, ?_, ?_⟩
    · rw [hs.result, map_append, map_cons, hs.stops.entries, ← hitems, map_append,
        orderedInsert_append]
      · congr 2
        split_ifs <;> rfl
      · intro p hp
        refine hs.stops.lt (pairwise_append.mp hsorted).1 ?_ hp
        exact fun a ha => hnew _ (mem_append_left _ (mem_map_of_mem ha))
      · intro q hq
        obtain ⟨b, hb, rfl⟩ := mem_map.mp hq
        exact (hs.above b hb).le
    · rw [hs.result]
      refine hflags.insert ?_ hs.stops hs.above (by split_ifs <;> rfl) ?_
      · refine (pairwise_map.mp (pairwise_append.mp hsorted).2.1).imp ?_
        exact fun hle => Prod.Lex.monotone_fst _ _ hle
      · have hflag := hs.flag
        simp only [Bool.false_eq_true, false_or] at hflag
        rw [← hflag]
        split_ifs with hb
        · simp [hb]
        · simp [hb]

/-- The first cell, and what `pop` leaves of the others. -/
theorem cons {x : ρ × ℤ} {l : List (ρ × ℤ)} (hlive : a.live = x :: l) :
    (m.items 0).entry = x ∧
      ∃ m', m.pop = .ok m' ∧ m'.tableCnt = n ∧
        ObSimpleRowsMerger.cells m.items m.itemCnt =
          m.items 0 :: ObSimpleRowsMerger.cells m'.items m'.itemCnt ∧
        (ObSimpleRowsMerger.cells m'.items m'.itemCnt).map (·.entry) = l := by
  have hcnt := h.itemCnt_eq
  have hitems := h.items
  rw [hlive, length_cons] at hcnt
  have hempty : ¬ m.empty = true := by simp [ObSimpleRowsMerger.empty, hcnt]
  have hcells : ObSimpleRowsMerger.cells m.items m.itemCnt =
      m.items 0 :: ObSimpleRowsMerger.cells
        (fun i => if i < m.itemCnt - 1 then m.items (i + 1) else m.items i) (m.itemCnt - 1) := by
    rw [hcnt, ObSimpleRowsMerger.cells, range_succ_eq_map, map_cons, map_map,
      ObSimpleRowsMerger.cells]
    congr 1
    refine map_congr_left fun i hi => ?_
    have hi' := mem_range.mp hi
    rw [if_pos (by omega)]
    rfl
  rw [hcells, map_cons, hlive] at hitems
  obtain ⟨hx, hl⟩ := List.cons.inj hitems
  rw [ObSimpleRowsMerger.pop, if_neg hempty]
  exact ⟨hx, _, rfl, h.tableCnt, hcells, hl⟩

/-- One legal call on the array: its answer, and what it leaves. -/
theorem exec {c : MergerCall ρ} (hc : a.Legal n c) :
    ((ObSimpleRowsMerger.rowsMerger key).exec m c).map Prod.snd = a.answer c ∧
      ArrayHolds key n ((ObSimpleRowsMerger.rowsMerger key).after m c) (a.next key c) := by
  have hwf := h.wellFormed.next hc
  cases c with
  | push row iterIdx =>
    obtain ⟨m', hpush, htc, hitems, hflags⟩ := h.push row hc.1 hc.2
    have hexec : (ObSimpleRowsMerger.rowsMerger key).exec m (.push row iterIdx) =
        .ok (m', none) := by
      show (do let s ← m.push key { row := row, iterIdx := iterIdx }; return (s, none)) = _
      rw [hpush]
      rfl
    rw [ObRowsMerger.after, hexec]
    exact ⟨rfl, htc, hitems, hflags, hwf⟩
  | pushTop row iterIdx =>
    obtain ⟨m', hpush, htc, hitems, hflags⟩ := h.push row hc.2.1 hc.2.2
    have hexec : (ObSimpleRowsMerger.rowsMerger key).exec m (.pushTop row iterIdx) =
        .ok (m', none) := by
      show (do let s ← m.push key { row := row, iterIdx := iterIdx }; return (s, none)) = _
      rw [hpush]
      rfl
    rw [ObRowsMerger.after, hexec]
    exact ⟨rfl, htc, hitems, hflags, hwf⟩
  | rebuild => exact ⟨rfl, h.tableCnt, h.items, h.flags, hwf⟩
  | pop =>
    cases hlive : a.live with
    | nil =>
      have hexec : (ObSimpleRowsMerger.rowsMerger key).exec m .pop = .error .emptyResult := by
        show (do let s ← m.pop; return (s, none)) = _
        rw [ObSimpleRowsMerger.pop, if_pos (h.empty_iff.mpr hlive)]
        rfl
      rw [ObRowsMerger.after, hexec, answer, hlive]
      refine ⟨rfl, h.tableCnt, ?_, h.flags, hwf⟩
      rw [h.items, SortedItems.next, hlive]
      rfl
    | cons x l =>
      obtain ⟨-, m', hpop, htc, hcells, hitems⟩ := h.cons hlive
      have hexec : (ObSimpleRowsMerger.rowsMerger key).exec m .pop = .ok (m', none) := by
        show (do let s ← m.pop; return (s, none)) = _
        rw [hpop]
        rfl
      have hflags := h.flags
      rw [hcells, ← singleton_append] at hflags
      rw [ObRowsMerger.after, hexec, answer, hlive]
      refine ⟨rfl, htc, ?_, hflags.of_append, hwf⟩
      rw [hitems, SortedItems.next, hlive]
      rfl
  | top =>
    cases hlive : a.live with
    | nil =>
      have hexec : (ObSimpleRowsMerger.rowsMerger key).exec m .top = .error .emptyResult := by
        show (do
          let item ← m.top
          return (m, some (item.row, item.iterIdx))) = _
        rw [ObSimpleRowsMerger.top, if_pos (h.empty_iff.mpr hlive)]
        rfl
      rw [ObRowsMerger.after, hexec, answer, hlive]
      exact ⟨rfl, h.tableCnt, h.items, h.flags, hwf⟩
    | cons x l =>
      obtain ⟨hx, -⟩ := h.cons hlive
      have hexec : (ObSimpleRowsMerger.rowsMerger key).exec m .top = .ok (m, some x) := by
        show (do
          let item ← m.top
          return (m, some (item.row, item.iterIdx))) = _
        rw [ObSimpleRowsMerger.top, if_neg (fun he => by simp [h.empty_iff.mp he] at hlive), ← hx]
        rfl
      rw [ObRowsMerger.after, hexec, answer, hlive]
      exact ⟨rfl, h.tableCnt, h.items, h.flags, hwf⟩

/-- The flag of the first cell. -/
theorem unique {x : ρ × ℤ} {l : List (ρ × ℤ)} (hlive : a.live = x :: l) :
    m.isUniqueChampion = true ↔ ∀ y ∈ l, key y.1 ≠ key x.1 := by
  obtain ⟨hx, m', -, -, hcells, hitems⟩ := h.cons hlive
  have hflags := h.flags
  have hsorted := h.wellFormed.sorted
  have hempty : ¬ m.empty = true := fun he => by simp [h.empty_iff.mp he] at hlive
  rw [hcells] at hflags
  rw [hlive] at hsorted
  rw [ObSimpleRowsMerger.isUniqueChampion, if_neg hempty, ← hx]
  cases hcs : ObSimpleRowsMerger.cells m'.items m'.itemCnt with
  | nil =>
    rw [hcs] at hflags hitems
    rw [← hitems]
    simpa [ObSimpleRowsMerger.FlagsRight] using hflags
  | cons c cs =>
    rw [hcs] at hflags hitems
    rw [← hitems] at hsorted ⊢
    rw [Bool.not_eq_true', ← Bool.not_eq_true, hflags.1]
    constructor
    · intro hne y hy heq
      -- the second item lies between the first and `y`
      refine hne (le_antisymm ?_ ?_)
      · have hle := rel_of_pairwise_cons hsorted (mem_cons_self (a := c.entry))
        rw [← hx] at hle
        exact Prod.Lex.monotone_fst _ _ hle
      · rw [map_cons] at hy
        rcases mem_cons.mp hy with rfl | hy
        · exact heq.le
        · have hle := rel_of_pairwise_cons (pairwise_cons.mp hsorted).2 hy
          exact (Prod.Lex.monotone_fst _ _ hle).trans heq.le
    · intro hall heq
      exact hall c.entry (by rw [map_cons]; exact mem_cons_self) heq.symm

end

end ArrayHolds

/-- The sorted array is simulated by the sorted items. -/
theorem simpleRowsMerger_simulation (key : ρ → κ) (n : ℕ) :
    Simulation key n (ObSimpleRowsMerger.rowsMerger key) (ArrayHolds key n) where
  answers := fun _ _ h =>
    ⟨h.itemCnt_eq, h.empty_iff, fun _ hc => (h.exec hc).1, fun _ _ _ hlive => h.unique hlive⟩
  step := fun _ _ _ h hc => (h.exec hc).2

/-- After any legal calls both row mergers answer as the sorted list of their items. -/
theorem rowsMergers_refine [Inhabited ρ] (key : ρ → κ) (n : ℕ) (hn : 1 ≤ n)
    (cs : List (MergerCall ρ)) (hcs : (machine key n).Accepts {} cs) :
    (∃ t, ObMergeLoserTree.init n = .ok t ∧
      Answers key n (scanMergeLoserTree key) (cs.foldl (scanMergeLoserTree key).after t)
        ((machine key n).run {} cs)) ∧
    (n ≤ ObSimpleRowsMerger.useSimpleMergerMaxTableCnt →
      ∃ m, ObSimpleRowsMerger.init n = .ok m ∧
        Answers key n (ObSimpleRowsMerger.rowsMerger key)
          (cs.foldl (ObSimpleRowsMerger.rowsMerger key).after m) ((machine key n).run {} cs)) := by
  have hwf : WellFormed key ({} : SortedItems ρ) := ⟨List.Pairwise.nil, by simp, by simp⟩
  constructor
  · obtain ⟨t, hinit, hv, hitems, hking, hneed⟩ := ObMergeLoserTree.init_spec hn
      (fun x : ObScanMergeLoserTreeItem ρ => key x.row) (fun x => x.iterIdx)
    have hR : TreeHolds key n t {} := ⟨hv, by rw [hitems]; rfl, hwf, hneed, fun _ => hking⟩
    have hsim := mergeLoserTree_simulation key n
    exact ⟨t, hinit, hsim.answers _ _ (hsim.run hR hcs)⟩
  · intro _
    rw [ObSimpleRowsMerger.init, if_neg (by omega)]
    refine ⟨_, rfl, ?_⟩
    have hsim := simpleRowsMerger_simulation key n
    refine hsim.answers _ _ (hsim.run ?_ hcs)
    exact ⟨rfl, rfl, trivial, hwf⟩

/-- Two tables with one key: the second is pushed back in front of the rest. -/
theorem rowsMergers_refine_two :
    (machine (id : ℕ → ℕ) 2).Accepts {} [.push 5 0, .push 5 1, .rebuild, .pop, .pushTop 3 0] ∧
    ∃ t, ObMergeLoserTree.init 2 = .ok t ∧
      Answers (id : ℕ → ℕ) 2 (scanMergeLoserTree id)
        ([.push 5 0, .push 5 1, .rebuild, .pop, .pushTop 3 0].foldl
          (scanMergeLoserTree (id : ℕ → ℕ)).after t)
        { live := [(3, 0), (5, 1)] } := by
  have hcs : (machine (id : ℕ → ℕ) 2).Accepts {}
      [.push 5 0, .push 5 1, .rebuild, .pop, .pushTop 3 0] := by
    refine ⟨⟨by decide, by decide⟩, ⟨by decide, by decide⟩, trivial, rfl, ⟨rfl, ?_, ?_⟩, trivial⟩
    · decide
    · decide
  exact ⟨hcs, (rowsMergers_refine (id : ℕ → ℕ) 2 (by decide) _ hcs).1⟩

/-- A new merger has no top. -/
theorem top_of_new_merger :
    (machine (id : ℕ → ℕ) 1).Accepts {} [.top] ∧
    ∃ t, ObMergeLoserTree.init 1 = .ok t ∧
      ((scanMergeLoserTree (id : ℕ → ℕ)).exec t .top).map Prod.snd = .error .emptyResult :=
  ⟨⟨rfl, trivial⟩, _, rfl, rfl⟩

end Andl
