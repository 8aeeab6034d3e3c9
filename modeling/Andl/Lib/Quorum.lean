import Mathlib

/-!
# Order statistics and quorums

The counting a majority-commit protocol rests on.
-/

namespace Andl.Quorum

open List

variable {α β : Type*}

section OrderStatistic

variable [LinearOrder β]

theorem le_getElem_iff_lt_countP (b : β) :
    ∀ (l : List β) (k : ℕ) (hk : k < l.length), l.Pairwise (fun x y => y ≤ x) →
      (b ≤ l[k] ↔ k < l.countP fun x => decide (b ≤ x)) := by
  intro l
  induction l with
  | nil => intro k hk; exact absurd hk (Nat.not_lt_zero k)
  | cons x xs ih =>
    intro k hk hl
    rw [pairwise_cons] at hl
    by_cases hx : b ≤ x
    · rw [countP_cons_of_pos (by simpa using hx)]
      cases k with
      | zero => simpa using hx
      | succ k =>
        rw [getElem_cons_succ, ih k (by simpa using hk) hl.2]
        omega
    · -- nothing below a head that misses `b` reaches it
      have hall : ∀ y ∈ x :: xs, ¬ b ≤ y := by
        intro y hy hby
        rcases mem_cons.mp hy with rfl | hy
        · exact hx hby
        · exact hx (hby.trans (hl.1 y hy))
      have hzero : (x :: xs).countP (fun y => decide (b ≤ y)) = 0 := by
        rw [countP_eq_zero]
        intro y hy
        simpa using hall y hy
      rw [hzero]
      exact iff_of_false (hall _ (getElem_mem hk)) (Nat.not_lt_zero k)

/-- **The `k`-th largest report**: sorting in descending order and reading position `k` answers
whether more than `k` reports reach `b`. -/
theorem le_getElem_insertionSort_iff (b : β) (l : List β) (k : ℕ)
    (hk : k < (l.insertionSort fun x y => y ≤ x).length) :
    b ≤ (l.insertionSort fun x y => y ≤ x)[k] ↔ k < l.countP fun x => decide (b ≤ x) := by
  rw [le_getElem_iff_lt_countP b _ k hk (pairwise_insertionSort _ l),
    (perm_insertionSort _ l).countP_eq]

/-- The number of voters in `l` that reported a value of at least `b`. -/
def reached (f : α → Option β) (b : β) (l : List α) : ℕ :=
  l.countP fun a => (f a).any fun x => decide (b ≤ x)

/-- The number of voters in `l` that reported at all. -/
def reported (f : α → Option β) (l : List α) : ℕ :=
  l.countP fun a => (f a).isSome

theorem countP_filterMap_eq_reached (f : α → Option β) (b : β) (l : List α) :
    (l.filterMap f).countP (fun x => decide (b ≤ x)) = reached f b l := by
  rw [countP_filterMap]
  apply countP_congr
  intro a _
  cases f a with
  | none => rfl
  | some x => rfl

omit [LinearOrder β] in
theorem length_filterMap_eq_reported (f : α → Option β) (l : List α) :
    (l.filterMap f).length = reported f l :=
  length_filterMap_eq_countP

/-- A lower bar is reached by at least as many. -/
theorem reached_anti (f : α → Option β) {b c : β} (hbc : b ≤ c) (l : List α) :
    reached f c l ≤ reached f b l := by
  apply countP_mono_left
  intro a _ h
  cases hfa : f a with
  | none => rw [hfa] at h; cases h
  | some x =>
    rw [hfa] at h
    simpa using hbc.trans (by simpa using h)

end OrderStatistic

end Andl.Quorum
