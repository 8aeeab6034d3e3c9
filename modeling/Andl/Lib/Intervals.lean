import Mathlib

/-!
# Consecutive half-open intervals

Bounds in ascending order cut the line into half-open intervals, each from one bound to the next.
-/

namespace Andl

open List

variable {α β : Type*}

/-- The intervals between the bounds. -/
def intervals (bounds : List α) : List (α × α) := bounds.zip bounds.tail

theorem intervals_cons_cons (b c : α) (bs : List α) :
    intervals (b :: c :: bs) = (b, c) :: intervals (c :: bs) := rfl

/-- Each interval starts where the one before it ends. -/
theorem isChain_intervals (bounds : List α) : (intervals bounds).IsChain fun I J => I.2 = J.1 := by
  induction bounds with
  | nil => exact isChain_nil
  | cons b bs ih =>
    match bs, ih with
    | [], _ => exact isChain_nil
    | [c], _ => exact isChain_singleton _
    | c :: d :: bs, ih =>
      rw [intervals_cons_cons, intervals_cons_cons, isChain_cons_cons]
      exact ⟨rfl, ih⟩

theorem rel_of_mem_intervals {r : α → α → Prop} {bounds : List α} (h : bounds.IsChain r)
    {I : α × α} (hI : I ∈ intervals bounds) : r I.1 I.2 := by
  induction bounds with
  | nil => cases hI
  | cons b bs ih =>
    cases bs with
    | nil => cases hI
    | cons c bs =>
      rw [isChain_cons_cons] at h
      rcases mem_cons.mp hI with rfl | hmem
      · exact h.1
      · exact ih h.2 hmem

theorem sum_map_add_ite (f : α → ℕ) (p : α → Bool) (xs : List α) :
    (xs.map fun x => f x + if p x then 1 else 0).sum = (xs.map f).sum + xs.countP p := by
  induction xs with
  | nil => rfl
  | cons x xs ih =>
    rw [map_cons, sum_cons, map_cons, sum_cons, countP_cons, ih]
    omega

/-- Counting by pairs can be done from either side. -/
theorem sum_countP_comm (r : β → α → Bool) (Is : List β) (xs : List α) :
    (Is.map fun I => xs.countP (r I)).sum = (xs.map fun x => Is.countP fun I => r I x).sum := by
  induction Is with
  | nil =>
    induction xs with
    | nil => rfl
    | cons x xs ih => simp
  | cons I Is ih =>
    simp only [map_cons, sum_cons, countP_cons]
    rw [ih, sum_map_add_ite, Nat.add_comm]

variable [LinearOrder α]

/-- A point of a half-open interval. -/
def InInterval (I : α × α) (x : α) : Prop := I.1 ≤ x ∧ x < I.2

instance (I : α × α) (x : α) : Decidable (InInterval I x) := by
  unfold InInterval
  infer_instance

variable {b : α} {bs : List α}

theorem le_getLast_of_isChain (h : (b :: bs).IsChain (· ≤ ·)) :
    b ≤ (b :: bs).getLast (cons_ne_nil b bs) := by
  induction bs generalizing b with
  | nil => exact le_refl b
  | cons c bs ih =>
    rw [isChain_cons_cons] at h
    rw [getLast_cons (cons_ne_nil c bs)]
    exact h.1.trans (ih h.2)

/-- **A point between the first and the last bound** is in exactly one interval; no other is in any.
-/
theorem countP_intervals (h : (b :: bs).IsChain (· ≤ ·)) (x : α) :
    (intervals (b :: bs)).countP (fun I => InInterval I x) =
      if b ≤ x ∧ x < (b :: bs).getLast (cons_ne_nil b bs) then 1 else 0 := by
  induction bs generalizing b with
  | nil =>
    rw [if_neg fun hx => hx.1.not_gt hx.2]
    rfl
  | cons c bs ih =>
    rw [isChain_cons_cons] at h
    have hlast := le_getLast_of_isChain h.2
    rw [intervals_cons_cons, countP_cons, ih h.2, getLast_cons (cons_ne_nil c bs)]
    by_cases hx : x < c
    · rw [if_neg fun hc => hc.1.not_gt hx, Nat.zero_add]
      have hiff : InInterval (b, c) x ↔ b ≤ x ∧ x < (c :: bs).getLast (cons_ne_nil c bs) :=
        ⟨fun hin => ⟨hin.1, hx.trans_le hlast⟩, fun hin => ⟨hin.1, hx⟩⟩
      simp only [decide_eq_true_eq, hiff]
    · have hc := not_lt.mp hx
      rw [if_neg (show ¬ decide (InInterval (b, c) x) = true by
        rw [decide_eq_true_eq]; exact fun hin => hx hin.2), Nat.add_zero]
      have hb := h.1.trans hc
      simp only [hb, hc, true_and]

/-- The points can be counted interval by interval. -/
theorem sum_countP_intervals (h : (b :: bs).IsChain (· ≤ ·)) (xs : List α) :
    ((intervals (b :: bs)).map fun I => xs.countP fun x => InInterval I x).sum =
      xs.countP fun x => b ≤ x ∧ x < (b :: bs).getLast (cons_ne_nil b bs) := by
  rw [sum_countP_comm fun I x => decide (InInterval I x)]
  induction xs with
  | nil => rfl
  | cons x xs ih =>
    rw [map_cons, sum_cons, countP_cons, ih, countP_intervals h, Nat.add_comm]
    simp only [decide_eq_true_eq]

end Andl
