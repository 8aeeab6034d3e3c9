import Mathlib

/-!
# Counting a history behind a watermark

A history grows at its end, in the order of its keys.
-/

namespace Andl.Watermark

open List

variable {α : Type*} (key : α → ℕ)

/-- The items of the history `G` with keys below `w` are counted in `C`, in order, and the others
are all kept in `L`. -/
structure Counted (G L C : List α) (w : ℕ) : Prop where
  sorted : G.Pairwise (fun a b => key a ≤ key b)
  kept : L.Sublist G
  counted : C = G.filter (fun a => key a < w)
  waiting : L.filter (fun a => w ≤ key a) = G.filter (fun a => w ≤ key a)

variable {key} {G L C V R K : List α} {w w' : ℕ}

theorem counted_nil (key : α → ℕ) : Counted key [] [] [] 0 :=
  ⟨List.Pairwise.nil, List.Sublist.refl _, rfl, rfl⟩

/-- The items below a watermark come before the others. -/
theorem filter_lt_append_filter_le (hG : G.Pairwise (fun a b => key a ≤ key b)) (w : ℕ) :
    G.filter (fun a => key a < w) ++ G.filter (fun a => w ≤ key a) = G := by
  induction G with
  | nil => rfl
  | cons a G ih =>
    rw [pairwise_cons] at hG
    by_cases ha : key a < w
    · have ha' : ¬ w ≤ key a := Nat.not_le.mpr ha
      rw [filter_cons_of_pos (by simpa using ha), filter_cons_of_neg (by simpa using ha'),
        cons_append, ih hG.2]
    · -- all later items are above the watermark too
      have hbelow : G.filter (fun a => key a < w) = [] := by
        rw [filter_eq_nil_iff]
        intro b hb
        have := hG.1 b hb
        simp only [decide_eq_true_eq]
        omega
      have habove : G.filter (fun a => w ≤ key a) = G := by
        rw [filter_eq_self]
        intro b hb
        have := hG.1 b hb
        simp only [decide_eq_true_eq]
        omega
      rw [filter_cons_of_neg (by simpa using ha),
        filter_cons_of_pos (by simpa using ha), hbelow, habove, nil_append]

/-- **New items** come after the history, with keys from the watermark on. -/
theorem Counted.grow (h : Counted key G L C w) {N : List α}
    (hN : N.Pairwise (fun a b => key a ≤ key b)) (hGN : ∀ a ∈ G, ∀ b ∈ N, key a ≤ key b)
    (hw : ∀ b ∈ N, w ≤ key b) : Counted key (G ++ N) (L ++ N) C w where
  sorted := pairwise_append.mpr ⟨h.sorted, hN, hGN⟩
  kept := h.kept.append (List.Sublist.refl N)
  counted := by
    have hnil : N.filter (fun a => key a < w) = [] := by
      rw [filter_eq_nil_iff]
      intro b hb
      have := hw b hb
      simp only [decide_eq_true_eq]
      omega
    rw [filter_append, hnil, append_nil]
    exact h.counted
  waiting := by rw [filter_append, filter_append, h.waiting]

/-- **A pass** visits `V` and leaves `R`; it counts the visited items from the watermark on and
keeps `K` of them. -/
theorem Counted.advance (h : Counted key G (V ++ R) C w) (hK : K.Sublist V) (hww : w ≤ w')
    (hV : ∀ a ∈ V, key a < w') (hR : ∀ a ∈ R, w ≤ key a → w' ≤ key a) :
    Counted key G (K ++ R) (C ++ V.filter (fun a => w ≤ key a)) w' := by
  have hwaiting : G.filter (fun a => w ≤ key a) =
      V.filter (fun a => w ≤ key a) ++ R.filter (fun a => w ≤ key a) := by
    rw [← h.waiting, filter_append]
  -- the items from the old watermark on, split at the new one
  have hbelow : (G.filter (fun a => w ≤ key a)).filter (fun a => key a < w') =
      V.filter (fun a => w ≤ key a) := by
    rw [hwaiting, filter_append]
    have hVall : (V.filter (fun a => w ≤ key a)).filter (fun a => key a < w') =
        V.filter (fun a => w ≤ key a) := by
      rw [filter_eq_self]
      intro a ha
      simpa using hV a (mem_of_mem_filter ha)
    have hRnone : (R.filter (fun a => w ≤ key a)).filter (fun a => key a < w') = [] := by
      rw [filter_eq_nil_iff]
      intro a ha
      obtain ⟨haR, hwa⟩ := mem_filter.mp ha
      have := hR a haR (by simpa using hwa)
      simp only [decide_eq_true_eq]
      omega
    rw [hVall, hRnone, append_nil]
  have habove : G.filter (fun a => w' ≤ key a) = R.filter (fun a => w' ≤ key a) := by
    have hG : G.filter (fun a => w' ≤ key a) =
        (G.filter (fun a => w ≤ key a)).filter (fun a => w' ≤ key a) := by
      rw [filter_filter]
      refine filter_congr fun a _ => ?_
      rw [Bool.eq_iff_iff]
      simp only [decide_eq_true_eq, Bool.and_eq_true]
      omega
    have hVnone : (V.filter (fun a => w ≤ key a)).filter (fun a => w' ≤ key a) = [] := by
      rw [filter_eq_nil_iff]
      intro a ha
      have := hV a (mem_of_mem_filter ha)
      simp only [decide_eq_true_eq]
      omega
    rw [hG, hwaiting, filter_append, hVnone, nil_append, filter_filter]
    refine filter_congr fun a _ => ?_
    rw [Bool.eq_iff_iff]
    simp only [decide_eq_true_eq, Bool.and_eq_true]
    omega
  refine ⟨h.sorted, (hK.append (List.Sublist.refl R)).trans h.kept, ?_, ?_⟩
  · have hsplit := filter_lt_append_filter_le
      (h.sorted.sublist (filter_sublist (p := fun a => decide (key a < w')))) w
    have hlow : (G.filter (fun a => key a < w')).filter (fun a => key a < w) = C := by
      rw [h.counted, filter_filter]
      refine filter_congr fun a _ => ?_
      rw [Bool.eq_iff_iff]
      simp only [decide_eq_true_eq, Bool.and_eq_true]
      omega
    have hmid : (G.filter (fun a => key a < w')).filter (fun a => w ≤ key a) =
        V.filter (fun a => w ≤ key a) := by
      rw [← hbelow, filter_filter, filter_filter]
      refine filter_congr fun a _ => ?_
      rw [Bool.and_comm]
    rw [hlow, hmid] at hsplit
    exact hsplit
  · have hKnone : K.filter (fun a => w' ≤ key a) = [] := by
      rw [filter_eq_nil_iff]
      intro a ha
      have := hV a (hK.subset ha)
      simp only [decide_eq_true_eq]
      omega
    rw [filter_append, hKnone, nil_append, habove]

/-- **The last pass** completes the count. -/
theorem Counted.finish (h : Counted key G L C w) : C ++ L.filter (fun a => w ≤ key a) = G := by
  rw [h.counted, h.waiting]
  exact filter_lt_append_filter_le h.sorted w

end Andl.Watermark
