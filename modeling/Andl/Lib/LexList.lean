import Mathlib

/-!
# The lexicographic order of lists
-/

namespace Andl

open List

variable {α β : Type*} [LinearOrder α] [LinearOrder β]

theorem lt_append_of_ne_nil (l : List α) {f : List α} (hf : f ≠ []) : l < l ++ f := by
  induction l with
  | nil =>
    obtain ⟨a, as, rfl⟩ := exists_cons_of_ne_nil hf
    exact nil_lt_cons a as
  | cons a l ih => exact cons_lt_cons_iff.mpr (.inr ⟨rfl, ih⟩)

theorem append_lt_append_iff (l f g : List α) : l ++ f < l ++ g ↔ f < g := by
  induction l with
  | nil => exact Iff.rfl
  | cons a l ih =>
    rw [cons_append, cons_append, cons_lt_cons_iff, ih]
    simp

theorem append_singleton_lt (l : List α) {a b : α} (h : a < b) : l ++ [a] < l ++ [b] :=
  (append_lt_append_iff l [a] [b]).mpr (cons_lt_cons_iff.mpr (.inl h))

theorem append_lt_of_lt {l m : List α} (h : l < m) (hnot : ¬ l <+: m) (f : List α) :
    l ++ f < m := by
  induction l generalizing m with
  | nil => exact absurd nil_prefix hnot
  | cons a l ih =>
    cases m with
    | nil => exact absurd h (not_lt_nil _)
    | cons b m =>
      rw [cons_append, cons_lt_cons_iff]
      rcases cons_lt_cons_iff.mp h with hlt | ⟨rfl, hlt⟩
      · exact .inl hlt
      · refine .inr ⟨rfl, ih hlt fun hp => hnot ?_⟩
        exact (prefix_cons_inj a).mpr hp

/-- Of two lists of one length, the order is decided before their ends. -/
theorem append_lt_append_of_lt {s t : List α} (hlen : s.length = t.length) (h : s < t)
    (f g : List α) : s ++ f < t ++ g := by
  have hnot : ¬ s <+: t := fun hp => h.ne (hp.eq_of_length hlen)
  rcases eq_or_ne g [] with rfl | hg
  · rw [append_nil]
    exact append_lt_of_lt h hnot f
  · exact (append_lt_of_lt h hnot f).trans (lt_append_of_ne_nil t hg)

theorem flatMap_lt_flatMap {f : α → List β} {n : ℕ} {P : α → Prop} (hn : 0 < n)
    (hlen : ∀ a, (f a).length = n) (hmono : ∀ a b, P a → P b → a < b → f a < f b) {as bs : List α}
    (has : ∀ a ∈ as, P a) (hbs : ∀ b ∈ bs, P b) (h : as < bs) : as.flatMap f < bs.flatMap f := by
  induction as generalizing bs with
  | nil =>
    cases bs with
    | nil => exact absurd h (not_lt_nil _)
    | cons b bs =>
      have hne : (b :: bs).flatMap f ≠ [] := by
        intro hnil
        have hzero := hlen b
        rw [(append_eq_nil_iff.mp hnil).1, length_nil] at hzero
        exact hn.ne hzero
      exact lt_append_of_ne_nil [] hne
  | cons a as ih =>
    cases bs with
    | nil => exact absurd h (not_lt_nil _)
    | cons b bs =>
      rw [flatMap_cons, flatMap_cons]
      rcases cons_lt_cons_iff.mp h with hlt | ⟨rfl, hlt⟩
      · apply append_lt_append_of_lt
        · rw [hlen, hlen]
        · exact hmono a b (has a mem_cons_self) (hbs b mem_cons_self) hlt
      · rw [append_lt_append_iff]
        exact ih (fun c hc => has c (mem_cons_of_mem _ hc))
          (fun c hc => hbs c (mem_cons_of_mem _ hc)) hlt

/-- **Blocks** of one length that are ordered as what they stand for. -/
theorem flatMap_lt_flatMap_iff {f : α → List β} {n : ℕ} {P : α → Prop} (hn : 0 < n)
    (hlen : ∀ a, (f a).length = n) (hmono : ∀ a b, P a → P b → a < b → f a < f b) {as bs : List α}
    (has : ∀ a ∈ as, P a) (hbs : ∀ b ∈ bs, P b) : as.flatMap f < bs.flatMap f ↔ as < bs := by
  refine ⟨fun h => ?_, flatMap_lt_flatMap hn hlen hmono has hbs⟩
  rcases lt_trichotomy as bs with hlt | heq | hgt
  · exact hlt
  · rw [heq] at h
    exact absurd h (lt_irrefl _)
  · exact absurd h (flatMap_lt_flatMap hn hlen hmono hbs has hgt).asymm

end Andl
