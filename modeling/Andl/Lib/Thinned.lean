import Mathlib

/-!
# Searching a list that was thinned out

`Thinned R D as bs` says that `bs` comes from `as` by leaving out elements, all of which satisfy
`D`, and replacing each other element by one that it is related to by `R`.
-/

namespace Andl

open List

variable {α : Type} {κ ε : Type*} {R : α → α → Prop} {D : α → Prop} {as bs cs : List α}

/-! ### Searching with a test that can fail -/

theorem mem_of_findM? {f : α → Except ε Bool} {v : Option α}
    (h : (as.findM? f : Except ε (Option α)) = .ok v) {a : α} (ha : a ∈ v) : a ∈ as := by
  induction as with
  | nil =>
    obtain rfl := Except.ok.inj h
    exact absurd ha (Option.not_mem_none a)
  | cons b as ih =>
    rw [List.findM?] at h
    cases hfb : f b with
    | error e =>
      rw [hfb] at h
      cases h
    | ok found =>
      rw [hfb] at h
      cases found with
      | true =>
        obtain rfl := Except.ok.inj h
        obtain rfl := Option.some.inj ha
        exact mem_cons_self
      | false => exact mem_cons_of_mem _ (ih h)

/-- A search that succeeds finds the first element that passes the test. -/
theorem find?_of_findM? {f : α → Except ε Bool} {p : α → Bool} {v : Option α}
    (h : (as.findM? f : Except ε (Option α)) = .ok v)
    (hp : ∀ a ∈ as, ∀ b, f a = .ok b → b = p a) : v = as.find? p := by
  induction as with
  | nil => exact (Except.ok.inj h).symm
  | cons a as ih =>
    rw [List.findM?] at h
    rw [find?_cons]
    cases hfa : f a with
    | error e =>
      rw [hfa] at h
      cases h
    | ok found =>
      rw [hfa] at h
      rw [← hp a mem_cons_self found hfa]
      cases found with
      | true => exact (Except.ok.inj h).symm
      | false => exact ih h fun b hb => hp b (mem_cons_of_mem _ hb)

/-! ### Thinning out -/

/-- Some elements are left out, the others are replaced. -/
inductive Thinned (R : α → α → Prop) (D : α → Prop) : List α → List α → Prop
  | nil : Thinned R D [] []
  | keep {a b : α} {as bs : List α} : R a b → Thinned R D as bs → Thinned R D (a :: as) (b :: bs)
  | drop {a : α} {as bs : List α} : D a → Thinned R D as bs → Thinned R D (a :: as) bs

namespace Thinned

theorem refl (hR : ∀ a, R a a) (as : List α) : Thinned R D as as := by
  induction as with
  | nil => exact .nil
  | cons a as ih => exact .keep (hR a) ih

theorem trans (hR : ∀ {a b c}, R a b → R b c → R a c) (hD : ∀ {a b}, R a b → D b → D a)
    (h : Thinned R D as bs) (h' : Thinned R D bs cs) : Thinned R D as cs := by
  induction h generalizing cs with
  | nil => exact h'
  | keep hab _ ih =>
    cases h' with
    | keep hbc h' => exact .keep (hR hab hbc) (ih h')
    | drop hb h' => exact .drop (hD hab hb) (ih h')
  | drop ha _ ih => exact .drop ha (ih h')

theorem filter (hR : ∀ a, R a a) {p : α → Bool} (h : ∀ a ∈ as, p a = false → D a) :
    Thinned R D as (as.filter p) := by
  induction as with
  | nil => exact .nil
  | cons a as ih =>
    have ih := ih fun b hb => h b (mem_cons_of_mem _ hb)
    rw [filter_cons]
    split_ifs with hp
    · exact .keep (hR a) ih
    · exact .drop (h a mem_cons_self (by simpa using hp)) ih

theorem map {g : α → α} (h : ∀ a ∈ as, R a (g a)) : Thinned R D as (as.map g) := by
  induction as with
  | nil => exact .nil
  | cons a as ih =>
    exact .keep (h a mem_cons_self) (ih fun b hb => h b (mem_cons_of_mem _ hb))

/-- What is there comes from something. -/
theorem exists_of_mem (h : Thinned R D as bs) {b : α} (hb : b ∈ bs) : ∃ a ∈ as, R a b := by
  induction h with
  | nil => exact absurd hb not_mem_nil
  | keep hab _ ih =>
    rcases mem_cons.mp hb with rfl | hb
    · exact ⟨_, mem_cons_self, hab⟩
    · obtain ⟨a, ha, hab⟩ := ih hb
      exact ⟨a, mem_cons_of_mem _ ha, hab⟩
  | drop _ _ ih =>
    obtain ⟨a, ha, hab⟩ := ih hb
    exact ⟨a, mem_cons_of_mem _ ha, hab⟩

/-- What was there is still there, unless it could be left out. -/
theorem exists_of_not_drop (h : Thinned R D as bs) {a : α} (ha : a ∈ as) (hD : ¬ D a) :
    ∃ b ∈ bs, R a b := by
  induction h with
  | nil => exact absurd ha not_mem_nil
  | keep hab _ ih =>
    rcases mem_cons.mp ha with rfl | ha
    · exact ⟨_, mem_cons_self, hab⟩
    · obtain ⟨b, hb, hab⟩ := ih ha
      exact ⟨b, mem_cons_of_mem _ hb, hab⟩
  | drop ha' _ ih =>
    rcases mem_cons.mp ha with rfl | ha
    · exact absurd ha' hD
    · exact ih ha

section Key

variable {k : α → κ} (hk : ∀ a b, R a b → k b = k a)

include hk

theorem key_sublist (h : Thinned R D as bs) : (bs.map k).Sublist (as.map k) := by
  induction h with
  | nil => exact List.Sublist.refl _
  | keep hab _ ih =>
    rw [map_cons, map_cons, hk _ _ hab]
    exact ih.cons_cons _
  | drop _ _ ih => exact ih.cons _

/-- **A search** finds the first element that is still there. -/
theorem find?_key [DecidableEq κ] (h : Thinned R D as bs) (hnodup : (as.map k).Nodup)
    {p : α → Bool} (hp : ∀ {a b}, R a b → p b = p a) :
    (bs.find? p).map k = (as.find? fun a => p a && decide (k a ∈ bs.map k)).map k := by
  -- the keys that are still there are fixed, while the lists get shorter
  suffices hgen : ∀ K : List κ, (∀ x ∈ as.map k, x ∈ K ↔ x ∈ bs.map k) →
      (bs.find? p).map k = (as.find? fun a => p a && decide (k a ∈ K)).map k from
    hgen _ fun _ _ => Iff.rfl
  intro K hK
  induction h with
  | nil => rfl
  | @keep a b as bs hab h ih =>
    rw [map_cons, nodup_cons] at hnodup
    have hmem : k a ∈ K := (hK _ mem_cons_self).mpr (hk _ _ hab ▸ mem_cons_self)
    have hK' : ∀ x ∈ as.map k, x ∈ K ↔ x ∈ bs.map k := by
      intro x hx
      rw [hK x (mem_cons_of_mem _ hx), map_cons, mem_cons, hk _ _ hab]
      refine or_iff_right ?_
      rintro rfl
      exact hnodup.1 hx
    rw [find?_cons, find?_cons, hp hab]
    cases hpa : p a with
    | true => simp [hmem, hk _ _ hab]
    | false => simpa using ih hnodup.2 hK'
  | @drop a as bs _ h ih =>
    rw [map_cons, nodup_cons] at hnodup
    have hmem : k a ∉ K := fun hx =>
      hnodup.1 ((h.key_sublist hk).subset ((hK _ mem_cons_self).mp hx))
    rw [find?_cons]
    simp only [hmem, decide_false, Bool.and_false]
    exact ih hnodup.2 fun x hx => hK x (mem_cons_of_mem _ hx)

/-- A search that succeeds still does, if what it found is still there. -/
theorem findM?_key (h : Thinned R D as bs) (hnodup : (as.map k).Nodup) {f : α → Except ε Bool}
    (hf : ∀ {a b}, R a b → f b = f a) {v : Option α}
    (hv : (as.findM? f : Except ε (Option α)) = .ok v) (hmem : ∀ a ∈ v, k a ∈ bs.map k) :
    ∃ v', (bs.findM? f : Except ε (Option α)) = .ok v' ∧ v'.map k = v.map k := by
  induction h with
  | nil => exact ⟨v, hv, rfl⟩
  | @keep a b as bs hab h ih =>
    rw [map_cons, nodup_cons] at hnodup
    rw [List.findM?] at hv ⊢
    rw [hf hab]
    cases hfa : f a with
    | error e =>
      rw [hfa] at hv
      cases hv
    | ok found =>
      rw [hfa] at hv
      cases found with
      | true =>
        obtain rfl := Except.ok.inj hv
        exact ⟨some b, rfl, congrArg some (hk _ _ hab)⟩
      | false =>
        refine ih hnodup.2 hv fun x hx => ?_
        have hx' := hmem x hx
        rw [map_cons, mem_cons, hk _ _ hab] at hx'
        refine hx'.resolve_left fun heq => hnodup.1 ?_
        rw [← heq]
        exact mem_map_of_mem (mem_of_findM? hv hx)
  | @drop a as bs _ h ih =>
    rw [map_cons, nodup_cons] at hnodup
    rw [List.findM?] at hv
    cases hfa : f a with
    | error e =>
      rw [hfa] at hv
      cases hv
    | ok found =>
      rw [hfa] at hv
      cases found with
      | true =>
        obtain rfl := Except.ok.inj hv
        exact absurd ((h.key_sublist hk).subset (hmem a rfl)) hnodup.1
      | false => exact ih hnodup.2 hv hmem

end Key

end Thinned

end Andl
