import Andl.Container.PlacementHashSet

/-!
# Placement hash sets are bounded sets
-/

namespace Andl.Container.ObIteratableHashSet

open List Function

variable {K : Type} {N : ℕ} [NeZero N]

/-- The slot where the probe sequence of a key begins. -/
def start (N : ℕ) [NeZero N] (hash : K → ℕ) (key : K) : Fin N := Fin.ofNat N (hash key)

/-- The slots hold exactly the keys of the list, each of them reachable from the start of its probe
sequence over slots in use. -/
structure Sound (hash : K → ℕ) (s : ObIteratableHashSet K N) : Prop where
  mem_iff : ∀ k, k ∈ s.list ↔ ∃ pos, s.slots pos = some k
  path : ∀ k i, s.slots (start N hash k + Fin.ofNat N i) = some k → i < N →
    ∀ j, j < i → s.slots (start N hash k + Fin.ofNat N j) ≠ none
  card : (Finset.univ.filter fun pos => s.slots pos ≠ none).card = s.list.length
  nodup : s.list.Nodup

theorem sound_empty (hash : K → ℕ) : Sound hash (empty : ObIteratableHashSet K N) where
  mem_iff := by intro k; simp [empty]
  path := by intro k i h; cases h
  card := by simp [empty]
  nodup := nodup_nil

theorem Sound.length_le {hash : K → ℕ} {s : ObIteratableHashSet K N} (h : Sound hash s) :
    s.list.length ≤ N := by
  rw [← h.card]
  exact (Finset.card_filter_le _ _).trans (by simp)

/-- Every slot is on the probe sequence that begins at a given one. -/
theorem exists_offset (a p : Fin N) : ∃ i, i < N ∧ p = a + Fin.ofNat N i :=
  ⟨(p - a).val, (p - a).isLt, by simp⟩

/-- A key of the set stands on its probe sequence, behind slots in use only. -/
theorem Sound.reach {hash : K → ℕ} {s : ObIteratableHashSet K N} {key : K} (h : Sound hash s)
    (hkey : key ∈ s.list) :
    ∃ i, i < N ∧ s.slots (start N hash key + Fin.ofNat N i) = some key ∧
      ∀ j, j < i → s.slots (start N hash key + Fin.ofNat N j) ≠ none := by
  obtain ⟨pos, hpos⟩ := (h.mem_iff key).mp hkey
  obtain ⟨i, hi, rfl⟩ := exists_offset (start N hash key) pos
  exact ⟨i, hi, hpos, h.path key i hpos hi⟩

omit [NeZero N] in
/-- A slot in use stays in use. -/
theorem update_ne_none {s : ObIteratableHashSet K N} (key : K) (p : Fin N) {r : Fin N}
    (hr : s.slots r ≠ none) : Function.update s.slots p (some key) r ≠ none := by
  by_cases hrp : r = p
  · simp [hrp]
  · rwa [update_of_ne hrp]

/-- A key in the first free slot of its probe sequence. -/
theorem Sound.setSlot {hash : K → ℕ} {s : ObIteratableHashSet K N} {key : K} (h : Sound hash s)
    (hkey : key ∉ s.list) {i : ℕ} (hi : i < N)
    (hnone : s.slots (start N hash key + Fin.ofNat N i) = none)
    (hused : ∀ j, j < i → s.slots (start N hash key + Fin.ofNat N j) ≠ none) :
    Sound hash ⟨Function.update s.slots (start N hash key + Fin.ofNat N i) (some key),
      s.list ++ [key]⟩ where
  mem_iff := by
    intro k
    rw [mem_append, mem_singleton, h.mem_iff]
    constructor
    · rintro (⟨pos, hpos⟩ | rfl)
      · have hne : pos ≠ start N hash key + Fin.ofNat N i := by
          rintro rfl
          rw [hnone] at hpos
          cases hpos
        exact ⟨pos, by simpa only [update_of_ne hne] using hpos⟩
      · exact ⟨_, update_self ..⟩
    · rintro ⟨pos, hpos⟩
      by_cases hp : pos = start N hash key + Fin.ofNat N i
      · simp only [hp, update_self] at hpos
        exact .inr (Option.some.inj hpos).symm
      · simp only [update_of_ne hp] at hpos
        exact .inl ⟨pos, hpos⟩
  path := by
    intro k i' hk hi' j hj
    apply update_ne_none
    by_cases hp : start N hash k + Fin.ofNat N i' = start N hash key + Fin.ofNat N i
    · simp only [hp, update_self] at hk
      obtain rfl := Option.some.inj hk
      have hii : i' = i := by
        have := congrArg Fin.val (add_left_cancel hp)
        simpa [Nat.mod_eq_of_lt hi, Nat.mod_eq_of_lt hi'] using this
      exact hused j (by omega)
    · simp only [update_of_ne hp] at hk
      exact h.path k i' hk hi' j hj
  card := by
    have hset : (Finset.univ.filter fun pos => Function.update s.slots
        (start N hash key + Fin.ofNat N i) (some key) pos ≠ none) =
        insert (start N hash key + Fin.ofNat N i)
          (Finset.univ.filter fun pos => s.slots pos ≠ none) := by
      ext pos
      by_cases hp : pos = start N hash key + Fin.ofNat N i
      · simp [hp]
      · simp only [Finset.mem_filter, Finset.mem_insert, hp, false_or, update_of_ne hp]
    rw [hset, Finset.card_insert_of_notMem (by simpa using hnone), h.card, length_append,
      length_singleton]
  nodup := by
    rw [nodup_append]
    refine ⟨h.nodup, nodup_singleton key, ?_⟩
    rintro a ha b hb rfl
    exact hkey (mem_singleton.mp hb ▸ ha)

variable [DecidableEq K]

/-- A slot in use for another key. -/
def Other (s : ObIteratableHashSet K N) (key : K) (pos : Fin N) : Prop :=
  ∃ k, k ≠ key ∧ s.slots pos = some k

theorem add_ofNat_zero (pos : Fin N) : pos + Fin.ofNat N 0 = pos := by
  simp

theorem add_ofNat_succ (pos : Fin N) (i : ℕ) :
    pos + Fin.ofNat N (i + 1) = pos + 1 + Fin.ofNat N i := by
  have : Fin.ofNat N (i + 1) = 1 + Fin.ofNat N i := by
    ext
    simp [Fin.val_add, Nat.add_comm]
  rw [this, add_assoc]

/-- The probe of `n` slots stops at the first one that is free or holds the key. -/
theorem findSetPos_spec (s : ObIteratableHashSet K N) (key : K) (n : ℕ) (pos : Fin N) :
    match s.findSetPos key n pos with
    | .free p => ∃ i, i < n ∧ p = pos + Fin.ofNat N i ∧ s.slots p = none ∧
        ∀ j, j < i → s.Other key (pos + Fin.ofNat N j)
    | .exist => ∃ i, i < n ∧ s.slots (pos + Fin.ofNat N i) = some key
    | .full => ∀ j, j < n → s.Other key (pos + Fin.ofNat N j) := by
  induction n generalizing pos with
  | zero => intro j hj; omega
  | succ n ih =>
    rw [findSetPos]
    cases hs : s.slots pos with
    | none => exact ⟨0, by omega, (add_ofNat_zero pos).symm, hs, fun j hj => by omega⟩
    | some k =>
      by_cases hk : k = key
      · simp only [if_pos hk]
        exact ⟨0, by omega, by rw [add_ofNat_zero, hs, hk]⟩
      · simp only [if_neg hk]
        -- the slot just passed comes before those of the rest
        have hstep : ∀ i, (∀ j, j < i → s.Other key (pos + 1 + Fin.ofNat N j)) →
            ∀ j, j < i + 1 → s.Other key (pos + Fin.ofNat N j) := by
          intro i hi j hj
          cases j with
          | zero => exact ⟨k, hk, by rw [add_ofNat_zero, hs]⟩
          | succ j => rw [add_ofNat_succ]; exact hi j (by omega)
        have hrest := ih (pos + 1)
        cases hf : s.findSetPos key n (pos + 1) with
        | free p =>
          rw [hf] at hrest
          obtain ⟨i, hi, hp, hnone, hother⟩ := hrest
          exact ⟨i + 1, by omega, by rw [hp, add_ofNat_succ], hnone, hstep i hother⟩
        | exist =>
          rw [hf] at hrest
          obtain ⟨i, hi, hsome⟩ := hrest
          exact ⟨i + 1, by omega, by rw [add_ofNat_succ, hsome]⟩
        | full =>
          rw [hf] at hrest
          exact hstep n hrest

/-! ### The three outcomes -/

section Outcomes

variable {hash : K → ℕ} {s : ObIteratableHashSet K N} {key : K}

/-- A key of the set is found. -/
theorem setRefactored_of_mem (h : Sound hash s) (hkey : key ∈ s.list) :
    s.setRefactored hash key = .error .hashExist := by
  obtain ⟨i, hi, hsome, hpath⟩ := h.reach hkey
  have hspec := findSetPos_spec s key N (start N hash key)
  rw [setRefactored, ← start]
  cases hf : s.findSetPos key N (start N hash key) with
  | exist => rfl
  | free p =>
    rw [hf] at hspec
    obtain ⟨j, -, rfl, hnone, hother⟩ := hspec
    rcases Nat.lt_trichotomy j i with hji | rfl | hij
    · exact absurd hnone (hpath j hji)
    · rw [hsome] at hnone; cases hnone
    · obtain ⟨k, hk, hk'⟩ := hother i hij
      rw [hsome] at hk'
      exact absurd (Option.some.inj hk').symm hk
  | full =>
    rw [hf] at hspec
    obtain ⟨k, hk, hk'⟩ := hspec i hi
    rw [hsome] at hk'
    exact absurd (Option.some.inj hk').symm hk

theorem findSetPos_ne_exist (h : Sound hash s) (hkey : key ∉ s.list) (pos : Fin N) :
    s.findSetPos key N pos ≠ .exist := by
  intro hf
  have hspec := findSetPos_spec s key N pos
  rw [hf] at hspec
  obtain ⟨i, -, hsome⟩ := hspec
  exact hkey ((h.mem_iff key).mpr ⟨_, hsome⟩)

/-- A new key is refused when every slot is in use. -/
theorem setRefactored_of_full (h : Sound hash s) (hkey : key ∉ s.list)
    (hfull : s.list.length = N) : s.setRefactored hash key = .error .hashFull := by
  have hall : ∀ p, s.slots p ≠ none := by
    have hcard : (Finset.univ.filter fun pos => s.slots pos ≠ none).card =
        (Finset.univ : Finset (Fin N)).card := by
      rw [h.card, hfull, Finset.card_univ, Fintype.card_fin]
    intro p
    have := Finset.filter_card_eq hcard p (Finset.mem_univ p)
    exact this
  have hspec := findSetPos_spec s key N (start N hash key)
  rw [setRefactored, ← start]
  cases hf : s.findSetPos key N (start N hash key) with
  | exist => exact absurd hf (findSetPos_ne_exist h hkey _)
  | free p =>
    rw [hf] at hspec
    obtain ⟨-, -, -, hnone, -⟩ := hspec
    exact absurd hnone (hall p)
  | full => rfl

theorem setRefactored_of_lt (h : Sound hash s) (hkey : key ∉ s.list) (hlt : s.list.length < N) :
    ∃ s', s.setRefactored hash key = .ok s' ∧ s'.list = s.list ++ [key] ∧ Sound hash s' := by
  have hspec := findSetPos_spec s key N (start N hash key)
  rw [setRefactored, ← start]
  cases hf : s.findSetPos key N (start N hash key) with
  | exist => exact absurd hf (findSetPos_ne_exist h hkey _)
  | full =>
    -- every slot would be in use
    rw [hf] at hspec
    have hall : (Finset.univ.filter fun pos => s.slots pos ≠ none) = Finset.univ := by
      rw [Finset.filter_eq_self]
      intro p _
      obtain ⟨i, hi, rfl⟩ := exists_offset (start N hash key) p
      obtain ⟨k, -, hk⟩ := hspec i hi
      rw [hk]
      exact Option.some_ne_none k
    have := h.card
    rw [hall, Finset.card_univ, Fintype.card_fin] at this
    omega
  | free p =>
    rw [hf] at hspec
    obtain ⟨i, hi, rfl, hnone, hother⟩ := hspec
    refine ⟨_, rfl, rfl, h.setSlot hkey hi hnone fun j hj => ?_⟩
    obtain ⟨k, -, hk⟩ := hother j hj
    rw [hk]
    exact Option.some_ne_none k

end Outcomes

end Andl.Container.ObIteratableHashSet
