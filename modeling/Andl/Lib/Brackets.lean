import Mathlib

/-!
# Cancelling opening and closing marks

A list whose elements may open or close a key, one key each at most.
-/

namespace Andl

open List

/-- The keys that the elements of a list open and close. -/
structure Marks (α κ : Type) where
  opens : κ → α → Bool
  closes : κ → α → Bool
  opens_unique : ∀ {k k' x}, opens k x = true → opens k' x = true → k = k'
  closes_unique : ∀ {k k' x}, closes k x = true → closes k' x = true → k = k'
  not_closes : ∀ {k k' x}, opens k x = true → closes k' x = false

namespace Marks

variable {α κ : Type} (M : Marks α κ)

/-- The number of elements that open a key. -/
def openCount (k : κ) (xs : List α) : ℕ := xs.countP (M.opens k)

/-- The number of elements that close a key. -/
def closeCount (k : κ) (xs : List α) : ℕ := xs.countP (M.closes k)

/-- Behind some place of the list one key always has more closing than opening marks, while another
one has at least as many opening marks up to that place, and beyond it a closing mark together with
an opening mark, beyond the place or left over before it. -/
def HeldUp (xs : List α) : Prop :=
  ∃ n o p, o ≠ p ∧
    (∀ m, n < m → m ≤ xs.length → M.openCount o (xs.take m) < M.closeCount o (xs.take m)) ∧
    M.closeCount p (xs.take n) ≤ M.openCount p (xs.take n) ∧
    0 < M.closeCount p (xs.drop n) ∧
    (M.closeCount p (xs.take n) < M.openCount p (xs.take n) ∨ 0 < M.openCount p (xs.drop n))

variable {M}

/-! ### Counts of prefixes -/

theorem closeCount_take_add_drop (k : κ) (xs : List α) (n : ℕ) :
    M.closeCount k (xs.take n) + M.closeCount k (xs.drop n) = M.closeCount k xs := by
  rw [closeCount, closeCount, closeCount, ← countP_append, take_append_drop]

theorem openCount_take_add_drop (k : κ) (xs : List α) (n : ℕ) :
    M.openCount k (xs.take n) + M.openCount k (xs.drop n) = M.openCount k xs := by
  rw [openCount, openCount, openCount, ← countP_append, take_append_drop]

/-- The next element closes one key at most. -/
theorem closeCount_take_succ_eq {k k' : κ} {xs : List α} {n : ℕ} (hkk : k ≠ k')
    (h : M.closeCount k (xs.take n) < M.closeCount k (xs.take (n + 1))) :
    M.closeCount k' (xs.take (n + 1)) = M.closeCount k' (xs.take n) := by
  rcases Nat.lt_or_ge n xs.length with hn | hn
  · rw [take_succ_eq_append_getElem hn] at h ⊢
    simp only [closeCount, countP_append, countP_singleton] at h ⊢
    by_cases hk : M.closes k xs[n] = true
    · have hk' : M.closes k' xs[n] = false := by
        by_contra hc
        exact hkk (M.closes_unique hk (by simpa using hc))
      simp [hk']
    · simp [hk] at h
  · rw [take_of_length_le (by omega), take_of_length_le (by omega)]

theorem countP_take_mono (P : α → Bool) (xs : List α) {m n : ℕ} (h : m ≤ n) :
    (xs.take m).countP P ≤ (xs.take n).countP P :=
  ((take_prefix_take_left h).sublist).countP_le

theorem countP_take_remove (P : α → Bool) (X Y Z : List α) (a b : α) :
    (∀ n, n ≤ X.length →
      ((X ++ a :: (Y ++ b :: Z)).take n).countP P = ((X ++ (Y ++ Z)).take n).countP P) ∧
    (∀ n, X.length ≤ n → n ≤ X.length + Y.length →
      ((X ++ a :: (Y ++ b :: Z)).take (n + 1)).countP P =
        ((X ++ (Y ++ Z)).take n).countP P + if P a then 1 else 0) ∧
    (∀ n, X.length + Y.length ≤ n →
      ((X ++ a :: (Y ++ b :: Z)).take (n + 2)).countP P =
        ((X ++ (Y ++ Z)).take n).countP P + (if P a then 1 else 0) + if P b then 1 else 0) := by
  refine ⟨?_, ?_, ?_⟩
  · intro n hn
    rw [take_append_of_le_length hn, take_append_of_le_length hn]
  · intro n hx hy
    have hn : n + 1 - X.length = (n - X.length) + 1 := by omega
    rw [take_append, take_append, hn, take_succ_cons,
      take_of_length_le (l := X) (by omega), take_of_length_le (l := X) (by omega),
      take_append_of_le_length (by omega), take_append_of_le_length (by omega)]
    simp only [countP_append, countP_cons]
    omega
  · intro n hy
    have hn : n + 2 - X.length = (n - X.length) + 1 + 1 := by omega
    have hm : n - X.length + 1 - Y.length = (n - X.length - Y.length) + 1 := by omega
    rw [take_append, take_append, hn, take_succ_cons,
      take_of_length_le (l := X) (by omega), take_of_length_le (l := X) (by omega),
      take_append, take_append, hm, take_succ_cons,
      take_of_length_le (l := Y) (by omega), take_of_length_le (l := Y) (by omega)]
    simp only [countP_append, countP_cons]
    omega

/-! ### Taking a pair out -/

section Remove

variable {q : κ} {X Y Z : List α} {a b : α}

/-- The list is held up at a place by two keys, with the marks beyond counted from the totals. -/
def HeldAt (M : Marks α κ) (xs : List α) (n : ℕ) (o p : κ) : Prop :=
  o ≠ p ∧ (∀ m, n < m → m ≤ xs.length →
      M.openCount o (xs.take m) < M.closeCount o (xs.take m)) ∧
    M.closeCount p (xs.take n) ≤ M.openCount p (xs.take n) ∧
    M.closeCount p (xs.take n) < M.closeCount p xs ∧
    (M.closeCount p (xs.take n) < M.openCount p (xs.take n) ∨
      M.openCount p (xs.take n) < M.openCount p xs)

theorem heldUp_iff (xs : List α) : M.HeldUp xs ↔ ∃ n o p, M.HeldAt xs n o p := by
  refine exists_congr fun n => exists_congr fun o => exists_congr fun p => ?_
  have hc := closeCount_take_add_drop (M := M) p xs n
  have ho := openCount_take_add_drop (M := M) p xs n
  have h1 : 0 < M.closeCount p (xs.drop n) ↔ M.closeCount p (xs.take n) < M.closeCount p xs := by
    omega
  have h2 : 0 < M.openCount p (xs.drop n) ↔ M.openCount p (xs.take n) < M.openCount p xs := by
    omega
  rw [HeldAt, h1, h2]

variable {n : ℕ} {k : κ} {x : α}

theorem length_remove (X Y Z : List α) (a b : α) :
    (X ++ a :: (Y ++ b :: Z)).length = (X ++ (Y ++ Z)).length + 2 ∧
      X.length + Y.length ≤ (X ++ (Y ++ Z)).length := by
  simp only [length_append, length_cons]
  omega

theorem HeldAt.lt_length {xs : List α} {o p : κ} (h : M.HeldAt xs n o p) : n < xs.length := by
  by_contra hn
  have := h.2.2.2.1
  rw [take_of_length_le (by omega)] at this
  exact Nat.lt_irrefl _ this

/-- If every key is closed after `q`, a key other than `q` is ahead only behind a closing mark of
`q`. -/
theorem HeldAt.closeCount_ne_zero {xs : List α} {o p : κ} (h : M.HeldAt xs n o p) (hoq : o ≠ q)
    (hfirst : ∀ k n, 0 < M.closeCount k (xs.take n) → 0 < M.closeCount q (xs.take n)) :
    M.closeCount q (xs.take n) ≠ 0 := by
  intro h0
  have hsur := h.2.1 (n + 1) (by omega) h.lt_length
  have hq1 := hfirst o (n + 1) (by omega)
  have hstay := closeCount_take_succ_eq (M := M) (Ne.symm hoq) (by rw [h0]; exact hq1)
  have := hfirst o n (by omega)
  omega

/-- One element opens the key `q` and one closes it. -/
def IsPair (M : Marks α κ) (q : κ) (a b : α) : Prop :=
  (M.opens q a = true ∧ M.closes q b = true) ∨ (M.closes q a = true ∧ M.opens q b = true)

theorem opens_eq_false (h : M.closes q x = true) : M.opens k x = false := by
  cases hx : M.opens k x with
  | false => rfl
  | true => rw [M.not_closes hx] at h; cases h

/-- Up to the first of two elements the counts are those without them. -/
theorem counts_before (X Y Z : List α) (a b : α) (k : κ) (hn : n ≤ X.length) :
    M.closeCount k ((X ++ a :: (Y ++ b :: Z)).take n) =
        M.closeCount k ((X ++ (Y ++ Z)).take n) ∧
      M.openCount k ((X ++ a :: (Y ++ b :: Z)).take n) =
        M.openCount k ((X ++ (Y ++ Z)).take n) :=
  ⟨(countP_take_remove (M.closes k) X Y Z a b).1 n hn,
    (countP_take_remove (M.opens k) X Y Z a b).1 n hn⟩

theorem counts_of_first_open (hX : ∀ e ∈ X, M.opens q e = false)
    (hY : ∀ e ∈ Y, M.opens q e = false ∧ M.closes q e = false) (hn : n ≤ X.length + Y.length) :
    M.openCount q ((X ++ (Y ++ Z)).take n) = 0 ∧
      (X.length ≤ n → M.closeCount q ((X ++ (Y ++ Z)).take n) = M.closeCount q X) := by
  constructor
  · rw [← append_assoc, take_append_of_le_length (by simpa using hn), openCount,
      countP_eq_zero]
    intro e he
    rcases mem_append.mp (mem_of_mem_take he) with he | he
    · simp [hX e he]
    · simp [(hY e he).1]
  · intro hx
    have hzero : (Y.take (n - X.length)).countP (M.closes q) = 0 := by
      rw [countP_eq_zero]
      intro e he
      simp [(hY e (mem_of_mem_take he)).2]
    rw [take_append, take_of_length_le (by omega),
      take_append_of_le_length (by omega), closeCount, countP_append, hzero]
    rfl

variable [DecidableEq κ]

theorem opens_eq_decide (h : M.opens q x = true) : M.opens k x = decide (k = q) := by
  by_cases hk : k = q
  · simp [hk, h]
  · cases hx : M.opens k x with
    | false => simp [hk]
    | true => exact absurd (M.opens_unique hx h) hk

theorem closes_eq_decide (h : M.closes q x = true) : M.closes k x = decide (k = q) := by
  by_cases hk : k = q
  · simp [hk, h]
  · cases hx : M.closes k x with
    | false => simp [hk]
    | true => exact absurd (M.closes_unique hx h) hk

section

variable (h : M.IsPair q a b)
include h

theorem IsPair.openCount_behind (k : κ) (hn : X.length + Y.length ≤ n) :
    M.openCount k ((X ++ a :: (Y ++ b :: Z)).take (n + 2)) =
      M.openCount k ((X ++ (Y ++ Z)).take n) + if k = q then 1 else 0 := by
  rw [openCount, (countP_take_remove (M.opens k) X Y Z a b).2.2 n hn]
  rcases h with ⟨ha, hb⟩ | ⟨ha, hb⟩
  · simp [opens_eq_decide ha, opens_eq_false hb, openCount]
  · simp [opens_eq_decide hb, opens_eq_false ha, openCount]

theorem IsPair.closeCount_behind (k : κ) (hn : X.length + Y.length ≤ n) :
    M.closeCount k ((X ++ a :: (Y ++ b :: Z)).take (n + 2)) =
      M.closeCount k ((X ++ (Y ++ Z)).take n) + if k = q then 1 else 0 := by
  rw [closeCount, (countP_take_remove (M.closes k) X Y Z a b).2.2 n hn]
  rcases h with ⟨ha, hb⟩ | ⟨ha, hb⟩
  · simp [closes_eq_decide hb, M.not_closes ha, closeCount]
  · simp [closes_eq_decide ha, M.not_closes hb, closeCount]

theorem IsPair.openCount_total (k : κ) :
    M.openCount k (X ++ a :: (Y ++ b :: Z)) =
      M.openCount k (X ++ (Y ++ Z)) + if k = q then 1 else 0 := by
  have := h.openCount_behind (X := X) (Y := Y) (Z := Z) k
    (n := (X ++ (Y ++ Z)).length) (by simp only [length_append]; omega)
  rwa [take_length, take_of_length_le
    (by simp only [length_append, length_cons]; omega)] at this

theorem IsPair.closeCount_total (k : κ) :
    M.closeCount k (X ++ a :: (Y ++ b :: Z)) =
      M.closeCount k (X ++ (Y ++ Z)) + if k = q then 1 else 0 := by
  have := h.closeCount_behind (X := X) (Y := Y) (Z := Z) k
    (n := (X ++ (Y ++ Z)).length) (by simp only [length_append]; omega)
  rwa [take_length, take_of_length_le
    (by simp only [length_append, length_cons]; omega)] at this

theorem IsPair.heldAt_behind {o p : κ} (hn : X.length + Y.length ≤ n) :
    M.HeldAt (X ++ a :: (Y ++ b :: Z)) (n + 2) o p ↔ M.HeldAt (X ++ (Y ++ Z)) n o p := by
  have hlen := length_remove X Y Z a b
  have hsur : (∀ m, n + 2 < m → m ≤ (X ++ a :: (Y ++ b :: Z)).length →
      M.openCount o ((X ++ a :: (Y ++ b :: Z)).take m) <
        M.closeCount o ((X ++ a :: (Y ++ b :: Z)).take m)) ↔
      ∀ m, n < m → m ≤ (X ++ (Y ++ Z)).length →
        M.openCount o ((X ++ (Y ++ Z)).take m) < M.closeCount o ((X ++ (Y ++ Z)).take m) := by
    constructor
    · intro hm m h1 h2
      have := hm (m + 2) (by omega) (by omega)
      rw [h.openCount_behind o (by omega), h.closeCount_behind o (by omega)] at this
      omega
    · intro hm m h1 h2
      obtain ⟨m, rfl⟩ : ∃ m', m = m' + 2 := ⟨m - 2, by omega⟩
      have := hm m (by omega) (by omega)
      rw [h.openCount_behind o (by omega), h.closeCount_behind o (by omega)]
      omega
  rw [HeldAt, HeldAt, hsur, h.openCount_behind p hn, h.closeCount_behind p hn,
    h.openCount_total p, h.closeCount_total p]
  simp only [Nat.add_lt_add_iff_right, Nat.add_le_add_iff_right]

end

/-! The two ways in which the first closing mark of a list finds its partner. -/

/-- An opening mark and the first closing mark after it, if no key closes before, can be taken out.
-/
theorem heldUp_remove_open_close (ha : M.opens q a = true) (hb : M.closes q b = true)
    (hX : ∀ e ∈ X, M.closes q e = false) (hY : ∀ e ∈ Y, M.closes q e = false)
    (hfirst : ∀ k n, 0 < M.closeCount k ((X ++ a :: (Y ++ b :: Z)).take n) →
      0 < M.closeCount q ((X ++ a :: (Y ++ b :: Z)).take n)) :
    M.HeldUp (X ++ a :: (Y ++ b :: Z)) ↔ M.HeldUp (X ++ (Y ++ Z)) := by
  have hpair : M.IsPair q a b := .inl ⟨ha, hb⟩
  have hc := countP_take_remove (M.closes q) X Y Z a b
  have hshort : M.closeCount q ((X ++ (Y ++ Z)).take (X.length + Y.length)) = 0 := by
    rw [← append_assoc, take_append_of_le_length (by simp),
      take_of_length_le (by simp), closeCount, countP_eq_zero]
    intro e he
    rcases mem_append.mp he with he | he
    · simp [hX e he]
    · simp [hY e he]
  -- no key is closed before the second element of the pair
  have hmid : M.closeCount q ((X ++ a :: (Y ++ b :: Z)).take (X.length + Y.length + 1)) = 0 := by
    rw [closeCount, hc.2.1 _ (by omega) (by omega), M.not_closes ha, if_neg (by simp)]
    exact hshort
  have hnone : ∀ k n, n ≤ X.length + Y.length + 1 →
      M.closeCount k ((X ++ a :: (Y ++ b :: Z)).take n) = 0 := by
    intro k n hn
    have hmono := countP_take_mono (M.closes q) (X ++ a :: (Y ++ b :: Z)) hn
    have := hfirst k n
    simp only [closeCount] at hmid this ⊢
    omega
  rw [heldUp_iff, heldUp_iff]
  constructor
  · rintro ⟨n, o, p, h⟩
    -- the key that is ahead must have been closed, so the place is behind the pair
    have hn : X.length + Y.length + 2 ≤ n := by
      by_contra hlt
      have hle := h.lt_length
      by_cases hoq : o = q
      · have hsur := h.2.1 (X.length + Y.length + 2) (by omega)
          (by simp only [length_append, length_cons]; omega)
        rw [hoq, hpair.openCount_behind q (by omega), hpair.closeCount_behind q (by omega),
          hshort] at hsur
        omega
      · have hsur := h.2.1 (n + 1) (by omega) (by omega)
        have hn1 : ¬ n + 1 ≤ X.length + Y.length + 1 := fun hle' => by
          rw [hnone o _ hle'] at hsur; omega
        have hn0 := hnone q n (by omega)
        have hq1 := hfirst o (n + 1) (by omega)
        have hstay := closeCount_take_succ_eq (M := M) (Ne.symm hoq) (n := n)
          (by rw [hn0]; exact hq1)
        rw [hstay, hnone o n (by omega)] at hsur
        omega
    obtain ⟨n, rfl⟩ : ∃ n', n = n' + 2 := ⟨n - 2, by omega⟩
    exact ⟨n, o, p, (hpair.heldAt_behind (by omega)).mp h⟩
  · rintro ⟨n, o, p, h⟩
    have hn : X.length + Y.length ≤ n := by
      by_contra hlt
      have hsur := h.2.1 (X.length + Y.length) (by omega)
        (by simp only [length_append]; omega)
      have hzero := (countP_take_remove (M.closes o) X Y Z a b).2.1 (X.length + Y.length)
        (by omega) (by omega)
      have := hnone o (X.length + Y.length + 1) (by omega)
      simp only [closeCount] at hsur this
      omega
    exact ⟨n + 2, o, p, (hpair.heldAt_behind hn).mpr h⟩

/-- Between two elements of which the first closes a key. -/
theorem counts_between (X Y Z : List α) (b : α) (ha : M.closes q a = true) (k : κ)
    (hx : X.length ≤ n) (hy : n ≤ X.length + Y.length) :
    M.closeCount k ((X ++ a :: (Y ++ b :: Z)).take (n + 1)) =
        M.closeCount k ((X ++ (Y ++ Z)).take n) + (if k = q then 1 else 0) ∧
      M.openCount k ((X ++ a :: (Y ++ b :: Z)).take (n + 1)) =
        M.openCount k ((X ++ (Y ++ Z)).take n) := by
  have hc := (countP_take_remove (M.closes k) X Y Z a b).2.1 n hx hy
  have ho := (countP_take_remove (M.opens k) X Y Z a b).2.1 n hx hy
  rw [closes_eq_decide ha] at hc
  rw [opens_eq_false ha] at ho
  exact ⟨by simpa [closeCount] using hc, by simpa [openCount] using ho⟩

/-- Before the second element of the pair, another key has the counts of a place of the list without
the pair. -/
theorem counts_place (X Y Z : List α) (b : α) (ha : M.closes q a = true) (hkq : k ≠ q) {n' : ℕ}
    (hn : n = n' ∧ n ≤ X.length ∨ n = n' + 1 ∧ X.length ≤ n' ∧ n' ≤ X.length + Y.length) :
    M.closeCount k ((X ++ a :: (Y ++ b :: Z)).take n) =
        M.closeCount k ((X ++ (Y ++ Z)).take n') ∧
      M.openCount k ((X ++ a :: (Y ++ b :: Z)).take n) =
        M.openCount k ((X ++ (Y ++ Z)).take n') := by
  rcases hn with ⟨rfl, hx⟩ | ⟨rfl, hx, hy⟩
  · exact counts_before X Y Z a b k hx
  · have hc := counts_between X Y Z b ha k hx hy
    rwa [if_neg hkq] at hc

section

variable {o p : κ} {n' : ℕ} (ha : M.closes q a = true) (hb : M.opens q b = true)
  (hX : ∀ e ∈ X, M.opens q e = false)
  (hY : ∀ e ∈ Y, M.opens q e = false ∧ M.closes q e = false)
include ha hX hY

/-- The key of the pair is not opened before the second element. -/
theorem openCount_before_open (Z : List α) (b : α) (hn : n ≤ X.length + Y.length + 1) :
    M.openCount q ((X ++ a :: (Y ++ b :: Z)).take n) = 0 := by
  rcases Nat.lt_or_ge X.length n with hx | hx
  · obtain ⟨n, rfl⟩ : ∃ n', n = n' + 1 := ⟨n - 1, by omega⟩
    rw [(counts_between X Y Z b ha q (by omega) (by omega)).2,
      (counts_of_first_open hX hY (by omega)).1]
  · rw [(counts_before X Y Z a b q hx).2, (counts_of_first_open hX hY (by omega)).1]

include hb

/-- The place of another key stays a place when the pair is taken out. -/
theorem HeldAt.remove_close_open (h : M.HeldAt (X ++ a :: (Y ++ b :: Z)) n o p) (hpq : p ≠ q)
    (hn : n = n' ∧ n ≤ X.length ∨ n = n' + 1 ∧ X.length ≤ n' ∧ n' ≤ X.length + Y.length) :
    M.HeldAt (X ++ (Y ++ Z)) n' o p := by
  have hpair : M.IsPair q a b := .inr ⟨ha, hb⟩
  have hlen := length_remove X Y Z a b
  refine ⟨h.1, fun m hm hml => ?_, ?_⟩
  · rcases Nat.lt_or_ge X.length m with hx | hx
    · rcases Nat.lt_or_ge (X.length + Y.length) m with hy | hy
      · have hsur := h.2.1 (m + 2) (by omega) (by omega)
        rw [hpair.openCount_behind o (by omega), hpair.closeCount_behind o (by omega)] at hsur
        omega
      · by_cases hoq : o = q
        · -- behind the pair the key is ahead, so it was ahead before it
          have hsur := h.2.1 (X.length + Y.length + 2) (by omega) (by omega)
          rw [hoq, hpair.openCount_behind q (by omega), hpair.closeCount_behind q (by omega),
            (counts_of_first_open hX hY (by omega)).2 (by omega)] at hsur
          rw [hoq, (counts_of_first_open hX hY hy).1,
            (counts_of_first_open hX hY hy).2 (by omega)]
          omega
        · have hsur := h.2.1 (m + 1) (by omega) (by omega)
          have hc := counts_place X Y Z b ha hoq (.inr ⟨rfl, by omega, hy⟩)
          omega
    · have hsur := h.2.1 m (by omega) (by omega)
      have hc := counts_before (M := M) X Y Z a b o hx
      omega
  · have hc := counts_place X Y Z b ha hpq hn
    have htotal := h.2.2
    rw [hc.1, hc.2, hpair.closeCount_total p, hpair.openCount_total p, if_neg hpq] at htotal
    exact htotal

omit hX hY in
/-- The place of another key stays a place when the pair is put in. -/
theorem HeldAt.insert_close_open (h : M.HeldAt (X ++ (Y ++ Z)) n' o p) (hpq : p ≠ q)
    (hn : n = n' ∧ n < X.length ∨ n = n' + 1 ∧ X.length ≤ n' ∧ n' < X.length + Y.length) :
    M.HeldAt (X ++ a :: (Y ++ b :: Z)) n o p := by
  have hpair : M.IsPair q a b := .inr ⟨ha, hb⟩
  have hlen := length_remove X Y Z a b
  refine ⟨h.1, fun m hm hml => ?_, ?_⟩
  · rcases Nat.lt_or_ge m (X.length + Y.length + 2) with hy | hy
    · rcases Nat.lt_or_ge X.length m with hx | hx
      · obtain ⟨m, rfl⟩ : ∃ m', m = m' + 1 := ⟨m - 1, by omega⟩
        have hsur := h.2.1 m (by omega) (by omega)
        have hc := counts_between X Y Z b ha o (n := m) (by omega) (by omega)
        omega
      · have hsur := h.2.1 m (by omega) (by omega)
        have hc := counts_before (M := M) X Y Z a b o hx
        omega
    · obtain ⟨m, rfl⟩ : ∃ m', m = m' + 2 := ⟨m - 2, by omega⟩
      have hsur := h.2.1 m (by omega) (by omega)
      rw [hpair.openCount_behind o (by omega), hpair.closeCount_behind o (by omega)]
      omega
  · have hn' : n = n' ∧ n ≤ X.length ∨
        n = n' + 1 ∧ X.length ≤ n' ∧ n' ≤ X.length + Y.length := by omega
    have hc := counts_place X Y Z b ha hpq hn'
    rw [hc.1, hc.2, hpair.closeCount_total p, hpair.openCount_total p, if_neg hpq]
    exact h.2.2

/-- If the key of the pair is held up before its second element, it is so behind the pair. -/
theorem HeldAt.insert_behind (h : M.HeldAt (X ++ (Y ++ Z)) n o q)
    (hfirst : ∀ k n, 0 < M.closeCount k ((X ++ a :: (Y ++ b :: Z)).take n) →
      0 < M.closeCount q ((X ++ a :: (Y ++ b :: Z)).take n)) (hn : n ≤ X.length + Y.length) :
    M.HeldAt (X ++ a :: (Y ++ b :: Z)) (X.length + Y.length + 2) o q := by
  have hpair : M.IsPair q a b := .inr ⟨ha, hb⟩
  have hlen := length_remove X Y Z a b
  have hopen := (counts_of_first_open (Z := Z) hX hY hn).1
  have hpos := h.2.2
  rw [hopen] at hpos
  -- before the pair no key is ahead, since the first closing mark is one of `q`
  have hx : X.length ≤ n := by
    by_contra hlt
    have hsur := h.2.1 (n + 1) (by omega) (by omega)
    have hc0 := counts_before (M := M) X Y Z a b q (n := n) (by omega)
    have hc1 := counts_before (M := M) X Y Z a b o (n := n + 1) (by omega)
    have hq1 := hfirst o (n + 1) (by omega)
    have hstay := closeCount_take_succ_eq (M := M) (Ne.symm h.1) (n := n)
      (show M.closeCount q ((X ++ a :: (Y ++ b :: Z)).take n) < _ by omega)
    have := hfirst o n (by omega)
    omega
  have hc := (counts_of_first_open (Z := Z) hX hY hn).2 hx
  have hend := counts_of_first_open (Z := Z) hX hY (Nat.le_refl (X.length + Y.length))
  refine (hpair.heldAt_behind (Nat.le_refl _)).mpr ⟨h.1, fun m hm => h.2.1 m (by omega), ?_⟩
  rw [hend.1, hend.2 (by omega), ← hc]
  exact hpos

/-- A closing mark and the first opening mark of its key after it, if no key closes before, can be
taken out. -/
theorem heldUp_remove_close_open
    (hfirst : ∀ k n, 0 < M.closeCount k ((X ++ a :: (Y ++ b :: Z)).take n) →
      0 < M.closeCount q ((X ++ a :: (Y ++ b :: Z)).take n)) :
    M.HeldUp (X ++ a :: (Y ++ b :: Z)) ↔ M.HeldUp (X ++ (Y ++ Z)) := by
  have hpair : M.IsPair q a b := .inr ⟨ha, hb⟩
  rw [heldUp_iff, heldUp_iff]
  constructor
  · rintro ⟨n, o, p, h⟩
    by_cases hn : X.length + Y.length + 2 ≤ n
    · obtain ⟨n, rfl⟩ : ∃ n', n = n' + 2 := ⟨n - 2, by omega⟩
      exact ⟨n, o, p, (hpair.heldAt_behind (by omega)).mp h⟩
    have hpq : p ≠ q := by
      rintro rfl
      have h0 := h.closeCount_ne_zero h.1 hfirst
      have hle := h.2.2.1
      rw [openCount_before_open ha hX hY Z b (by omega)] at hle
      omega
    rcases Nat.lt_or_ge X.length n with hx | hx
    · exact ⟨n - 1, o, p, h.remove_close_open ha hb hX hY hpq (by omega)⟩
    · exact ⟨n, o, p, h.remove_close_open ha hb hX hY hpq (by omega)⟩
  · rintro ⟨n, o, p, h⟩
    by_cases hn : X.length + Y.length ≤ n
    · exact ⟨n + 2, o, p, (hpair.heldAt_behind hn).mpr h⟩
    by_cases hpq : p = q
    · subst hpq
      exact ⟨_, o, p, h.insert_behind ha hb hX hY hfirst (by omega)⟩
    rcases Nat.lt_or_ge n X.length with hx | hx
    · exact ⟨n, o, p, h.insert_close_open ha hb hpq (by omega)⟩
    · exact ⟨n + 1, o, p, h.insert_close_open ha hb hpq (by omega)⟩

end

end Remove

/-! ### The end -/

section Stuck

variable {xs : List α}

theorem not_heldUp_of_closeCount (h : ∀ k, M.closeCount k xs = 0) : ¬ M.HeldUp xs := by
  rintro ⟨n, o, p, -, -, -, hp, -⟩
  have := closeCount_take_add_drop (M := M) p xs n
  have := h p
  omega

/-- **The first closing mark has no partner**: the list is held up exactly when some key has marks
of both kinds left. -/
theorem heldUp_iff_of_stuck {X Z : List α} {u : α} {o : κ} (hu : M.closes o u = true)
    (hX : ∀ k, M.closeCount k X = 0) (ho : M.openCount o (X ++ u :: Z) = 0) :
    M.HeldUp (X ++ u :: Z) ↔
      ∃ p, 0 < M.openCount p (X ++ u :: Z) ∧ 0 < M.closeCount p (X ++ u :: Z) := by
  constructor
  · rintro ⟨n, -, p, -, -, -, hp, hor⟩
    have hc := closeCount_take_add_drop (M := M) p (X ++ u :: Z) n
    have hop := openCount_take_add_drop (M := M) p (X ++ u :: Z) n
    exact ⟨p, by omega, by omega⟩
  · rintro ⟨p, hop, hcp⟩
    have hpo : o ≠ p := by
      rintro rfl
      omega
    have hsplit : M.closeCount p (X ++ u :: Z) = M.closeCount p X + M.closeCount p (u :: Z) :=
      countP_append
    have hsplit' : M.openCount p (X ++ u :: Z) = M.openCount p X + M.openCount p (u :: Z) :=
      countP_append
    refine ⟨X.length, o, p, hpo, ?_, ?_⟩
    · intro m hm _
      have hone : 0 < M.closeCount o ((X ++ u :: Z).take m) := by
        rw [closeCount, countP_pos_iff]
        refine ⟨u, ?_, hu⟩
        have hm' : m - X.length = (m - X.length - 1) + 1 := by omega
        rw [take_append, hm', take_succ_cons]
        simp
      have hzero := openCount_take_add_drop (M := M) o (X ++ u :: Z) m
      omega
    · have hX' := hX p
      rw [take_left, drop_left]
      omega

end Stuck

end Marks

end Andl
