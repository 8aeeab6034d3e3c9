import Mathlib

/-!
# Rings

A ring keeps the latest part of a log, a sequence of unbounded length, in a memory of `N` cells: the
entry at position `x` is stored in cell `slot N s x`, where `s` is the position stored in cell 0.
-/

namespace Andl

open List

/-- A log: what was last written at each position. -/
def Log (α : Type*) := Nat → Option α

namespace Log

variable {α : Type*}

/-- The log nothing was written to. -/
def empty : Log α := fun _ => none

/-- Writing `xs` from position `a` on. -/
def write (L : Log α) (a : Nat) (xs : List α) : Log α := fun x =>
  if a ≤ x ∧ x < a + xs.length then xs[x - a]? else L x

/-- Forgetting everything from position `n` on. -/
def truncate (L : Log α) (n : Nat) : Log α := fun x => if x < n then L x else none

variable {L : Log α} {a n x : Nat} {xs : List α}

theorem write_of_mem (h : a ≤ x ∧ x < a + xs.length) : L.write a xs x = xs[x - a]? := if_pos h

theorem write_of_notMem (h : ¬ (a ≤ x ∧ x < a + xs.length)) : L.write a xs x = L x := if_neg h

theorem write_ne_none (h : L x ≠ none) : L.write a xs x ≠ none := by
  by_cases hx : a ≤ x ∧ x < a + xs.length
  · rw [write_of_mem hx, ne_eq, List.getElem?_eq_none_iff]
    omega
  · rwa [write_of_notMem hx]

theorem truncate_ne_none (h : L.truncate n x ≠ none) : x < n ∧ L x ≠ none := by
  unfold truncate at h
  by_cases hx : x < n
  · rw [if_pos hx] at h
    exact ⟨hx, h⟩
  · rw [if_neg hx] at h
    exact absurd rfl h

end Log

namespace Ring

variable {α : Type*}

/-! ### Memory -/

/-- Copying `xs` into the memory from cell `p` on. -/
def store (m : Nat → α) (p : Nat) (xs : List α) : Nat → α := fun i =>
  if p ≤ i ∧ i < p + xs.length then xs.getD (i - p) (m i) else m i

/-- The content of `n` cells from `p` on. -/
def load (m : Nat → α) (p n : Nat) : List α := (List.range n).map fun i => m (p + i)

/-- Copying into a ring of `N` cells: what does not fit goes on at cell 0. -/
def storeWrapped (N : Nat) (m : Nat → α) (p : Nat) (xs : List α) : Nat → α :=
  let firstPartLen := min (N - p) xs.length
  let m' := store m p (xs.take firstPartLen)
  if xs.length > firstPartLen then store m' 0 (xs.drop firstPartLen) else m'

/-- Reading out of a ring of `N` cells. -/
def loadWrapped (N : Nat) (m : Nat → α) (p n : Nat) : List α :=
  let firstPartLen := min (N - p) n
  let first := load m p firstPartLen
  if n > firstPartLen then first ++ load m 0 (n - firstPartLen) else first

/-- The cell of position `x` when cell 0 holds position `s`. -/
def slot (N s x : Nat) : Nat := (x - s) % N

section Memory

variable {N s a i p : Nat} {m : Nat → α} {xs : List α}

theorem store_of_mem (h : i < xs.length) : store m p xs (p + i) = xs[i] := by
  have hi : p ≤ p + i ∧ p + i < p + xs.length := by omega
  rw [store, if_pos hi, Nat.add_sub_cancel_left, getD_eq_getElem _ _ h]

theorem store_of_notMem (h : ¬ (p ≤ i ∧ i < p + xs.length)) : store m p xs i = m i := if_neg h

theorem load_add (m : Nat → α) (p n k : Nat) :
    load m p (n + k) = load m p n ++ load m (p + n) k := by
  simp [load, range_add, Nat.add_assoc, Function.comp_def]

theorem length_loadWrapped (m : Nat → α) (p n : Nat) : (loadWrapped N m p n).length = n := by
  rw [loadWrapped]
  split_ifs with h
  · simp only [load, length_append, length_map, length_range]
    omega
  · simp only [load, length_map, length_range]
    omega

theorem slot_lt (hN : 0 < N) : slot N s a < N := Nat.mod_lt _ hN

/-- Going on from a position by less than a round. -/
theorem slot_add (hs : s ≤ a) (hi : i < N) : slot N s (a + i) =
    if slot N s a + i < N then slot N s a + i else slot N s a + i - N := by
  have hsub : a + i - s = a - s + i := by omega
  have hlt : (a - s) % N < N := Nat.mod_lt _ (by omega)
  unfold slot
  rw [hsub, Nat.add_mod, Nat.mod_eq_of_lt hi]
  split_ifs with h
  · exact Nat.mod_eq_of_lt h
  · rw [Nat.mod_eq_sub_mod (by omega), Nat.mod_eq_of_lt (by omega)]

/-- Positions less than a round apart have different cells. -/
theorem slot_ne (hs : s ≤ a) (h0 : 0 < i) (hi : i < N) : slot N s (a + i) ≠ slot N s a := by
  rw [slot_add hs hi]
  split_ifs <;> omega

/-- What was copied into a ring is found in the cells of its positions. -/
theorem storeWrapped_slot (hs : s ≤ a) (hlen : xs.length ≤ N) (hi : i < xs.length) :
    storeWrapped N m (slot N s a) xs (slot N s (a + i)) = xs[i] := by
  have hlt : slot N s a < N := slot_lt (by omega)
  rw [slot_add hs (by omega), storeWrapped]
  by_cases hfit : slot N s a + i < N
  · -- in front of the last cell: the second copy stays below the first
    have hfirst : i < (xs.take (min (N - slot N s a) xs.length)).length := by
      rw [length_take]
      omega
    have hval : store m (slot N s a) (xs.take (min (N - slot N s a) xs.length))
        (slot N s a + i) = xs[i] := by
      rw [store_of_mem hfirst, getElem_take]
    rw [if_pos hfit]
    split_ifs with hmore
    · rw [store_of_notMem, hval]
      rw [length_drop]
      omega
    · exact hval
  · have hmore : xs.length > min (N - slot N s a) xs.length := by omega
    have hmin : min (N - slot N s a) xs.length = N - slot N s a := by omega
    have hrest : i - (N - slot N s a) < (xs.drop (N - slot N s a)).length := by
      rw [length_drop]
      omega
    have hcell : slot N s a + i - N = 0 + (i - (N - slot N s a)) := by omega
    have hidx : N - slot N s a + (i - (N - slot N s a)) = i := by omega
    rw [if_neg hfit, if_pos hmore, hmin, hcell, store_of_mem hrest, getElem_drop]
    simp only [hidx]

theorem storeWrapped_of_ne (hs : s ≤ a) (hlen : xs.length ≤ N)
    (h : ∀ j, j < xs.length → slot N s (a + j) ≠ i) : storeWrapped N m (slot N s a) xs i = m i := by
  rcases Nat.eq_zero_or_pos xs.length with h0 | hpos
  · have hnil : xs = [] := eq_nil_of_length_eq_zero h0
    subst hnil
    exact store_of_notMem (by simp)
  have hlt : slot N s a < N := slot_lt (by omega)
  have hfirst : ¬ (slot N s a ≤ i ∧
      i < slot N s a + (xs.take (min (N - slot N s a) xs.length)).length) := by
    rw [length_take]
    intro hi
    refine h (i - slot N s a) (by omega) ?_
    rw [slot_add hs (by omega), if_pos (by omega)]
    omega
  rw [storeWrapped]
  split_ifs with hmore
  · have hrest : ¬ (0 ≤ i ∧ i < 0 + (xs.drop (min (N - slot N s a) xs.length)).length) := by
      rw [length_drop]
      intro hi
      refine h (i + (N - slot N s a)) (by omega) ?_
      rw [slot_add hs (by omega), if_neg (by omega)]
      omega
    rw [store_of_notMem hrest, store_of_notMem hfirst]
  · exact store_of_notMem hfirst

/-- What is read out of a ring are the cells of the positions. -/
theorem loadWrapped_slot {n : Nat} (hs : s ≤ a) (hn : n ≤ N) :
    loadWrapped N m (slot N s a) n = (List.range n).map fun i => m (slot N s (a + i)) := by
  rcases Nat.eq_zero_or_pos n with rfl | hpos
  · simp [loadWrapped, load]
  have hlt : slot N s a < N := slot_lt (by omega)
  have hhead : load m (slot N s a) (min (N - slot N s a) n) =
      (List.range (min (N - slot N s a) n)).map fun i => m (slot N s (a + i)) := by
    refine map_congr_left fun i hi => ?_
    have hi' := mem_range.mp hi
    rw [slot_add hs (by omega), if_pos (by omega)]
  rw [loadWrapped, hhead]
  split_ifs with hmore
  · have hsplit : n = min (N - slot N s a) n + (n - min (N - slot N s a) n) := by omega
    conv_rhs => rw [hsplit, range_add, map_append, map_map]
    congr 1
    refine map_congr_left fun i hi => ?_
    have hi' := mem_range.mp hi
    rw [Function.comp_apply, slot_add hs (by omega), if_neg (by omega)]
    congr 1
    omega
  · rw [show min (N - slot N s a) n = n by omega]

end Memory

/-! ### Windows -/

/-- The memory `m` holds the log `L` from `lo` or `hi` on, without holes from `lo` up to `hi`. -/
structure Window (N s : Nat) (m : Nat → α) (L : Log α) (lo hi : Nat) : Prop where
  start_le : s ≤ lo
  start_le_hi : s ≤ hi
  lt_of_mem {x : Nat} : L x ≠ none → x < lo + N ∧ x < hi + N
  eq_of_mem {x : Nat} {v : α} : L x = some v → lo ≤ x ∨ hi ≤ x → m (slot N s x) = v
  filled {x : Nat} : lo ≤ x → x < hi → L x ≠ none

namespace Window

variable {N s lo lo' hi a n : Nat} {m : Nat → α} {L : Log α} {xs : List α}

/-- Before anything is written. -/
theorem start (m : Nat → α) : Window N s m Log.empty s s where
  start_le := le_rfl
  start_le_hi := le_rfl
  lt_of_mem h := absurd rfl h
  eq_of_mem h _ := by cases h
  filled h h' := absurd h (by omega)

/-- A window is never longer than the ring. -/
theorem hi_le (w : Window N s m L lo hi) : hi ≤ lo + N := by
  rcases Nat.lt_or_ge lo hi with h | h
  · have hlast := w.filled (x := hi - 1) (by omega) (by omega)
    have := (w.lt_of_mem hlast).1
    omega
  · omega

/-- **Writing** in front of the window: the lower end has to move out of the way first. -/
theorem write (w : Window N s m L lo hi) (hhi : hi ≤ a) (hfit : a + xs.length ≤ hi + N)
    (hlo : lo ≤ lo') (hlo' : a + xs.length ≤ lo' + N) :
    Window N s (storeWrapped N m (slot N s a) xs) (L.write a xs) lo' hi where
  start_le := w.start_le.trans hlo
  start_le_hi := w.start_le_hi
  lt_of_mem {x} hx := by
    by_cases hmem : a ≤ x ∧ x < a + xs.length
    · omega
    · rw [Log.write_of_notMem hmem] at hx
      have := w.lt_of_mem hx
      omega
  eq_of_mem {x v} hx hle := by
    have hs : s ≤ a := w.start_le_hi.trans hhi
    have hlen : xs.length ≤ N := by omega
    by_cases hmem : a ≤ x ∧ x < a + xs.length
    · have hcell := storeWrapped_slot (m := m) hs hlen (i := x - a) (by omega)
      have hxa : a + (x - a) = x := by omega
      rw [Log.write_of_mem hmem, getElem?_eq_getElem (by omega), Option.some.injEq] at hx
      rw [hxa, hx] at hcell
      exact hcell
    · rw [Log.write_of_notMem hmem] at hx
      have hlt := (w.lt_of_mem (x := x) (by simp [hx])).2
      have hsx : s ≤ x := hle.elim (w.start_le.trans hlo).trans w.start_le_hi.trans
      rw [storeWrapped_of_ne hs hlen, w.eq_of_mem hx (hle.imp_left hlo.trans)]
      -- a position that shares a cell with a new one is a round away from it
      intro j hj
      rcases Nat.lt_or_ge x (a + j) with hxj | hxj
      · have hne := slot_ne (N := N) hsx (i := a + j - x) (by omega) (by omega)
        rwa [show x + (a + j - x) = a + j by omega] at hne
      · have hne := slot_ne (N := N) (s := s) (a := a + j) (by omega) (i := x - (a + j))
          (by omega) (by omega)
        rw [show a + j + (x - (a + j)) = x by omega] at hne
        exact hne.symm
  filled h h' := Log.write_ne_none (w.filled (hlo.trans h) h')

/-- **Advancing** the upper end over what is written, or has been given up. -/
theorem advance {hi' : Nat} (w : Window N s m L lo hi) (hle : hi ≤ hi')
    (h : ∀ x, lo ≤ x → hi ≤ x → x < hi' → L x ≠ none) : Window N s m L lo hi' where
  start_le := w.start_le
  start_le_hi := w.start_le_hi.trans hle
  lt_of_mem hx := ⟨(w.lt_of_mem hx).1, by have := (w.lt_of_mem hx).2; omega⟩
  eq_of_mem hx h := w.eq_of_mem hx (h.imp_right hle.trans)
  filled {x} hx hx' := by
    rcases Nat.lt_or_ge x hi with h' | h'
    · exact w.filled hx h'
    · exact h x hx h' hx'

/-- **Raising** the lower end. -/
theorem raise (w : Window N s m L lo hi) (hlo : lo ≤ lo') : Window N s m L lo' hi where
  start_le := w.start_le.trans hlo
  start_le_hi := w.start_le_hi
  lt_of_mem hx := ⟨by have := (w.lt_of_mem hx).1; omega, (w.lt_of_mem hx).2⟩
  eq_of_mem hx h := w.eq_of_mem hx (h.imp_left hlo.trans)
  filled h h' := w.filled (hlo.trans h) h'

/-- **Truncating** the log empties the window. -/
theorem truncate (w : Window N s m L lo hi) (hs : s ≤ n) :
    Window N s m (L.truncate n) (max lo n) n where
  start_le := w.start_le.trans (le_max_left _ _)
  start_le_hi := hs
  lt_of_mem hx := by
    have := (Log.truncate_ne_none hx).1
    omega
  eq_of_mem {x v} hx hle := by
    have := (Log.truncate_ne_none (L := L) (n := n) (x := x) (by simp [hx])).1
    omega
  filled h h' := absurd h (by omega)

/-- **Reading**: what comes out of the ring is what the log holds. -/
theorem loadWrapped_eq (w : Window N s m L lo hi) (hlo : lo ≤ a ∨ hi ≤ a)
    (hmem : ∀ x, a ≤ x → x < a + n → L x ≠ none) {i : Nat} (hi' : i < n) :
    (loadWrapped N m (slot N s a) n)[i]? = L (a + i) := by
  have hlast := w.lt_of_mem (hmem (a + (n - 1)) (by omega) (by omega))
  have hs : s ≤ a := hlo.elim w.start_le.trans w.start_le_hi.trans
  obtain ⟨v, hv⟩ := Option.ne_none_iff_exists'.mp (hmem (a + i) (by omega) (by omega))
  have hcell := w.eq_of_mem hv (by omega)
  rw [loadWrapped_slot hs (by omega), hv]
  simp [hi', hcell]

end Window

end Ring

end Andl
