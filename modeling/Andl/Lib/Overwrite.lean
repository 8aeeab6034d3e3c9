import Mathlib

/-!
# Overwriting a part of a list

`overwrite l p b` is `l` with the elements from `p` on replaced by those of `b`; it is longer than
`l` where `b` reaches beyond its end.
-/

namespace Andl

open List

variable {α : Type*} {l b : List α} {p q : ℕ}

/-- The list with `b` written from position `p` on. -/
def overwrite (l : List α) (p : ℕ) (b : List α) : List α :=
  l.take p ++ b ++ l.drop (p + b.length)

section

variable (h : p ≤ l.length)
include h

theorem length_overwrite : (overwrite l p b).length = max l.length (p + b.length) := by
  simp only [overwrite, length_append, length_take, length_drop]
  omega

theorem getElem?_overwrite (i : ℕ) :
    (overwrite l p b)[i]? =
      if i < p then l[i]? else if i < p + b.length then b[i - p]? else l[i]? := by
  have htake : (l.take p).length = p := by
    rw [length_take]
    omega
  unfold overwrite
  rw [append_assoc]
  split_ifs with hlt hb
  · rw [getElem?_append_left (by omega), getElem?_take_of_lt hlt]
  · rw [getElem?_append_right (by omega), getElem?_append_left (by omega), htake]
  · rw [getElem?_append_right (by omega), getElem?_append_right (by omega),
      getElem?_drop, htake]
    congr 1
    omega

/-- Behind its start, the overwritten list is overwritten in the same place. -/
theorem drop_overwrite (hq : q ≤ p) :
    (overwrite l p b).drop q = overwrite (l.drop q) (p - q) b := by
  refine ext_getElem? fun i => ?_
  rw [getElem?_drop, getElem?_overwrite h,
    getElem?_overwrite (by rw [length_drop]; omega), getElem?_drop,
    show q + i - p = i - (p - q) by omega]
  simp only [show q + i < p ↔ i < p - q by omega,
    show q + i < p + b.length ↔ i < p - q + b.length by omega]

/-- What is behind the new elements stays. -/
theorem drop_overwrite_of_le (hq : p + b.length ≤ q) : (overwrite l p b).drop q = l.drop q := by
  refine ext_getElem? fun i => ?_
  rw [getElem?_drop, getElem?_overwrite h, getElem?_drop, if_neg (by omega),
    if_neg (by omega)]

/-- What is in front of the new elements stays. -/
theorem take_overwrite_of_le (hq : q ≤ p) : (overwrite l p b).take q = l.take q := by
  refine ext_getElem? fun i => ?_
  rw [getElem?_take, getElem?_take, getElem?_overwrite h]
  split_ifs <;> first | rfl | omega

theorem take_drop_overwrite_of_le {n : ℕ} (hq : q + n ≤ p) :
    ((overwrite l p b).drop q).take n = (l.drop q).take n := by
  have hslice (x : List α) : (x.drop q).take n = (x.take (q + n)).drop q := by
    rw [drop_take, Nat.add_sub_cancel_left]
  rw [hslice, hslice, take_overwrite_of_le h hq]

theorem take_overwrite (hq : p + b.length ≤ q) :
    (overwrite l p b).take q = overwrite (l.take q) p b := by
  refine ext_getElem? fun i => ?_
  rw [getElem?_take, getElem?_overwrite h,
    getElem?_overwrite (by rw [length_take]; omega), getElem?_take]
  split_ifs <;> first | rfl | omega

/-- New elements that reach the end of what was appended do not depend on it. -/
theorem overwrite_append {tail : List α} (hlen : p + b.length = l.length + tail.length) :
    overwrite (l ++ tail) p b = overwrite l p b := by
  refine ext_getElem? fun i => ?_
  rw [getElem?_overwrite (by rw [length_append]; omega), getElem?_overwrite h]
  split_ifs with hlt hb
  · rw [getElem?_append_left (by omega)]
  · rfl
  · rw [getElem?_eq_none (by rw [length_append]; omega),
      getElem?_eq_none (by omega)]

end

/-- The sum over a list with one element replaced. -/
theorem sum_map_set (f : α → ℕ) {j : ℕ} {x : α} (hj : l[j]? = some x) (y : α) :
    ((l.set j y).map f).sum + f x = (l.map f).sum + f y := by
  induction l generalizing j with
  | nil => simp at hj
  | cons z l ih =>
    cases j with
    | zero =>
      simp only [getElem?_cons_zero, Option.some.injEq] at hj
      subst hj
      simp only [set_cons_zero, map_cons, sum_cons]
      omega
    | succ j =>
      have := ih (by simpa using hj)
      simp only [set_cons_succ, map_cons, sum_cons]
      omega

end Andl
