import Andl.Common.Member

/-!
# Placement hash sets

`ObIteratableHashSet<K, N>` of `oblib/lib/hash`: `N` slots inside the object, open addressing with
linear probing, and a list of the keys in the order they came in.
-/

namespace Andl.Container

/-- What `placement_hash_find_set_pos` ends with. -/
inductive FindSetPos (N : ℕ) where
  | free (pos : Fin N)
  | exist
  | full
deriving DecidableEq

/-- `ObIteratableHashSet`: the slots (`keys_` and `flags_` of the placement hash set below it) and
`list_`. -/
structure ObIteratableHashSet (K : Type) (N : ℕ) where
  slots : Fin N → Option K
  list : List K

namespace ObIteratableHashSet

variable {K : Type} {N : ℕ}

/-- `ObIteratableHashSet::clear`. -/
def empty : ObIteratableHashSet K N := ⟨fun _ => none, []⟩

variable [DecidableEq K] [NeZero N]

/-- The loop of `placement_hash_find_set_pos`. -/
def findSetPos (s : ObIteratableHashSet K N) (key : K) : ℕ → Fin N → FindSetPos N
  | 0, _ => .full
  | n + 1, pos =>
    match s.slots pos with
    | none => .free pos
    | some k => if k = key then .exist else findSetPos s key n (pos + 1)

/-- `ObIteratableHashSet::set_refactored`. -/
def setRefactored (hash : K → ℕ) (s : ObIteratableHashSet K N) (key : K) :
    ObResult (ObIteratableHashSet K N) :=
  match s.findSetPos key N (Fin.ofNat N (hash key)) with
  | .free pos => .ok ⟨Function.update s.slots pos (some key), s.list ++ [key]⟩
  | .exist => .error .hashExist
  | .full => .error .hashFull

end ObIteratableHashSet

end Andl.Container
