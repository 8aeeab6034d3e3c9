import Mathlib

/-!
# System change numbers

`SCN` is a 64-bit word: 62 bits of nanoseconds and a 2-bit version that is zero in every valid
number.
-/

namespace Andl

/-- `SCN`. -/
@[ext] structure SCN where
  val : Nat
  isLt : val < 2 ^ 64

namespace SCN

instance : DecidableEq SCN := fun a b => decidable_of_iff (a.val = b.val) SCN.ext_iff.symm

/-- `OB_MAX_SCN_TS_NS`. -/
def obMaxScnTsNs : Nat := 2 ^ 62 - 1

theorem invalid_lt : 2 ^ 64 - 1 < 2 ^ 64 := by decide

/-- `SCN::SCN`: the invalid number. -/
def invalid : SCN := ⟨2 ^ 64 - 1, invalid_lt⟩

/-- `SCN::is_valid`: the version bits are zero. -/
def isValid (s : SCN) : Bool := s.val / 2 ^ 62 = 0

theorem isValid_iff (s : SCN) : s.isValid = true ↔ s.val ≤ obMaxScnTsNs := by
  have := s.isLt
  simp only [isValid, decide_eq_true_eq, obMaxScnTsNs]
  omega

/-- A valid number from its nanoseconds. -/
def ofTs (n : Nat) (h : n ≤ obMaxScnTsNs) : SCN := ⟨n, by unfold obMaxScnTsNs at h; omega⟩

@[simp] theorem val_ofTs (n : Nat) (h : n ≤ obMaxScnTsNs) : (ofTs n h).val = n := rfl

/-- `SCN::convert_for_logservice`. -/
def convertForLogservice (scnVal : Nat) : Option SCN :=
  if h : scnVal ≤ obMaxScnTsNs then some (ofTs scnVal h) else none

/-- `SCN::plus`: an invalid number where the sum is out of range. -/
def plus (s : SCN) (delta : Nat) : SCN :=
  if delta ≥ obMaxScnTsNs ∨ s.isValid = false then invalid
  else if h : s.val + delta ≤ obMaxScnTsNs then ofTs (s.val + delta) h
  else invalid

/-- `SCN::operator<`: the invalid numbers come first, and are equal. -/
def lt (a b : SCN) : Bool :=
  if !a.isValid && !b.isValid then false
  else if !a.isValid then true
  else if !b.isValid then false
  else a.val < b.val

/-- `SCN::operator>`. -/
def gt (a b : SCN) : Bool := lt b a

/-- `SCN::operator<=`. -/
def le (a b : SCN) : Bool := !lt b a

/-- `SCN::operator>=`. -/
def ge (a b : SCN) : Bool := !lt a b

/-- `SCN::min`: an invalid number is the least. -/
def min (a b : SCN) : SCN :=
  if a.isValid = false then a
  else if b.isValid = false then b
  else if lt b a then b
  else a

/-- `SCN::inc_update`: the number stored afterwards. -/
def incUpdate (s ref : SCN) : SCN := if lt s ref then ref else s

theorem minScn_lt : 0 < 2 ^ 64 := by decide

/-- `SCN::min_scn`. -/
def minScn : SCN := ⟨0, minScn_lt⟩

/-- `SCN::max_scn`. -/
def maxScn : SCN := ⟨obMaxScnTsNs, by decide⟩

variable {a b : SCN}

theorem lt_iff (ha : a.isValid = true) (hb : b.isValid = true) : lt a b = true ↔ a.val < b.val := by
  simp [lt, ha, hb]

theorem ge_eq_decide (ha : a.isValid = true) (hb : b.isValid = true) :
    ge a b = decide (b.val ≤ a.val) := by
  rw [ge, Bool.eq_iff_iff, Bool.not_eq_true', ← Bool.not_eq_true, lt_iff ha hb, decide_eq_true_eq,
    Nat.not_lt]

/-- What is not above a bound is below what is above it. -/
theorem val_lt_of_gt {bound : SCN} (ha : a.isValid = true) (hb : b.isValid = true)
    (hab : gt a bound = false) (hbb : gt b bound = true) : a.val < b.val := by
  cases hv : bound.isValid with
  | false => simp [gt, lt, ha, hv] at hab
  | true =>
    rw [gt, lt_iff hv hb] at hbb
    have hle : ¬ bound.val < a.val := fun h => by
      rw [gt, (lt_iff hv ha).mpr h] at hab
      cases hab
    omega

/-- The largest number is above all others, valid or not. -/
theorem gt_maxScn (h : a ≠ maxScn) : gt maxScn a = true := by
  have hmax : maxScn.isValid = true := by decide
  cases hv : a.isValid with
  | false => simp [gt, lt, hv, hmax]
  | true =>
    have hle := (isValid_iff a).mp hv
    have hne : a.val ≠ obMaxScnTsNs := fun heq => h (SCN.ext heq)
    rw [gt, lt_iff hv hmax]
    exact Nat.lt_of_le_of_ne hle hne

theorem lt_irrefl (a : SCN) : lt a a = false := by
  cases h : a.isValid <;> simp [lt, h]

theorem lt_of_lt_of_le {c : SCN} (hab : lt a b = true) (hbc : le b c = true) : lt a c = true := by
  cases ha : a.isValid <;> cases hb : b.isValid <;> cases hc : c.isValid <;>
    simp [lt, le, ha, hb, hc] at hab hbc ⊢
  omega

theorem incUpdate_of_valid (ha : a.isValid = true) (hb : b.isValid = true) :
    (incUpdate a b).isValid = true ∧ (incUpdate a b).val = max a.val b.val := by
  have hiff := lt_iff ha hb
  unfold incUpdate
  split_ifs with h
  · exact ⟨hb, (Nat.max_eq_right (Nat.le_of_lt (hiff.mp h))).symm⟩
  · rw [hiff] at h
    exact ⟨ha, (Nat.max_eq_left (Nat.le_of_not_lt h)).symm⟩

theorem plus_one_of_lt {s : SCN} (h : s.val < obMaxScnTsNs) :
    (s.plus 1).val = s.val + 1 ∧ (s.plus 1).isValid = true := by
  have hs : s.isValid = true := (isValid_iff s).mpr (Nat.le_of_lt h)
  have heq : s.plus 1 = ofTs (s.val + 1) h := by
    rw [plus, if_neg (by rw [hs]; decide), dif_pos (Nat.succ_le_of_lt h)]
  rw [heq]
  exact ⟨rfl, (isValid_iff _).mpr h⟩

end SCN

end Andl
