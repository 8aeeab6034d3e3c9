import Mathlib

/-!
# Log sequence numbers

`LSN` is the byte position of a log on the stream of one replica: an unsigned 64-bit offset whose
largest value means "invalid".
-/

namespace Andl.Palf

/-- `LSN`; the bound is that of `offset_t`, an unsigned 64-bit integer. -/
@[ext] structure LSN where
  val : Nat
  isLt : val < 2 ^ 64
deriving DecidableEq

namespace LSN

/-- `LOG_INVALID_LSN_VAL`, the value of a default-constructed `LSN`. -/
def invalid : LSN := ⟨2 ^ 64 - 1, by decide⟩

/-- `LSN(PALF_INITIAL_LSN_VAL)`. -/
def initial : LSN := ⟨0, by decide⟩

/-- The `LSN` of an offset, reduced as unsigned arithmetic reduces it. -/
def ofNat (n : Nat) : LSN := ⟨n % 2 ^ 64, Nat.mod_lt _ (by decide)⟩

/-- `LSN::is_valid`. -/
def isValid (l : LSN) : Bool := l.val ≠ 2 ^ 64 - 1

theorem val_injective : Function.Injective LSN.val := fun _ _ h => LSN.ext h

instance : LinearOrder LSN := LinearOrder.lift' LSN.val val_injective

theorem le_iff (a b : LSN) : a ≤ b ↔ a.val ≤ b.val := Iff.rfl

theorem isValid_iff (l : LSN) : l.isValid = true ↔ l ≠ invalid := by
  simp [isValid, LSN.ext_iff, invalid]

theorem le_invalid (l : LSN) : l ≤ invalid := by
  have := l.isLt
  show l.val ≤ 2 ^ 64 - 1
  omega

/-- `operator+(const LSN &, const offset_t)`. -/
def add (l : LSN) (len : Nat) : LSN := ofNat (l.val + len)

theorem val_add {l : LSN} {len : Nat} (h : l.val + len < 2 ^ 64) : (l.add len).val = l.val + len :=
  Nat.mod_eq_of_lt h

/-- `operator-(const LSN &, const LSN &)`, read as a signed number. -/
def sub (l m : LSN) : Int :=
  let diff : Nat := (2 ^ 64 + l.val - m.val) % 2 ^ 64
  if diff < 2 ^ 63 then diff else diff - 2 ^ 64

theorem sub_of_le {l m : LSN} (h : m ≤ l) (hlt : l.val - m.val < 2 ^ 63) :
    l.sub m = (l.val - m.val : Nat) := by
  have hle : m.val ≤ l.val := h
  have hmod : (2 ^ 64 + l.val - m.val) % 2 ^ 64 = l.val - m.val := by
    rw [Nat.add_sub_assoc hle, Nat.add_mod_left, Nat.mod_eq_of_lt (by omega)]
  simp only [sub, hmod, if_pos hlt]

theorem sub_neg_iff {l m : LSN} (h : m ≤ l) : l.sub m < 0 ↔ 2 ^ 63 ≤ l.val - m.val := by
  have hle : m.val ≤ l.val := h
  have hlt := l.isLt
  have hmod : (2 ^ 64 + l.val - m.val) % 2 ^ 64 = l.val - m.val := by
    rw [Nat.add_sub_assoc hle, Nat.add_mod_left, Nat.mod_eq_of_lt (by omega)]
  simp only [sub, hmod]
  split_ifs <;> omega

end LSN

end Andl.Palf
