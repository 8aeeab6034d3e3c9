import Andl.Serialization.Equiv.Integers
import Andl.Serialization.Unis

/-!
# What is written and read for objects with a version and a length
-/

namespace Andl.Serialization

open List

variable {v : ℤ} {buf : Mem} {dataLen pos : ℕ}

theorem writes_encodeVi64 (v : ℤ) : Writes (encodeVi64 v) (leb128 (uint64 v)) :=
  writes_of_putsIfRoom (encodeVi64_eq v)

theorem writes_encodeVi32 (v : ℤ) : Writes (encodeVi32 v) (leb128 (uint32 v)) :=
  writes_of_putsIfRoom (encodeVi32_eq v)

theorem leb128_ne_nil (v : ℕ) : leb128 v ≠ [] := by
  rw [leb128]
  split_ifs <;> exact cons_ne_nil _ _

/-! ### The length -/

theorem encodeFixedBytesLoop_eq (n v : ℕ) (s : Sink) :
    encodeFixedBytesLoop (n + 1) v s = s.puts (leb128Padded n v) := by
  induction n generalizing v s with
  | zero => rfl
  | succ n ih => rw [encodeFixedBytesLoop, ih, leb128Padded, Sink.puts_cons]

theorem writes_encodeFixedBytesI64 (v : ℤ) :
    Writes (encodeFixedBytesI64 v) (leb128Padded 4 (uint64 v)) := by
  intro bufLen s hroom
  rw [length_leb128Padded] at hroom
  rw [encodeFixedBytesI64, if_pos (by rw [obSerializeSizeNeedBytes]; omega)]
  exact congrArg _ (encodeFixedBytesLoop_eq 4 _ s)

/-- The loop reads padded groups as it reads others. -/
theorem decodeViLoop_leb128Padded {w n k u acc : ℕ} (hk : 7 * (k + n) < w)
    (hacc : acc < 2 ^ (7 * k)) (hu : u < 128 ^ (n + 1)) (hv : u * 2 ^ (7 * k) < 2 ^ w)
    (hread : bytesAt buf pos (leb128Padded n u).length = leb128Padded n u)
    (hlen : pos + (n + 1) ≤ dataLen) :
    decodeViLoop w buf dataLen pos acc (7 * k) =
      some (acc + u * 2 ^ (7 * k), pos + (n + 1)) := by
  induction n generalizing pos k u acc with
  | zero =>
    obtain ⟨hbyte, -⟩ := bytesAt_cons.mp hread
    exact decodeViLoop_last (by omega) (by omega) hacc hv hbyte (by omega)
  | succ n ih =>
    rw [leb128Padded, bytesAt_cons, Nat.shiftRight_eq_div_pow] at hread
    obtain ⟨hbyte, hread⟩ := hread
    have hpos : pos < dataLen := by omega
    obtain ⟨hstep, hacc', hsum⟩ := decodeViLoop_marked (by omega) hacc hv hbyte hpos
    rw [Nat.pow_succ] at hu
    rw [hstep, ih (by omega) hacc' (by show u / 128 < _; omega) (by show u / 128 * _ < _; omega)
      hread (by omega)]
    show some (_ + u / 128 * _, _) = _
    rw [hsum]
    congr 2 <;> omega

theorem readsFrom_decodeVi64_padded {len : ℕ} (hlen : len < 2 ^ 35) :
    ReadsFrom decodeVi64 (leb128Padded 4 (uint64 len)) len := by
  intro buf dataLen pos hread hroom
  rw [length_leb128Padded] at hroom ⊢
  have huint : uint64 len = len := by
    rw [uint64]
    omega
  rw [huint] at hread
  have hloop : decodeViLoop 64 buf dataLen pos 0 (7 * 0) = _ :=
    decodeViLoop_leb128Padded (by decide) (by decide) (show len < 128 ^ (4 + 1) by omega)
      (by omega) hread hroom
  rw [Nat.mul_zero, Nat.pow_zero, Nat.mul_one, Nat.zero_add] at hloop
  rw [decodeVi64, hloop, Option.map_some]
  dsimp only
  rw [int64, wrap_of_range (by omega) (by omega)]

/-! ### Objects -/

/-- What `OB_UNIS_SERIALIZE` writes. -/
def unisBytes (unisVersion : ℤ) (body : List UInt8) : List UInt8 :=
  leb128 (uint64 unisVersion) ++ (leb128Padded 4 (uint64 body.length) ++ body)

theorem length_unisBytes (unisVersion : ℤ) (body : List UInt8) :
    ((unisBytes unisVersion body).length : ℤ) = unisGetSerializeSize unisVersion body.length := by
  rw [unisBytes, length_append, length_append, length_leb128Padded,
    unisGetSerializeSize, encodedLengthVi64_eq, obSerializeSizeNeedBytes]
  push_cast
  ring

/-- **An object is written** behind its version and its length. -/
theorem writes_unisSerialize {unisVersion : ℤ} {serialize_ : Encoder ObError} {body : List UInt8}
    (h : Writes serialize_ body) :
    Writes (unisSerialize unisVersion serialize_) (unisBytes unisVersion body) := by
  intro bufLen s hroom
  rw [unisBytes, length_append, length_append, length_leb128Padded] at hroom
  rw [unisSerialize, writes_encodeVi64 unisVersion bufLen s (by omega), unisBytes, Sink.puts_append]
  generalize hs : s.puts (leb128 (uint64 unisVersion)) = s1
  have hpos : s1.pos = s.pos + (leb128 (uint64 unisVersion)).length := by rw [← hs, Sink.pos_puts]
  dsimp only [obSerializeSizeNeedBytes]
  rw [h bufLen _ (by dsimp only; omega)]
  dsimp only
  rw [Sink.pos_puts, show ((s1.pos + 5 + body.length : ℕ) : ℤ) - ((s1.pos + 5 : ℕ) : ℤ) =
      body.length by push_cast; ring, writes_encodeFixedBytesI64 body.length _ _ (by
      rw [length_leb128Padded])]
  have hreserve := s1.puts_reserve (leb128Padded 4 (uint64 body.length)) body
  rw [length_leb128Padded] at hreserve
  exact congrArg _ hreserve

theorem reads_unisDecode {α : Type} {decode : Reader ObError α} {bs : List UInt8} {value : α}
    (h : Reads decode bs value) (hbs : bs ≠ []) (obj : α) :
    Reads (unisDecode decode obj) bs value := by
  intro mem dataLen pos hread hlen
  have hpos := length_pos_iff.mpr hbs
  rw [unisDecode, if_pos (by omega)]
  exact h mem dataLen pos hread hlen

/-- **An object is read back** from behind its version and its length. -/
theorem reads_unisDeserialize {α : Type} {unisVersion : ℤ} (hversion : IsInt64 unisVersion)
    {deserialize_ : Reader ObError α} {body : List UInt8} {value : α}
    (hbody : body.length < 2 ^ 35) (h : Reads deserialize_ body value) :
    Reads (unisDeserialize unisVersion deserialize_) (unisBytes unisVersion body) value := by
  intro mem dataLen pos hread hlen
  have hlength := hlen
  rw [unisBytes, length_append, length_append, length_leb128Padded] at hlength
  rw [unisBytes, bytesAt_append, bytesAt_append, length_leb128Padded] at hread
  obtain ⟨hver, hsize, hbytes⟩ := hread
  have hversion' := reads_unisDecode
    ((readsFrom_decodeVi64 hversion).orError ObError.deserializeError) (leb128_ne_nil _) 0
    mem dataLen pos hver (by omega)
  have hsize' := reads_unisDecode
    ((readsFrom_decodeVi64_padded hbody).orError ObError.deserializeError)
    (ne_nil_of_length_eq_add_one (length_leb128Padded 4 _)) 0 mem dataLen _
    (by rw [length_leb128Padded]; exact hsize) (by rw [length_leb128Padded]; omega)
  rw [length_leb128Padded] at hsize'
  have hvalue := h (fun i => mem (pos + (leb128 (uint64 unisVersion)).length + (4 + 1) + i))
    body.length 0 (by rw [bytesAt_shift]; exact hbytes) (by omega)
  simp only [unisDeserialize, hversion', hsize', bind, Except.bind, ne_eq, not_true_eq_false,
    if_false]
  rw [if_neg (by omega), if_neg (by push_cast; omega), Int.toNat_natCast, hvalue]
  refine congrArg (fun p => Except.ok (value, p)) ?_
  rw [unisBytes, length_append, length_append, length_leb128Padded]
  omega

end Andl.Serialization
