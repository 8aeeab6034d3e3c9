import Andl.Lib.ByteStream
import Andl.Serialization.Primitives

/-!
# Objects with a version and a length

The functions that the macros of `lib/utility/ob_unify_serialize.h` make of the `serialize_`,
`deserialize_` and `get_serialize_size_` of a class: the object is written behind its version and
its length, and the length, which is known only afterwards, has a field of fixed size.
-/

namespace Andl.Serialization

/-- `OB_SERIALIZE_SIZE_NEED_BYTES`. -/
def obSerializeSizeNeedBytes : ℕ := 5

/-- The loop of `encode_fixed_bytes_i64`, with `n` bytes to go. -/
def encodeFixedBytesLoop : ℕ → ℕ → Sink → Sink
  | 0, _, s => s
  | 1, v, s => s.put (UInt8.ofNat (v &&& 0x7f))
  | n + 2, v, s => encodeFixedBytesLoop (n + 1) (v >>> 7) (s.put (UInt8.ofNat (v ||| 0x80)))

/-- `encode_fixed_bytes_i64`. -/
def encodeFixedBytesI64 (val : ℤ) : Encoder ObError := fun bufLen s =>
  if (bufLen : ℤ) - s.pos ≥ obSerializeSizeNeedBytes then
    (.ok (), encodeFixedBytesLoop obSerializeSizeNeedBytes (uint64 val) s)
  else (.error .sizeOverflow, s)

/-- `OB_UNIS_SERIALIZE`. -/
def unisSerialize (unisVersion : ℤ) (serialize_ : Encoder ObError) : Encoder ObError :=
  fun bufLen s =>
    match encodeVi64 unisVersion bufLen s with
    | (.error e, s) => (.error e, s)
    | (.ok (), s) =>
      let posBak := s.pos + obSerializeSizeNeedBytes
      match serialize_ bufLen ⟨s.mem, posBak⟩ with
      | (.error e, s') => (.error e, s')
      | (.ok (), s') =>
        -- the length goes into a buffer of its own, the bytes between `s.pos` and `pos_bak`
        match encodeFixedBytesI64 (s'.pos - posBak) posBak ⟨s'.mem, s.pos⟩ with
        | (ret, field) => (ret, ⟨field.mem, s'.pos⟩)

/-- `OB_UNIS_SERIALIZE_SIZE`. -/
def unisGetSerializeSize (unisVersion size : ℤ) : ℤ :=
  size + encodedLengthVi64 unisVersion + obSerializeSizeNeedBytes

/-- `OB_UNIS_DECODE`: nothing is decoded at the end of the data. -/
def unisDecode {α : Type} (decode : Reader ObError α) (obj : α) : Reader ObError α :=
  fun buf dataLen pos => if pos < dataLen then decode buf dataLen pos else .ok (obj, pos)

/-- `OB_UNIS_DESERIALIZE`, with `CHECK_VERSION_LENGTH`. -/
def unisDeserialize {α : Type} (unisVersion : ℤ) (deserialize_ : Reader ObError α) :
    Reader ObError α := fun buf dataLen pos => do
  let (version, pos) ← unisDecode (decodeVi64.orError .deserializeError) 0 buf dataLen pos
  let (len, pos) ← unisDecode (decodeVi64.orError .deserializeError) 0 buf dataLen pos
  if version ≠ unisVersion then .error .notSupported
  else if len < 0 then .error .errUnexpected
  else if (dataLen : ℤ) < len + pos then .error .deserializeError
  else do
    let (value, _) ← deserialize_ (fun i => buf (pos + i)) len.toNat 0
    return (value, pos + len.toNat)

end Andl.Serialization
