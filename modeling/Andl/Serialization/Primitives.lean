import Andl.Common.Member
import Andl.Lib.ByteCodec
import Andl.Lib.MachineInt

/-!
# Wire primitives

The encoders and decoders of `lib/utility/serialization.h` for integers of variable length, integers
with a type byte, and strings.
-/

namespace Andl.Serialization

/-! ### Machine integers -/

/-- `static_cast<uint64_t>(x)`. -/
def uint64 (x : ℤ) : ℕ := (x % 2 ^ 64).toNat

/-- `static_cast<uint32_t>(x)`. -/
def uint32 (x : ℤ) : ℕ := (x % 2 ^ 32).toNat

/-- `x << shift` of an unsigned integer of `w` bits. -/
def shiftLeft (w x shift : ℕ) : ℕ := (x <<< (shift % w)) % 2 ^ w

/-- `set_bit`. -/
def setBit (v pos : ℕ) : ℕ := v ||| 1 <<< pos

/-- `test_bit`. -/
def testBit (v : UInt8) (pos : ℕ) : Bool := v.toNat &&& 1 <<< pos != 0

/-! ### Bytes -/

/-- `encode_i8`. -/
def encodeI8 (val : UInt8) : Encoder ObError := fun bufLen s =>
  if (bufLen : ℤ) - s.pos ≥ 1 then (.ok (), s.put val) else (.error .sizeOverflow, s)

/-- `decode_i8`. -/
def decodeI8 : Decoder UInt8 := fun buf dataLen pos =>
  if (dataLen : ℤ) - pos ≥ 1 then some (buf pos, pos + 1) else none

/-! ### Integers of variable length -/

/-- `OB_MAX_V1B` to `OB_MAX_V9B`. -/
def obMaxVB (k : ℕ) : ℕ := 1 <<< (7 * k) - 1

/-- `encoded_length_vi64`. -/
def encodedLengthVi64 (val : ℤ) : ℤ :=
  let v := uint64 val
  if v ≤ obMaxVB 1 then 1
  else if v ≤ obMaxVB 2 then 2
  else if v ≤ obMaxVB 3 then 3
  else if v ≤ obMaxVB 4 then 4
  else if v ≤ obMaxVB 5 then 5
  else if v ≤ obMaxVB 6 then 6
  else if v ≤ obMaxVB 7 then 7
  else if v ≤ obMaxVB 8 then 8
  else if v ≤ obMaxVB 9 then 9
  else 10

/-- `encoded_length_vi32`. -/
def encodedLengthVi32 (val : ℤ) : ℤ :=
  let v := uint32 val
  if v ≤ obMaxVB 1 then 1
  else if v ≤ obMaxVB 2 then 2
  else if v ≤ obMaxVB 3 then 3
  else if v ≤ obMaxVB 4 then 4
  else 5

/-- The loop of `encode_vi64` and `encode_vi32`. -/
def encodeViLoop (v : ℕ) (s : Sink) : Sink :=
  if v > obMaxVB 1 then encodeViLoop (v >>> 7) (s.put (UInt8.ofNat (v ||| 0x80)))
  else s.put (UInt8.ofNat (v &&& 0x7f))
termination_by v
decreasing_by
  rename_i h
  rw [Nat.shiftRight_eq_div_pow]
  exact Nat.div_lt_self (Nat.zero_lt_of_lt h) (by decide)

/-- `encode_vi64`. -/
def encodeVi64 (val : ℤ) : Encoder ObError := fun bufLen s =>
  if (bufLen : ℤ) - s.pos ≥ encodedLengthVi64 val then (.ok (), encodeViLoop (uint64 val) s)
  else (.error .sizeOverflow, s)

/-- `encode_vi32`. -/
def encodeVi32 (val : ℤ) : Encoder ObError := fun bufLen s =>
  if (bufLen : ℤ) - s.pos ≥ encodedLengthVi32 val then (.ok (), encodeViLoop (uint32 val) s)
  else (.error .sizeOverflow, s)

/-- The loop of `decode_vi64` and `decode_vi32`, with a value of `w` bits. -/
def decodeViLoop (w : ℕ) (buf : Mem) (dataLen tmpPos v shift : ℕ) : Option (ℕ × ℕ) :=
  if (buf tmpPos).toNat &&& 0x80 ≠ 0 then
    -- the byte has been read, although it may be behind the data
    if (dataLen : ℤ) - tmpPos < 1 then none
    else
      decodeViLoop w buf dataLen (tmpPos + 1)
        (v ||| shiftLeft w ((buf tmpPos).toNat &&& 0x7f) shift) (shift + 7)
  else if (dataLen : ℤ) - tmpPos < 1 then none
  else some (v ||| shiftLeft w ((buf tmpPos).toNat &&& 0x7f) shift, tmpPos + 1)
termination_by dataLen - tmpPos

/-- `decode_vi64`. -/
def decodeVi64 : Decoder ℤ := fun buf dataLen pos =>
  (decodeViLoop 64 buf dataLen pos 0 0).map fun r => (int64 r.1, r.2)

/-- `decode_vi32`. -/
def decodeVi32 : Decoder ℤ := fun buf dataLen pos =>
  (decodeViLoop 32 buf dataLen pos 0 0).map fun r => (int32 r.1, r.2)

/-! ### Integers with a type byte -/

/-- `OB_INT_OPERATION_BIT_POS`. -/
def obIntOperationBitPos : ℕ := 6

/-- `OB_INT_SIGN_BIT_POS`. -/
def obIntSignBitPos : ℕ := 5

/-- `OB_MAX_INT_1B`. -/
def obMaxInt1B : ℕ := 23

/-- `OB_MAX_INT_2B` to `OB_MAX_INT_7B`, by the number of bytes behind the first one. -/
def obMaxIntB (n : ℕ) : ℕ := 1 <<< (8 * n) - 1

/-- `safe_int64_abs`. -/
def safeInt64Abs (val : ℤ) : ℕ :=
  let tmp := val >>> (63 : ℕ)
  uint64 (int64 (Int.xor val tmp - tmp))

/-- `encoded_length_int`. -/
def encodedLengthInt (val : ℤ) : ℕ :=
  let v := safeInt64Abs val
  if v ≤ obMaxInt1B then 1
  else if v ≤ obMaxIntB 1 then 2
  else if v ≤ obMaxIntB 2 then 3
  else if v ≤ obMaxIntB 3 then 4
  else if v ≤ obMaxIntB 4 then 5
  else if v ≤ obMaxIntB 6 then 7
  else 9

/-- The labels of `fast_encode` fall through. -/
def fastEncodeLoop : ℕ → ℤ → Sink → Sink
  | 0, _, s => s
  | n + 1, val, s => fastEncodeLoop n (val >>> (8 : ℕ)) (s.put (UInt8.ofNat (val % 256).toNat))

/-- `fast_encode`. -/
def fastEncode (val : ℤ) (isAdd : Bool) (s : Sink) : Sink :=
  let signByte := if val < 0 then setBit 0 obIntSignBitPos else 0
  let val := if val < 0 then int64 (-val) else val
  let firstByte := if isAdd then setBit signByte obIntOperationBitPos else signByte
  if uint64 val ≤ obMaxInt1B then s.put (UInt8.ofNat (firstByte ||| val.toNat))
  else
    let firstByte := firstByte ||| obMaxInt1B
    if uint64 val ≤ obMaxIntB 3 then
      if uint64 val ≤ obMaxIntB 1 then fastEncodeLoop 1 val (s.put (UInt8.ofNat (firstByte + 1)))
      else if uint64 val ≤ obMaxIntB 2 then
        fastEncodeLoop 2 val (s.put (UInt8.ofNat (firstByte + 2)))
      else fastEncodeLoop 3 val (s.put (UInt8.ofNat (firstByte + 3)))
    else if uint64 val ≤ obMaxIntB 4 then
      fastEncodeLoop 4 val (s.put (UInt8.ofNat (firstByte + 4)))
    else if uint64 val ≤ obMaxIntB 6 then
      fastEncodeLoop 6 val (s.put (UInt8.ofNat (firstByte + 5)))
    else fastEncodeLoop 8 val (s.put (UInt8.ofNat (firstByte + 7)))

/-- The bytes `n` to `n + k - 1` of `val`, written with `encode_i8`. -/
def encodeBytesLoop (val n : ℕ) : ℕ → Encoder ObError
  | 0 => fun _ s => (.ok (), s)
  | k + 1 => fun bufLen s =>
    match encodeI8 (UInt8.ofNat (val >>> (8 * n))) bufLen s with
    | (.ok (), s') => encodeBytesLoop val (n + 1) k bufLen s'
    | r => r

/-- `__encode_uint_with_given_length`. -/
def encodeUintWithGivenLength (val valLen : ℕ) : Encoder ObError := fun bufLen s =>
  if valLen ≤ 0 ∨ (bufLen : ℤ) - s.pos < valLen then (.error .sizeOverflow, s)
  else
    match encodeBytesLoop val 0 valLen bufLen s with
    | (.ok (), s') => (.ok (), s')
    | (.error e, s') => (.error e, { s' with pos := s.pos })

/-- `encode_int_safe`. -/
def encodeIntSafe (val : ℤ) (isAdd : Bool) : Encoder ObError := fun bufLen s =>
  let len := encodedLengthInt val
  if (bufLen : ℤ) - s.pos < len then (.error .sizeOverflow, s)
  else
    let signByte := if val < 0 then setBit 0 obIntSignBitPos else 0
    let firstByte := if isAdd then setBit signByte obIntOperationBitPos else signByte
    let v := safeInt64Abs val
    let tmpLen := if 7 = len ∨ 9 = len then len - 1 else len
    let firstByte :=
      if v ≤ obMaxInt1B then firstByte ||| v else firstByte ||| (tmpLen - 1 + obMaxInt1B)
    match encodeI8 (UInt8.ofNat firstByte) bufLen s with
    | (.ok (), s') =>
      if len - 1 > 0 then encodeUintWithGivenLength v (len - 1) bufLen s' else (.ok (), s')
    | (.error _, s') => (.error .sizeOverflow, s')

/-- `encode_int`. -/
def encodeInt (val : ℤ) (isAdd : Bool) : Encoder ObError := fun bufLen s =>
  if (bufLen : ℤ) - s.pos ≥ 10 then (.ok (), fastEncode val isAdd s)
  else encodeIntSafe val isAdd bufLen s

/-- The labels of `fast_decode` fall through. -/
def fastDecodeLoop (buf : Mem) : ℕ → ℕ → ℕ → ℕ
  | 0, _, val => val
  | 1, npos, val => val ||| (buf (npos - 1)).toNat
  | n + 2, npos, val =>
    fastDecodeLoop buf (n + 1) (npos - 1) (shiftLeft 64 (val ||| (buf (npos - 1)).toNat) 8)

/-- `len_or_value` of an integer. -/
def intLenOrValue (firstByte : UInt8) : ℕ := firstByte.toNat &&& 0x1f

/-- `fast_decode`. -/
def fastDecode (buf : Mem) (firstByte : UInt8) (pos : ℕ) : (ℤ × Bool) × ℕ :=
  let isNeg := testBit firstByte obIntSignBitPos
  let isAdd := testBit firstByte obIntOperationBitPos
  let lenOrValue := intLenOrValue firstByte
  if lenOrValue ≤ obMaxInt1B then ((if isNeg then -lenOrValue else lenOrValue, isAdd), pos)
  else
    let n :=
      if lenOrValue ≤ obMaxInt1B + 3 then
        if lenOrValue = obMaxInt1B + 1 then 1 else if lenOrValue = obMaxInt1B + 2 then 2 else 3
      else if lenOrValue = obMaxInt1B + 4 then 4
      else if lenOrValue = obMaxInt1B + 5 then 6
      else 8
    let val := int64 (fastDecodeLoop buf n (pos + n) 0)
    ((if isNeg then int64 (-val) else val, isAdd), pos + n)

/-- The bytes `n` to `n + k - 1` of a number, read with `decode_i8`. -/
def decodeBytesLoop (buf : Mem) (dataLen n : ℕ) : ℕ → ℕ → ℕ → Option (ℕ × ℕ)
  | 0, pos, v => some (v, pos)
  | k + 1, pos, v =>
    match decodeI8 buf dataLen pos with
    | some (tmp, pos') =>
      decodeBytesLoop buf dataLen (n + 1) k pos' (v ||| shiftLeft 64 tmp.toNat (8 * n))
    | none => none

/-- `__decode_uint_with_given_length`. -/
def decodeUintWithGivenLength (valLen : ℕ) : Decoder ℕ := fun buf dataLen pos =>
  if (dataLen : ℤ) - pos < valLen then none else decodeBytesLoop buf dataLen 0 valLen pos 0

/-- `decode_int_safe`. -/
def decodeIntSafe (firstByte : UInt8) : Decoder (ℤ × Bool) := fun buf dataLen pos =>
  if (dataLen : ℤ) - pos < 0 then none
  else
    let isNeg := testBit firstByte obIntSignBitPos
    let isAdd := testBit firstByte obIntOperationBitPos
    let lenOrValue := intLenOrValue firstByte
    if lenOrValue ≤ obMaxInt1B then
      some ((if isNeg then -lenOrValue else lenOrValue, isAdd), pos)
    else
      let len := lenOrValue - obMaxInt1B
      let len := if 5 = len ∨ 7 = len then len + 1 else len
      (decodeUintWithGivenLength len buf dataLen pos).map fun r =>
        let v := int64 r.1
        ((if isNeg then int64 (-v) else v, isAdd), r.2)

/-- `decode_int`. -/
def decodeInt (firstByte : UInt8) : Decoder (ℤ × Bool) := fun buf dataLen pos =>
  if (dataLen : ℤ) - pos ≥ 9 then some (fastDecode buf firstByte pos)
  else decodeIntSafe firstByte buf dataLen pos

/-! ### Strings -/

/-- `OB_MAX_1B_STR_LEN`. -/
def obMax1BStrLen : ℕ := 55

/-- `OB_MAX_2B_STR_LEN` to `OB_MAX_5B_STR_LEN`, by the number of bytes behind the first one. -/
def obMaxStrLen (n : ℕ) : ℕ := 1 <<< (8 * n) - 1

/-- `OB_VARCHAR_TYPE`. -/
def obVarcharType : ℕ := 0x1 <<< 7

/-- `encoded_length_str_len`. -/
def encodedLengthStrLen (len : ℤ) : ℤ :=
  if len < 0 then -1
  else if len ≤ obMax1BStrLen then 1
  else if len ≤ obMaxStrLen 1 then 2
  else if len ≤ obMaxStrLen 2 then 3
  else if len ≤ obMaxStrLen 3 then 4
  else if len ≤ obMaxStrLen 4 then 5
  else -1

/-- `encoded_length_str`. -/
def encodedLengthStr (len : ℤ) : ℤ := encodedLengthStrLen len + len

/-- `encode_str` of the bytes `vbuf`. -/
def encodeStr (vbuf : List UInt8) : Encoder ObError := fun bufLen s =>
  let len := vbuf.length
  let lenSize := encodedLengthStrLen len
  if lenSize < 0 ∨ (bufLen : ℤ) - s.pos < lenSize + len then (.error .sizeOverflow, s)
  else
    let firstByte :=
      if 1 = lenSize then obVarcharType ||| (len &&& 0xff)
      else obVarcharType ||| (lenSize - 1 + obMax1BStrLen).toNat
    match encodeI8 (UInt8.ofNat firstByte) bufLen s with
    | (.ok (), s') =>
      match encodeBytesLoop len 0 (lenSize - 1).toNat bufLen s' with
      | (.ok (), s'') => (.ok (), s''.puts vbuf)
      | r => r
    | (.error _, s') => (.error .sizeOverflow, s')

/-- `len_or_value` of a string. -/
def strLenOrValue (firstByte : UInt8) : ℕ := firstByte.toNat &&& 0x3f

/-- `decode_str`: the address of the string and `lenp`. -/
def decodeStr (firstByte : UInt8) : Decoder (ℕ × ℤ) := fun buf dataLen pos =>
  let lenOrValue := strLenOrValue firstByte
  let strLen :=
    if lenOrValue ≤ obMax1BStrLen then some (lenOrValue, pos)
    else decodeBytesLoop buf dataLen 0 (lenOrValue - obMax1BStrLen) pos 0
  match strLen with
  | some (v, pos) =>
    let strLen := int64 v
    if strLen ≥ 0 ∧ (dataLen : ℤ) - pos ≥ strLen then
      some ((pos, int32 strLen), pos + strLen.toNat)
    else none
  | none => none

/-- `encoded_length_vstr`. -/
def encodedLengthVstr (len : ℤ) : ℤ := int64 (encodedLengthVi64 len + len + 1)

/-- `encode_vstr` of the bytes `vbuf`. -/
def encodeVstr (vbuf : List UInt8) : Encoder ObError := fun bufLen s =>
  let len := vbuf.length
  if (bufLen : ℤ) - s.pos ≥ int32 (encodedLengthVstr len) then
    match encodeVi64 len bufLen s with
    | (.ok (), s') => (.ok (), (s'.puts vbuf).put 0)
    | (.error e, s') => (.error e, s'.put 0)
  else (.error .sizeOverflow, s)

/-- `decode_vstr`: the address of the string and `*lenp`. -/
def decodeVstr : Decoder (ℕ × ℤ) := fun buf dataLen pos =>
  match decodeVi64 buf dataLen pos with
  | some (tmpLen, tmpPos) =>
    if tmpLen ≥ 0 ∧ (dataLen : ℤ) - tmpPos ≥ tmpLen then
      some ((tmpPos, tmpLen), tmpPos + (tmpLen + 1).toNat)
    else none
  | none => none

/-- `decode_vstr` with a buffer of `destLen` bytes for a copy of the string: `*lenp`, and what is
copied to `dest`. -/
def decodeVstrTo (destLen : ℕ) : Decoder (ℤ × List UInt8) := fun buf dataLen pos =>
  match decodeVi64 buf dataLen pos with
  | some (tmpLen, tmpPos) =>
    if tmpLen > destLen then none
    else if tmpLen ≥ 0 ∧ (dataLen : ℤ) - tmpPos ≥ tmpLen then
      some ((tmpLen, bytesAt buf tmpPos tmpLen.toNat), tmpPos + (tmpLen + 1).toNat)
    else none
  | none => none

end Andl.Serialization
