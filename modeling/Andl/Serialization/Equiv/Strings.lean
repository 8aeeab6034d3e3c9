import Andl.Serialization.Equiv.Integers

/-!
# The strings of the wire format
-/

namespace Andl.Serialization

open List

variable {buf : Mem} {dataLen pos : ℕ} {vbuf : List UInt8}

/-- What a decoder gives of a string: its length and its bytes. -/
def strContents (buf : Mem) (r : ℕ × ℤ) : ℤ × List UInt8 := (r.2, bytesAt buf r.1 r.2.toNat)

/-! ### Strings with a type byte -/

/-- The number of bytes behind the first one, for the length `n`. -/
def strExtra (n : ℕ) : ℕ :=
  if n ≤ 55 then 0
  else if n < 256 then 1
  else if n < 256 ^ 2 then 2
  else if n < 256 ^ 3 then 3
  else 4

/-- The low bits of the first byte: the length or the number of bytes that follow. -/
def strCode (n : ℕ) : ℕ := if n ≤ 55 then n else 55 + strExtra n

/-- The bytes of a string. -/
def strBytes (vbuf : List UInt8) : List UInt8 :=
  UInt8.ofNat (128 + strCode vbuf.length) :: (leBytes (strExtra vbuf.length) vbuf.length ++ vbuf)

theorem length_strBytes (vbuf : List UInt8) :
    (strBytes vbuf).length = 1 + strExtra vbuf.length + vbuf.length := by
  rw [strBytes, length_cons, length_append, length_leBytes]
  omega

theorem strExtra_le (n : ℕ) : strExtra n ≤ 4 := by
  unfold strExtra
  split_ifs <;> omega

theorem strCode_lt (n : ℕ) : strCode n < 64 := by
  have := strExtra_le n
  unfold strCode
  split_ifs <;> omega

theorem le_obMaxStrLen {n k : ℕ} : (n : ℤ) ≤ obMaxStrLen k ↔ n < 256 ^ k := by
  have hmax : obMaxStrLen k = 256 ^ k - 1 := by
    rw [obMaxStrLen, Nat.shiftLeft_eq, Nat.one_mul, Nat.pow_mul]
  have hpos : 0 < 256 ^ k := Nat.pow_pos (by decide)
  omega

theorem encodedLengthStrLen_eq (n : ℕ) :
    encodedLengthStrLen n = if n < 256 ^ 4 then 1 + (strExtra n : ℤ) else -1 := by
  have h1 : (n : ℤ) ≤ obMax1BStrLen ↔ n ≤ 55 := by rw [show obMax1BStrLen = 55 from rfl]; omega
  unfold encodedLengthStrLen strExtra
  simp only [h1, le_obMaxStrLen]
  split_ifs <;> omega

theorem strBytes_first (n : ℕ) {size : ℤ} (h : size = 1 + strExtra n) :
    (if 1 = size then obVarcharType ||| (n &&& 0xff)
      else obVarcharType ||| (size - 1 + obMax1BStrLen).toNat) = 128 + strCode n := by
  have hall : ∀ c : Fin 64,
      128 ||| (c.val &&& 0xff) = 128 + c.val ∧ 128 ||| c.val = 128 + c.val := by decide +kernel
  rw [show obVarcharType = 128 from rfl, show obMax1BStrLen = 55 from rfl]
  have hle := strExtra_le n
  by_cases hn : n ≤ 55
  · have hextra : strExtra n = 0 := if_pos hn
    rw [if_pos (by omega), (hall ⟨n, by omega⟩).1, strCode, if_pos hn]
  · have hextra : 0 < strExtra n := by
      unfold strExtra
      split_ifs <;> omega
    rw [if_neg (by omega), show (size - 1 + (55 : ℕ)).toNat = 55 + strExtra n by omega,
      (hall ⟨55 + strExtra n, by omega⟩).2, strCode, if_neg hn]

theorem encodeStr_eq (h : vbuf.length < 256 ^ 4) (bufLen : ℕ) (s : Sink) :
    encodeStr vbuf bufLen s = putsIfRoom .sizeOverflow (strBytes vbuf) bufLen s := by
  have hsize := encodedLengthStrLen_eq vbuf.length
  rw [if_pos h] at hsize
  unfold encodeStr putsIfRoom
  rw [length_strBytes]
  dsimp only
  rw [hsize, strBytes_first vbuf.length rfl]
  by_cases hroom : s.pos + (1 + strExtra vbuf.length + vbuf.length) ≤ bufLen
  · rw [if_neg (by omega), if_pos hroom, encodeI8_of_room (by omega)]
    dsimp only
    rw [encodeBytesLoop_of_room (by rw [Sink.pos_put]; omega),
      show (1 + (strExtra vbuf.length : ℤ) - 1).toNat = strExtra vbuf.length by omega]
    dsimp only
    rw [strBytes, Sink.puts_cons, Sink.puts_append]
    rfl
  · rw [if_pos (by omega), if_neg hroom]

/-- `decode_str`, with the bytes it points to. -/
def decodeStrContents (firstByte : UInt8) : Decoder (ℤ × List UInt8) := fun buf dataLen pos =>
  (decodeStr firstByte buf dataLen pos).map fun r => (strContents buf r.1, r.2)

/-- `decode_str` behind `decode_i8` for the first byte. -/
def decodeStrAt : Decoder (ℤ × List UInt8) := fun buf dataLen pos =>
  (decodeI8 buf dataLen pos).bind fun r => decodeStrContents r.1 buf dataLen r.2

/-- The number of bytes of the length behind a first byte with the code `c`. -/
def strLenBytes (c : ℕ) : ℕ := if c ≤ 55 then 0 else c - 55

/-- The length. -/
def strLen (buf : Mem) (pos c : ℕ) : ℤ :=
  int64 (if c ≤ 55 then c else leValue (bytesAt buf pos (c - 55)) : ℕ)

theorem strLenOrValue_lt (firstByte : UInt8) : strLenOrValue firstByte < 64 := by
  rw [strLenOrValue, Nat.and_two_pow_sub_one_eq_mod _ 6]
  omega

theorem decodeStr_eq (firstByte : UInt8) (hpos : pos ≤ dataLen) {c k : ℕ}
    (hc : strLenOrValue firstByte = c) (hk : strLenBytes c = k) :
    decodeStr firstByte buf dataLen pos =
      if pos + k ≤ dataLen ∧ 0 ≤ strLen buf pos c ∧
          pos + k + (strLen buf pos c).toNat ≤ dataLen then
        some ((pos + k, int32 (strLen buf pos c)), pos + k + (strLen buf pos c).toNat)
      else none := by
  have hlt := strLenOrValue_lt firstByte
  have hfinal (v p : ℕ) :
      (if int64 v ≥ 0 ∧ (dataLen : ℤ) - p ≥ int64 v then
        some ((p, int32 (int64 v)), p + (int64 v).toNat) else none) =
      if 0 ≤ int64 v ∧ p + (int64 v).toNat ≤ dataLen then
        some ((p, int32 (int64 v)), p + (int64 v).toNat) else none := by
    refine if_congr ?_ rfl rfl
    generalize int64 v = x
    omega
  unfold decodeStr strLen
  rw [hc] at hlt ⊢
  dsimp only
  rw [show obMax1BStrLen = 55 from rfl]
  unfold strLenBytes at hk
  by_cases hsmall : c ≤ 55
  · rw [if_pos hsmall] at hk
    subst hk
    simp only [hsmall, if_true, Nat.add_zero, hpos, true_and]
    exact hfinal c pos
  · rw [if_neg hsmall] at hk
    subst hk
    simp only [hsmall, if_false]
    rw [decodeBytesLoop_eq (by omega) (by decide) hpos]
    by_cases hroom : pos + (c - 55) ≤ dataLen
    · rw [if_pos hroom, Nat.pow_zero, Nat.mul_one, Nat.zero_add]
      dsimp only
      simp only [hroom, true_and]
      exact hfinal _ _
    · rw [if_neg hroom]
      simp only [hroom, false_and, if_false]

/-- The bytes of the string are those it consumes, or fewer. -/
theorem toNat_int32_le {x : ℤ} (h : 0 ≤ x) : (int32 x).toNat ≤ x.toNat := by
  unfold int32 wrap
  omega

theorem contained_decodeStrContents (firstByte : UInt8) (h : pos ≤ dataLen) :
    Contained (decodeStrContents firstByte) buf dataLen pos := by
  intro v p hv
  rw [decodeStrContents, decodeStr_eq firstByte h rfl rfl] at hv
  split_ifs at hv with hcond
  · obtain ⟨hk, hlen, hroom⟩ := hcond
    obtain ⟨rfl, rfl⟩ := Prod.mk.inj (Option.some.inj hv)
    refine ⟨by omega, hroom, fun buf' dataLen' hbuf hdata => ?_⟩
    have hsame : strLen buf' pos (strLenOrValue firstByte) =
        strLen buf pos (strLenOrValue firstByte) := by
      unfold strLen
      split_ifs with hsmall
      · rfl
      · rw [bytesAt_congr fun i _ hi => hbuf i ?_]
        rw [strLenBytes, if_neg hsmall]
        omega
    rw [decodeStrContents, decodeStr_eq firstByte (by omega) rfl rfl, hsame,
      if_pos ⟨by omega, hlen, hdata⟩, Option.map_some]
    have hle := toNat_int32_le hlen
    unfold strContents
    rw [bytesAt_congr fun i _ hi => hbuf i (by dsimp only at hi; omega)]
  · cases hv

theorem contained_decodeStrAt (buf : Mem) (h : pos ≤ dataLen) :
    Contained decodeStrAt buf dataLen pos := by
  refine (contained_decodeI8 buf h).bind fun b p hb => ?_
  have hp := ((contained_decodeI8 buf h) b p hb).2.1
  exact contained_decodeStrContents b hp

theorem strFirstByte_read {c : ℕ} (hc : c < 64) : strLenOrValue (UInt8.ofNat (128 + c)) = c := by
  have hall : ∀ c : Fin 64, strLenOrValue (UInt8.ofNat (128 + c.val)) = c.val := by decide +kernel
  exact hall ⟨c, hc⟩

theorem strLenBytes_strCode (n : ℕ) : strLenBytes (strCode n) = strExtra n := by
  unfold strLenBytes strCode strExtra
  split_ifs <;> omega

/-- The length is read back. -/
theorem strLen_strCode {n : ℕ} (h : n < 256 ^ 4)
    (hread : bytesAt buf pos (strExtra n) = leBytes (strExtra n) n) :
    strLen buf pos (strCode n) = n := by
  have hsmall : strCode n ≤ 55 ↔ n ≤ 55 := by
    unfold strCode strExtra
    split_ifs <;> omega
  have hvalue : (if strCode n ≤ 55 then strCode n
      else leValue (bytesAt buf pos (strCode n - 55))) = n := by
    by_cases hn : n ≤ 55
    · rw [if_pos (hsmall.mpr hn), strCode, if_pos hn]
    · have hcode : strCode n - 55 = strExtra n := by
        rw [strCode, if_neg hn]
        omega
      have hlt : n < 256 ^ strExtra n := by
        unfold strExtra
        split_ifs <;> omega
      rw [if_neg (mt hsmall.mp hn), hcode, hread, leValue_leBytes hlt]
  unfold strLen
  rw [hvalue]
  unfold int64 wrap
  omega

theorem readsFrom_decodeStrAt (h : vbuf.length < 256 ^ 4) :
    ReadsFrom decodeStrAt (strBytes vbuf)
      (int32 vbuf.length, vbuf.take (int32 vbuf.length).toNat) := by
  intro buf dataLen pos hread hlen
  rw [length_strBytes] at hlen ⊢
  obtain ⟨hfirst, hrest⟩ := bytesAt_cons.mp hread
  obtain ⟨hext, hbody⟩ := bytesAt_append.mp hrest
  rw [length_leBytes] at hext hbody
  have hn := strLen_strCode h hext
  rw [decodeStrAt, decodeI8_eq, if_pos (by omega), Option.bind_some]
  dsimp only
  rw [decodeStrContents, decodeStr_eq (buf pos) (by omega)
    (by rw [hfirst]; exact strFirstByte_read (strCode_lt _)) (strLenBytes_strCode _), hn,
    if_pos ⟨by omega, by omega, by omega⟩, Option.map_some]
  have htake : bytesAt buf (pos + 1 + strExtra vbuf.length) (int32 vbuf.length).toNat =
      vbuf.take (int32 vbuf.length).toNat := by
    have hle := toNat_int32_le (show (0 : ℤ) ≤ vbuf.length by omega)
    rw [Int.toNat_natCast] at hle
    rw [bytesAt_take buf _ hle, hbody]
  unfold strContents
  dsimp only
  rw [htake, Int.toNat_natCast,
    show pos + 1 + strExtra vbuf.length + vbuf.length =
      pos + (1 + strExtra vbuf.length + vbuf.length) by omega]

/-- **A string with a type byte** is read back if and only if its length fits `int32_t`. -/
theorem wellEncoded_str_iff (vbuf : List UInt8) :
    WellEncoded (encodeStr vbuf) (encodedLengthStr vbuf.length) decodeStrAt
      ((vbuf.length : ℤ), vbuf) ↔ vbuf.length < 2 ^ 31 := by
  have hsize := encodedLengthStrLen_eq vbuf.length
  by_cases hlt : vbuf.length < 256 ^ 4
  · rw [if_pos hlt] at hsize
    have hread : WellEncoded (encodeStr vbuf) (encodedLengthStr vbuf.length) decodeStrAt
        (int32 vbuf.length, vbuf.take (int32 vbuf.length).toNat) :=
      wellEncoded_of_puts (fun bufLen s _ => encodeStr_eq hlt bufLen s)
        (by rw [encodedLengthStr, hsize, length_strBytes]; push_cast; ring)
        (readsFrom_decodeStrAt hlt)
    constructor
    · intro h
      have hok : (encodeStr vbuf (strBytes vbuf).length ⟨fun _ => 0, 0⟩).1 = .ok () := by
        rw [encodeStr_eq hlt, putsIfRoom, if_pos (Nat.zero_add _).le]
      have heq := (Prod.mk.inj (h.value_unique hread (Nat.zero_le _) hok)).1
      unfold int32 wrap at heq
      omega
    · intro hlen
      have hint : int32 vbuf.length = vbuf.length := by
        unfold int32 wrap
        omega
      rw [hint, Int.toNat_natCast, take_length] at hread
      exact hread
  · -- the length is announced as if its own size were `-1`
    rw [if_neg hlt] at hsize
    refine iff_of_false (fun h => ?_) (by omega)
    have hok := h.succeeds (vbuf.length - 1) ⟨fun _ => 0, 0⟩ (Nat.zero_le _)
      (by rw [encodedLengthStr, hsize]; dsimp only; omega)
    rw [encodeStr] at hok
    dsimp only at hok
    rw [hsize, if_pos (.inl (by decide))] at hok
    cases hok

/-! ### Strings behind a length of variable size -/

/-- The bytes of a string behind its length. -/
def vstrBytes (vbuf : List UInt8) : List UInt8 := leb128 (uint64 vbuf.length) ++ (vbuf ++ [0])

theorem length_vstrBytes (vbuf : List UInt8) :
    ((vstrBytes vbuf).length : ℤ) = encodedLengthVi64 vbuf.length + vbuf.length + 1 := by
  rw [vstrBytes, length_append, length_append, encodedLengthVi64_eq]
  push_cast
  rw [length_singleton]
  ring

theorem encodedLengthVi64_bounds (v : ℤ) : 1 ≤ encodedLengthVi64 v ∧ encodedLengthVi64 v ≤ 10 := by
  unfold encodedLengthVi64
  dsimp only
  split_ifs <;> decide

/-- The encoding has less than `2 ^ 31` bytes. -/
theorem length_vstrBytes_lt_iff (vbuf : List UInt8) :
    (vstrBytes vbuf).length < 2 ^ 31 ↔ vbuf.length ≤ 2147483641 := by
  have hlen := length_vstrBytes vbuf
  have hbounds := encodedLengthVi64_bounds vbuf.length
  by_cases hmid : 2 ^ 28 ≤ vbuf.length ∧ vbuf.length < 2 ^ 35
  · have hfive : encodedLengthVi64 vbuf.length = 5 := by
      rw [encodedLengthVi64_eq, show uint64 vbuf.length = vbuf.length by unfold uint64; omega,
        length_leb128 (k := 4) (fun _ => by omega) (by omega)]
      rfl
    omega
  · omega

/-- The size is checked as an `int32_t`. -/
theorem encodeVstr_of_room {bufLen : ℕ} {s : Sink}
    (hcheck : (bufLen : ℤ) - s.pos ≥ int32 (encodedLengthVstr vbuf.length))
    (hroom : s.pos + (leb128 (uint64 vbuf.length)).length ≤ bufLen) :
    encodeVstr vbuf bufLen s = (.ok (), s.puts (vstrBytes vbuf)) := by
  unfold encodeVstr
  dsimp only
  rw [if_pos hcheck, encodeVi64_eq, putsIfRoom, if_pos hroom]
  dsimp only
  rw [vstrBytes, Sink.puts_append, Sink.puts_append]
  rfl

theorem int32_encodedLengthVstr (h : (vstrBytes vbuf).length < 2 ^ 31) :
    int32 (encodedLengthVstr vbuf.length) = (vstrBytes vbuf).length := by
  rw [encodedLengthVstr, ← length_vstrBytes]
  unfold int32 int64 wrap
  omega

theorem encodeVstr_eq (h : (vstrBytes vbuf).length < 2 ^ 31) (bufLen : ℕ) (s : Sink) :
    encodeVstr vbuf bufLen s = putsIfRoom .sizeOverflow (vstrBytes vbuf) bufLen s := by
  rw [putsIfRoom]
  have hint := int32_encodedLengthVstr h
  split_ifs with hroom
  · refine encodeVstr_of_room (by omega) ?_
    rw [vstrBytes, length_append] at hroom
    omega
  · unfold encodeVstr
    dsimp only
    rw [if_neg (by omega)]

/-- `decode_vstr`, with the bytes it points to. -/
def decodeVstrAt : Decoder (ℤ × List UInt8) := fun buf dataLen pos =>
  (decodeVstr buf dataLen pos).map fun r => (strContents buf r.1, r.2)

theorem readsFrom_decodeVstrAt (h : vbuf.length < 2 ^ 63) :
    ReadsFrom decodeVstrAt (vstrBytes vbuf) ((vbuf.length : ℤ), vbuf) := by
  intro buf dataLen pos hread hlen
  obtain ⟨hlength, hrest⟩ := bytesAt_append.mp hread
  obtain ⟨hbody, -⟩ := bytesAt_append.mp hrest
  rw [vstrBytes, length_append, length_append, length_singleton] at hlen ⊢
  have hvi := readsFrom_decodeVi64 (v := vbuf.length) ⟨by omega, by omega⟩ buf dataLen pos hlength
    (by omega)
  unfold decodeVstrAt decodeVstr
  rw [hvi]
  dsimp only
  rw [if_pos ⟨by omega, by omega⟩, Option.map_some, strContents]
  dsimp only
  rw [Int.toNat_natCast, hbody, show ((vbuf.length : ℤ) + 1).toNat = vbuf.length + 1 by omega,
    Nat.add_assoc]

/-- **A string behind its length** is written inside of the buffer if and only if the whole encoding
has less than `2 ^ 31` bytes. -/
theorem wellEncoded_vstr_iff (vbuf : List UInt8) :
    WellEncoded (encodeVstr vbuf) (encodedLengthVstr vbuf.length) decodeVstrAt
      ((vbuf.length : ℤ), vbuf) ↔ vbuf.length ≤ 2147483641 := by
  rw [← length_vstrBytes_lt_iff]
  constructor
  · intro h
    by_contra hlong
    -- a buffer that passes the check of the truncated size and has room for the length
    have hvi := encodedLengthVi64_eq vbuf.length
    have hbounds := encodedLengthVi64_bounds vbuf.length
    have hrange : int32 (encodedLengthVstr vbuf.length) < 2 ^ 31 := (wrap_range 31 _).2
    have hwrites := h.writes (max (int32 (encodedLengthVstr vbuf.length)).toNat
      (leb128 (uint64 vbuf.length)).length) ⟨fun _ => 0, 0⟩ (Nat.zero_le _)
    rw [encodeVstr_of_room (by dsimp only; push_cast; omega) (by dsimp only; omega),
      Sink.pos_puts] at hwrites
    have hinside := (hwrites rfl).2.1
    dsimp only at hinside
    omega
  · intro hlen
    have hint := int32_encodedLengthVstr hlen
    refine wellEncoded_of_puts (fun bufLen s _ => encodeVstr_eq hlen bufLen s) ?_
      (readsFrom_decodeVstrAt ?_)
    · rw [encodedLengthVstr, ← length_vstrBytes]
      unfold int64 wrap
      omega
    · have := length_vstrBytes vbuf
      have := encodedLengthVi64_bounds vbuf.length
      omega

/-- The data end with the last byte of the string, where its terminator should be. -/
def Unterminated (buf : Mem) (dataLen pos : ℕ) : Prop :=
  ∃ n : ℕ, n ≤ dataLen ∧ decodeVi64 buf dataLen pos = some ((n : ℤ), dataLen - n)

/-- **What `decode_vstr` reads** is inside of the data if and only if there is a terminator. -/
theorem contained_decodeVstrAt_iff (buf : Mem) (dataLen pos : ℕ) :
    Contained decodeVstrAt buf dataLen pos ↔ ¬ Unterminated buf dataLen pos := by
  constructor
  · rintro hcont ⟨n, hn, hvi⟩
    have hread : decodeVstrAt buf dataLen pos =
        some (strContents buf (dataLen - n, n), dataLen - n + ((n : ℤ) + 1).toNat) := by
      unfold decodeVstrAt decodeVstr
      rw [hvi]
      dsimp only
      rw [if_pos ⟨by omega, by omega⟩, Option.map_some]
    have := (hcont _ _ hread).2.1
    omega
  · intro hterm v p hv
    unfold decodeVstrAt decodeVstr at hv
    rcases hvi : decodeVi64 buf dataLen pos with - | ⟨len, q⟩
    · rw [hvi] at hv
      cases hv
    · rw [hvi] at hv
      dsimp only at hv
      split_ifs at hv with hcond
      · obtain ⟨hlen, hroom⟩ := hcond
        obtain ⟨rfl, rfl⟩ := Prod.mk.inj (Option.some.inj hv)
        obtain ⟨hpos, hq, hsame⟩ := contained_decodeVi64 buf dataLen pos len q hvi
        have hend : q + len.toNat ≠ dataLen := by
          intro hend
          refine hterm ⟨len.toNat, by omega, ?_⟩
          rw [hvi, Int.toNat_of_nonneg hlen, show dataLen - len.toNat = q by omega]
        refine ⟨by dsimp only; omega, by dsimp only; omega, fun buf' dataLen' hbuf hdata => ?_⟩
        dsimp only at hbuf hdata
        unfold decodeVstrAt decodeVstr
        rw [hsame buf' dataLen' (fun i hi => hbuf i (by omega)) (by omega)]
        dsimp only
        rw [if_pos ⟨hlen, by omega⟩, Option.map_some]
        unfold strContents
        rw [bytesAt_congr fun i _ hi => hbuf i (by dsimp only at hi; omega)]
      · cases hv

/-- The `decode_vstr` that copies gives what the other one points to, if it fits. -/
theorem decodeVstrTo_eq (destLen : ℕ) (buf : Mem) (dataLen pos : ℕ) :
    decodeVstrTo destLen buf dataLen pos =
      (decodeVstrAt buf dataLen pos).filter fun r => decide (r.1.1 ≤ (destLen : ℤ)) := by
  unfold decodeVstrTo decodeVstrAt decodeVstr
  rcases decodeVi64 buf dataLen pos with - | ⟨tmpLen, tmpPos⟩
  · rfl
  · dsimp only
    by_cases hlen : tmpLen ≥ 0 ∧ (dataLen : ℤ) - tmpPos ≥ tmpLen
    · by_cases hdest : tmpLen > destLen
      · simp [hlen, hdest, strContents, Option.filter]
      · simp [hlen, hdest, strContents, Option.filter, not_lt.mp hdest]
    · simp [hlen]

/-! ### All primitives -/

/-- **The wire primitives.** Integers are always written and read back as announced, strings if they
are not too long. -/
theorem wirePrimitives_iff (v : ℤ) (isAdd : Bool) (vbuf : List UInt8) (buf : Mem)
    (dataLen pos : ℕ) (hpos : pos ≤ dataLen) :
    (IsInt64 v → WellEncoded (encodeVi64 v) (encodedLengthVi64 v) decodeVi64 v) ∧
    (IsInt32 v → WellEncoded (encodeVi32 v) (encodedLengthVi32 v) decodeVi32 v) ∧
    (IsInt64 v → WellEncoded (encodeInt v isAdd) (encodedLengthInt v) decodeIntAt (v, isAdd)) ∧
    (WellEncoded (encodeStr vbuf) (encodedLengthStr vbuf.length) decodeStrAt
      ((vbuf.length : ℤ), vbuf) ↔ vbuf.length < 2 ^ 31) ∧
    (WellEncoded (encodeVstr vbuf) (encodedLengthVstr vbuf.length) decodeVstrAt
      ((vbuf.length : ℤ), vbuf) ↔ vbuf.length ≤ 2147483641) ∧
    Contained decodeVi64 buf dataLen pos ∧ Contained decodeVi32 buf dataLen pos ∧
    Contained decodeStrAt buf dataLen pos ∧
    (Contained decodeIntAt buf dataLen pos ↔
      ¬ (intLenOrValue (buf pos) = 29 ∧ pos + 7 ≤ dataLen)) ∧
    (Contained decodeVstrAt buf dataLen pos ↔ ¬ Unterminated buf dataLen pos) :=
  ⟨wellEncoded_vi64, wellEncoded_vi32, fun h => wellEncoded_int h isAdd, wellEncoded_str_iff vbuf,
    wellEncoded_vstr_iff vbuf, contained_decodeVi64 buf dataLen pos,
    contained_decodeVi32 buf dataLen pos, contained_decodeStrAt buf hpos,
    contained_decodeIntAt_iff buf hpos, contained_decodeVstrAt_iff buf dataLen pos⟩

theorem wirePrimitives_iff_samples :
    WellEncoded (encodeInt (-2 ^ 63) true) (encodedLengthInt (-2 ^ 63)) decodeIntAt
        (-2 ^ 63, true) ∧
      WellEncoded (encodeVstr [1, 2]) (encodedLengthVstr ([1, 2] : List UInt8).length) decodeVstrAt
        ((([1, 2] : List UInt8).length : ℤ), [1, 2]) ∧
      Contained decodeStrAt (fun _ => 0) 1 0 := by
  obtain ⟨-, -, hint, -, hvstr, -, -, hstr, -⟩ :=
    wirePrimitives_iff (-2 ^ 63) true [1, 2] (fun _ => 0) 1 0 (by decide)
  exact ⟨hint ⟨le_refl _, by decide⟩, hvstr.mpr (by decide), hstr⟩

/-- **Data of one byte**, the length of an empty string. -/
theorem not_contained_decodeVstr :
    ¬ ∀ buf dataLen pos, pos ≤ dataLen → Contained decodeVstrAt buf dataLen pos := by
  intro h
  have hvi : decodeVi64 (fun _ => 0) 1 0 = some (0, 1) := by
    rw [decodeVi64, decodeViLoop]
    simp [shiftLeft, wrap]
  have hread : decodeVstrAt (fun _ => 0) 1 0 = some ((0, []), 2) := by
    unfold decodeVstrAt decodeVstr
    rw [hvi]
    rfl
  have := (h (fun _ => 0) 1 0 (by decide) _ _ hread).2.1
  omega

end Andl.Serialization
