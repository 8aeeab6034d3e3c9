import Andl.Serialization.Primitives

/-!
# The integers of the wire format
-/

namespace Andl.Serialization

/-- The values of `int64_t`. -/
def IsInt64 (v : ℤ) : Prop := -2 ^ 63 ≤ v ∧ v < 2 ^ 63

/-- The values of `int32_t`. -/
def IsInt32 (v : ℤ) : Prop := -2 ^ 31 ≤ v ∧ v < 2 ^ 31

variable {v val : ℤ} {buf mem : Mem} {dataLen pos : ℕ}

theorem uint64_lt (v : ℤ) : uint64 v < 2 ^ 64 := by
  unfold uint64
  omega

theorem uint32_lt (v : ℤ) : uint32 v < 2 ^ 32 := by
  unfold uint32
  omega

theorem int64_uint64 (h : IsInt64 v) : int64 (uint64 v) = v := by
  obtain ⟨hlo, hhi⟩ := h
  unfold uint64 int64 wrap
  omega

theorem int32_uint32 (h : IsInt32 v) : int32 (uint32 v) = v := by
  obtain ⟨hlo, hhi⟩ := h
  unfold uint32 int32 wrap
  omega

variable {w u k acc n c bufLen : ℕ} {s : Sink}

theorem shiftLeft_eq {x shift : ℕ} (hshift : shift < w) (h : x * 2 ^ shift < 2 ^ w) :
    shiftLeft w x shift = x * 2 ^ shift := by
  rw [shiftLeft, Nat.mod_eq_of_lt hshift, Nat.shiftLeft_eq, Nat.mod_eq_of_lt h]

/-! ### Integers of variable length -/

theorem encodeViLoop_eq (v : ℕ) (s : Sink) : encodeViLoop v s = s.puts (leb128 v) := by
  induction v using Nat.strong_induction_on generalizing s with
  | _ v ih =>
    rw [encodeViLoop, show obMaxVB 1 = 127 from rfl]
    by_cases h : v > 127
    · rw [if_pos h, Nat.shiftRight_eq_div_pow, ih _ (by omega), leb128_of_gt h]
      rfl
    · rw [if_neg h, leb128_of_le (by omega)]
      rfl

theorem obMaxVB_eq (k : ℕ) : obMaxVB k = 128 ^ k - 1 := by
  rw [obMaxVB, Nat.shiftLeft_eq, Nat.one_mul, Nat.pow_mul]

/-- The class of a number is the number of its groups. -/
theorem length_leb128_eq (hlow : 0 < k → ¬ u ≤ obMaxVB k) (hhigh : u ≤ obMaxVB (k + 1)) :
    (k + 1 : ℤ) = (leb128 u).length := by
  rw [obMaxVB_eq] at hlow hhigh
  have hpos : 0 < 128 ^ (k + 1) := Nat.pow_pos (by decide)
  rw [length_leb128 (fun hk => by have := hlow hk; omega) (by omega)]
  rfl

theorem encodedLengthVi64_eq (v : ℤ) : encodedLengthVi64 v = (leb128 (uint64 v)).length := by
  have hlt := uint64_lt v
  unfold encodedLengthVi64
  generalize uint64 v = u at hlt
  dsimp only
  split_ifs
  · exact length_leb128_eq (k := 0) (fun h => absurd h (by decide)) ‹_›
  · exact length_leb128_eq (k := 1) (fun _ => ‹_›) ‹_›
  · exact length_leb128_eq (k := 2) (fun _ => ‹_›) ‹_›
  · exact length_leb128_eq (k := 3) (fun _ => ‹_›) ‹_›
  · exact length_leb128_eq (k := 4) (fun _ => ‹_›) ‹_›
  · exact length_leb128_eq (k := 5) (fun _ => ‹_›) ‹_›
  · exact length_leb128_eq (k := 6) (fun _ => ‹_›) ‹_›
  · exact length_leb128_eq (k := 7) (fun _ => ‹_›) ‹_›
  · exact length_leb128_eq (k := 8) (fun _ => ‹_›) ‹_›
  · exact length_leb128_eq (k := 9) (fun _ => ‹_›) (by rw [obMaxVB_eq]; omega)

theorem encodedLengthVi32_eq (v : ℤ) : encodedLengthVi32 v = (leb128 (uint32 v)).length := by
  have hlt := uint32_lt v
  unfold encodedLengthVi32
  generalize uint32 v = u at hlt
  dsimp only
  split_ifs
  · exact length_leb128_eq (k := 0) (fun h => absurd h (by decide)) ‹_›
  · exact length_leb128_eq (k := 1) (fun _ => ‹_›) ‹_›
  · exact length_leb128_eq (k := 2) (fun _ => ‹_›) ‹_›
  · exact length_leb128_eq (k := 3) (fun _ => ‹_›) ‹_›
  · exact length_leb128_eq (k := 4) (fun _ => ‹_›) (by rw [obMaxVB_eq]; omega)

theorem encodeVi64_eq (v : ℤ) (bufLen : ℕ) (s : Sink) :
    encodeVi64 v bufLen s = putsIfRoom .sizeOverflow (leb128 (uint64 v)) bufLen s := by
  have hiff : (bufLen : ℤ) - s.pos ≥ (leb128 (uint64 v)).length ↔
      s.pos + (leb128 (uint64 v)).length ≤ bufLen := by omega
  simp only [encodeVi64, putsIfRoom, encodedLengthVi64_eq, encodeViLoop_eq, hiff]

theorem encodeVi32_eq (v : ℤ) (bufLen : ℕ) (s : Sink) :
    encodeVi32 v bufLen s = putsIfRoom .sizeOverflow (leb128 (uint32 v)) bufLen s := by
  have hiff : (bufLen : ℤ) - s.pos ≥ (leb128 (uint32 v)).length ↔
      s.pos + (leb128 (uint32 v)).length ≤ bufLen := by omega
  simp only [encodeVi32, putsIfRoom, encodedLengthVi32_eq, encodeViLoop_eq, hiff]

theorem decodeViLoop_marked {v : ℕ} (hk : 7 * k < w) (hacc : acc < 2 ^ (7 * k))
    (hv : v * 2 ^ (7 * k) < 2 ^ w) (hbyte : buf pos = UInt8.ofNat (v ||| 0x80))
    (hpos : pos < dataLen) :
    decodeViLoop w buf dataLen pos acc (7 * k) =
        decodeViLoop w buf dataLen (pos + 1) (acc + v % 128 * 2 ^ (7 * k)) (7 * (k + 1)) ∧
      acc + v % 128 * 2 ^ (7 * k) < 2 ^ (7 * (k + 1)) ∧
      v * 2 ^ (7 * k) = v / 128 * 2 ^ (7 * (k + 1)) + v % 128 * 2 ^ (7 * k) := by
  have hpow : 2 ^ (7 * (k + 1)) = 128 * 2 ^ (7 * k) := by
    rw [Nat.mul_succ, Nat.pow_add, Nat.mul_comm]
  have hsplit : v * 2 ^ (7 * k) = v / 128 * 2 ^ (7 * (k + 1)) + v % 128 * 2 ^ (7 * k) := by
    rw [hpow]
    conv_lhs => rw [← Nat.div_add_mod v 128]
    ring
  have hor : acc ||| shiftLeft w (v % 128) (7 * k) = acc + v % 128 * 2 ^ (7 * k) := by
    rw [shiftLeft_eq hk (by omega), lor_mul_two_pow hacc]
  obtain ⟨hmark, hbits⟩ := marked_byte v
  refine ⟨?_, ?_, hsplit⟩
  · rw [decodeViLoop, hbyte, if_pos hmark, if_neg (by omega), hbits, hor, ← Nat.mul_succ]
  · have : v % 128 * 2 ^ (7 * k) ≤ 127 * 2 ^ (7 * k) := Nat.mul_le_mul_right _ (by omega)
    omega

/-- The end of the loop, at a byte without a mark. -/
theorem decodeViLoop_last {v : ℕ} (h : v ≤ 127) (hk : 7 * k < w) (hacc : acc < 2 ^ (7 * k))
    (hv : v * 2 ^ (7 * k) < 2 ^ w) (hbyte : buf pos = UInt8.ofNat (v &&& 0x7f))
    (hpos : pos < dataLen) :
    decodeViLoop w buf dataLen pos acc (7 * k) = some (acc + v * 2 ^ (7 * k), pos + 1) := by
  obtain ⟨hmark, hbits⟩ := unmarked_byte h
  rw [decodeViLoop, hbyte, if_neg (by rw [hmark]; exact fun h => h rfl), if_neg (by omega), hbits,
    shiftLeft_eq hk hv, lor_mul_two_pow hacc]

/-- The groups of a number are or-ed in above those already read. -/
theorem decodeViLoop_leb128 {v : ℕ} (hk : 7 * k < w) (hacc : acc < 2 ^ (7 * k))
    (hv : v * 2 ^ (7 * k) < 2 ^ w) (hread : bytesAt buf pos (leb128 v).length = leb128 v)
    (hlen : pos + (leb128 v).length ≤ dataLen) :
    decodeViLoop w buf dataLen pos acc (7 * k) =
      some (acc + v * 2 ^ (7 * k), pos + (leb128 v).length) := by
  induction v using Nat.strong_induction_on generalizing pos k acc with
  | _ v ih =>
    by_cases h : 127 < v
    · rw [leb128_of_gt h, bytesAt_cons] at hread
      obtain ⟨hbyte, hread⟩ := hread
      rw [leb128_of_gt h, List.length_cons] at hlen ⊢
      have hpos : pos < dataLen := by omega
      obtain ⟨hstep, hacc', hsum⟩ := decodeViLoop_marked hk hacc hv hbyte hpos
      have hk' : 7 * (k + 1) < w := by
        apply (Nat.pow_lt_pow_iff_right (a := 2) (by decide)).mp
        have : 1 * 2 ^ (7 * (k + 1)) ≤ v / 128 * 2 ^ (7 * (k + 1)) :=
          Nat.mul_le_mul_right _ (by omega)
        omega
      rw [hstep, ih (v / 128) (by omega) hk' hacc' (by omega) hread (by omega), hsum]
      congr 2 <;> omega
    · rw [leb128_of_le (by omega)] at hread hlen ⊢
      obtain ⟨hbyte, -⟩ := bytesAt_cons.mp hread
      exact decodeViLoop_last (by omega) hk hacc hv hbyte hlen

/-- The whole loop on the groups of a number that fits. -/
theorem decodeViLoop_zero {v : ℕ} (hw : 0 < w) (hv : v < 2 ^ w)
    (hread : bytesAt buf pos (leb128 v).length = leb128 v)
    (hlen : pos + (leb128 v).length ≤ dataLen) :
    decodeViLoop w buf dataLen pos 0 0 = some (v, pos + (leb128 v).length) := by
  have hloop : decodeViLoop w buf dataLen pos 0 (7 * 0) = _ :=
    decodeViLoop_leb128 hw (by decide) (by omega) hread hlen
  rw [Nat.mul_zero, Nat.pow_zero, Nat.mul_one, Nat.zero_add] at hloop
  exact hloop

theorem readsFrom_decodeVi64 (h : IsInt64 v) : ReadsFrom decodeVi64 (leb128 (uint64 v)) v := by
  intro buf dataLen pos hread hlen
  rw [decodeVi64, decodeViLoop_zero (by decide) (uint64_lt v) hread hlen, Option.map_some,
    int64_uint64 h]

theorem readsFrom_decodeVi32 (h : IsInt32 v) : ReadsFrom decodeVi32 (leb128 (uint32 v)) v := by
  intro buf dataLen pos hread hlen
  rw [decodeVi32, decodeViLoop_zero (by decide) (uint32_lt v) hread hlen, Option.map_some,
    int32_uint32 h]

theorem wellEncoded_vi64 (h : IsInt64 v) :
    WellEncoded (encodeVi64 v) (encodedLengthVi64 v) decodeVi64 v :=
  wellEncoded_of_puts (fun bufLen s _ => encodeVi64_eq v bufLen s) (encodedLengthVi64_eq v)
    (readsFrom_decodeVi64 h)

theorem wellEncoded_vi32 (h : IsInt32 v) :
    WellEncoded (encodeVi32 v) (encodedLengthVi32 v) decodeVi32 v :=
  wellEncoded_of_puts (fun bufLen s _ => encodeVi32_eq v bufLen s) (encodedLengthVi32_eq v)
    (readsFrom_decodeVi32 h)

/-- A byte behind the data may be read, but then the call fails. -/
theorem contained_decodeViLoop (w : ℕ) (buf : Mem) (dataLen pos v shift : ℕ) :
    Contained (fun buf dataLen pos => decodeViLoop w buf dataLen pos v shift) buf dataLen pos := by
  induction hn : dataLen - pos using Nat.strong_induction_on generalizing pos v shift with
  | _ n ih =>
    intro value p heq
    change decodeViLoop w buf dataLen pos v shift = _ at heq
    rw [decodeViLoop] at heq
    split_ifs at heq with hmark hend hend
    · obtain ⟨hpos, hp, hsame⟩ :=
        ih (dataLen - (pos + 1)) (by omega) (pos + 1) _ _ rfl value p heq
      refine ⟨by omega, hp, fun buf' dataLen' hbuf hlen => ?_⟩
      show decodeViLoop w buf' dataLen' pos v shift = _
      rw [decodeViLoop, hbuf pos (by omega), if_pos hmark, if_neg (by omega)]
      exact hsame buf' dataLen' hbuf hlen
    · obtain ⟨rfl, rfl⟩ := Prod.mk.inj (Option.some.inj heq)
      refine ⟨by omega, by omega, fun buf' dataLen' hbuf hlen => ?_⟩
      show decodeViLoop w buf' dataLen' pos v shift = _
      rw [decodeViLoop, hbuf pos (by omega), if_neg hmark, if_neg (by omega)]

theorem contained_decodeVi64 (buf : Mem) (dataLen pos : ℕ) : Contained decodeVi64 buf dataLen pos :=
  (contained_decodeViLoop 64 buf dataLen pos 0 0).map fun v : ℕ => int64 v

theorem contained_decodeVi32 (buf : Mem) (dataLen pos : ℕ) : Contained decodeVi32 buf dataLen pos :=
  (contained_decodeViLoop 32 buf dataLen pos 0 0).map fun v : ℕ => int32 v

/-! ### What is written for an integer with a type byte -/

theorem safeInt64Abs_eq (h : IsInt64 val) : safeInt64Abs val = val.natAbs := by
  obtain ⟨hlo, hhi⟩ := h
  show uint64 (int64 (Int.xor val (val >>> (63 : ℕ)) - val >>> (63 : ℕ))) = _
  rw [Int.shiftRight_eq_div_pow]
  cases val with
  | ofNat m =>
    rw [Int.ofNat_eq_natCast] at hlo hhi ⊢
    have hdiv : (m : ℤ) / ((2 ^ 63 : ℕ) : ℤ) = 0 := by omega
    have hxor : Int.xor m 0 = m := congrArg Int.ofNat (Nat.xor_zero m)
    rw [hdiv, hxor]
    unfold uint64 int64 wrap
    omega
  | negSucc m =>
    have hdiv : Int.negSucc m / ((2 ^ 63 : ℕ) : ℤ) = -1 := by omega
    have hxor : Int.xor (Int.negSucc m) (-1) = m := congrArg Int.ofNat (Nat.xor_zero m)
    rw [hdiv, hxor]
    unfold uint64 int64 wrap
    omega

theorem le_obMaxInt1B : u ≤ obMaxInt1B ↔ u ≤ 23 := Iff.rfl

theorem le_obMaxIntB : u ≤ obMaxIntB n ↔ u < 256 ^ n := by
  have hmax : obMaxIntB n = 256 ^ n - 1 := by
    rw [obMaxIntB, Nat.shiftLeft_eq, Nat.one_mul, Nat.pow_mul]
  have hpos : 0 < 256 ^ n := Nat.pow_pos (by decide)
  omega

/-- The number of bytes behind the first one, for the absolute value `u`. -/
def intExtra (u : ℕ) : ℕ :=
  if u ≤ obMaxInt1B then 0
  else if u ≤ obMaxIntB 1 then 1
  else if u ≤ obMaxIntB 2 then 2
  else if u ≤ obMaxIntB 3 then 3
  else if u ≤ obMaxIntB 4 then 4
  else if u ≤ obMaxIntB 6 then 6
  else 8

/-- The low bits of the first byte: the value or a code for the number of bytes. -/
def intCode (u : ℕ) : ℕ :=
  if u ≤ obMaxInt1B then u
  else if intExtra u = 6 then 28
  else if intExtra u = 8 then 30
  else 23 + intExtra u

/-- The flags of the first byte. -/
def intFlags (val : ℤ) (isAdd : Bool) : ℕ :=
  (if val < 0 then 32 else 0) + if isAdd then 64 else 0

/-- The bytes of an integer. -/
def intBytes (val : ℤ) (isAdd : Bool) : List UInt8 :=
  UInt8.ofNat (intFlags val isAdd + intCode val.natAbs) ::
    leBytes (intExtra val.natAbs) val.natAbs

theorem intExtra_cases (u : ℕ) :
    u ≤ 23 ∧ intExtra u = 0 ∨ 23 < u ∧ u < 256 ∧ intExtra u = 1 ∨
      256 ≤ u ∧ u < 256 ^ 2 ∧ intExtra u = 2 ∨ 256 ^ 2 ≤ u ∧ u < 256 ^ 3 ∧ intExtra u = 3 ∨
      256 ^ 3 ≤ u ∧ u < 256 ^ 4 ∧ intExtra u = 4 ∨ 256 ^ 4 ≤ u ∧ u < 256 ^ 6 ∧ intExtra u = 6 ∨
      256 ^ 6 ≤ u ∧ intExtra u = 8 := by
  unfold intExtra
  simp only [le_obMaxInt1B, le_obMaxIntB]
  split_ifs <;> omega

theorem lt_pow_intExtra (h : u < 2 ^ 64) (hu : 23 < u) : u < 256 ^ intExtra u := by
  rcases intExtra_cases u with ⟨hle, hn⟩ | ⟨-, hlt, hn⟩ | ⟨-, hlt, hn⟩ | ⟨-, hlt, hn⟩ |
    ⟨-, hlt, hn⟩ | ⟨-, hlt, hn⟩ | ⟨-, hn⟩ <;> rw [hn] <;> omega

/-- On the fast path only the remainder of the value counts. -/
theorem fastEncodeLoop_eq {x : ℤ} (h : (256 ^ n : ℤ) ∣ x - u) (s : Sink) :
    fastEncodeLoop n x s = s.puts (leBytes n u) := by
  induction n generalizing x u s with
  | zero => rfl
  | succ n ih =>
    rw [Int.pow_succ] at h
    obtain ⟨k, hk⟩ := h
    have hmod : x % 256 = u % 256 := by
      have : x = u + 256 * (256 ^ n * k) := by rw [← mul_assoc, mul_comm 256, ← hk]; ring
      omega
    have hbyte : UInt8.ofNat (x % 256).toNat = UInt8.ofNat u := by
      apply UInt8.toNat_inj.mp
      rw [UInt8.toNat_ofNat', UInt8.toNat_ofNat']
      omega
    rw [fastEncodeLoop, leBytes, Sink.puts_cons, hbyte]
    apply ih
    refine ⟨k, ?_⟩
    rw [Int.shiftRight_eq_div_pow]
    have : x - u = 256 * (256 ^ n * k) := by rw [hk]; ring
    generalize (256 : ℤ) ^ n * k = q at this ⊢
    omega

/-- The flags and the code of the first byte do not overlap. -/
theorem first_byte_eq (val : ℤ) (isAdd : Bool) (hc : c < 32) :
    (if isAdd then setBit (if val < 0 then setBit 0 obIntSignBitPos else 0) obIntOperationBitPos
      else if val < 0 then setBit 0 obIntSignBitPos else 0) ||| c = intFlags val isAdd + c := by
  have hall : ∀ c : Fin 32, (0 ||| c.val = 0 + c.val) ∧ (32 ||| c.val = 32 + c.val) ∧
      (64 ||| c.val = 64 + c.val) ∧ (96 ||| c.val = 96 + c.val) := by decide
  obtain ⟨h0, h1, h2, h3⟩ := hall ⟨c, hc⟩
  unfold intFlags
  cases isAdd <;> by_cases hval : val < 0 <;> simp only [hval, if_true, if_false] <;> assumption

theorem fastEncode_abs (h : IsInt64 val) :
    uint64 (if val < 0 then int64 (-val) else val) = val.natAbs ∧
      ((if val < 0 then int64 (-val) else val) = val.natAbs ∨
        (if val < 0 then int64 (-val) else val) = val.natAbs - 2 ^ 64 ∧ val.natAbs = 2 ^ 63) := by
  obtain ⟨hlo, hhi⟩ := h
  unfold uint64 int64 wrap
  split_ifs <;> omega

theorem fastEncode_eq (h : IsInt64 val) (isAdd : Bool) (s : Sink) :
    fastEncode val isAdd s = s.puts (intBytes val isAdd) := by
  obtain ⟨huint, hx⟩ := fastEncode_abs h
  unfold fastEncode
  dsimp only
  rw [huint]
  generalize (if val < 0 then int64 (-val) else val) = x at hx
  have hflags := fun c (hc : c < 32) => first_byte_eq val isAdd hc
  generalize (if isAdd then setBit (if val < 0 then setBit 0 obIntSignBitPos else 0)
    obIntOperationBitPos else if val < 0 then setBit 0 obIntSignBitPos else 0) = flags at hflags
  have hfull (n : ℕ) (hn : val.natAbs < 2 ^ 63 ∨ n = 8) (b : UInt8) :
      fastEncodeLoop n x (s.put b) = s.puts (b :: leBytes n val.natAbs) := by
    apply fastEncodeLoop_eq
    rcases hx with hx | ⟨hx, habs⟩
    · rw [hx, sub_self]
      exact dvd_zero _
    · obtain rfl := hn.resolve_left (by omega)
      exact ⟨-1, by rw [hx]; norm_num⟩
  rw [hflags obMaxInt1B (by decide)]
  unfold intBytes intCode
  rcases intExtra_cases val.natAbs with ⟨hle, hn⟩ | ⟨hlo, hhi, hn⟩ | ⟨hlo, hhi, hn⟩ |
    ⟨hlo, hhi, hn⟩ | ⟨hlo, hhi, hn⟩ | ⟨hlo, hhi, hn⟩ | ⟨hlo, hn⟩ <;>
    simp only [hn, le_obMaxInt1B, le_obMaxIntB]
  · have hx' : x.toNat = val.natAbs := by omega
    rw [if_pos hle, if_pos hle, hx', hflags _ (by omega)]
    rfl
  · rw [if_neg (by omega), if_pos (by omega), if_pos (by omega), hfull 1 (by omega),
      if_neg (by omega), if_neg (by decide), if_neg (by decide)]
    rfl
  · rw [if_neg (by omega), if_pos (by omega), if_neg (by omega), if_pos (by omega),
      hfull 2 (by omega), if_neg (by omega), if_neg (by decide), if_neg (by decide)]
    rfl
  · rw [if_neg (by omega), if_pos (by omega), if_neg (by omega), if_neg (by omega),
      hfull 3 (by omega), if_neg (by omega), if_neg (by decide), if_neg (by decide)]
    rfl
  · rw [if_neg (by omega), if_neg (by omega), if_pos (by omega), hfull 4 (by omega),
      if_neg (by omega), if_neg (by decide), if_neg (by decide)]
    rfl
  · rw [if_neg (by omega), if_neg (by omega), if_neg (by omega), if_pos (by omega),
      hfull 6 (by omega), if_neg (by omega), if_pos trivial]
    rfl
  · rw [if_neg (by omega), if_neg (by omega), if_neg (by omega), if_neg (by omega),
      hfull 8 (.inr rfl), if_neg (by omega), if_neg (by decide), if_pos trivial]
    rfl

theorem encodeI8_of_room {b : UInt8} (h : s.pos < bufLen) :
    encodeI8 b bufLen s = (.ok (), s.put b) := by
  rw [encodeI8, if_pos (by omega)]

theorem encodeBytesLoop_of_room {v : ℕ} (h : s.pos + k ≤ bufLen) :
    encodeBytesLoop v n k bufLen s = (.ok (), s.puts (leBytes k (v >>> (8 * n)))) := by
  induction k generalizing n s with
  | zero => rfl
  | succ k ih =>
    have hshift : v >>> (8 * n) / 256 = v >>> (8 * (n + 1)) := by
      rw [Nat.mul_succ, Nat.shiftRight_add, Nat.shiftRight_eq_div_pow (v >>> (8 * n))]
    rw [encodeBytesLoop]
    dsimp only
    rw [encodeI8_of_room (by omega)]
    show encodeBytesLoop v (n + 1) k bufLen _ = _
    rw [ih (by rw [Sink.pos_put]; omega), leBytes, Sink.puts_cons, hshift]

theorem encodeUintWithGivenLength_of_room {v : ℕ} (hk : 0 < k) (h : s.pos + k ≤ bufLen) :
    encodeUintWithGivenLength v k bufLen s = (.ok (), s.puts (leBytes k v)) := by
  rw [encodeUintWithGivenLength, if_neg (by omega), encodeBytesLoop_of_room h]
  rfl

theorem encodedLengthInt_eq (h : IsInt64 val) : encodedLengthInt val = intExtra val.natAbs + 1 := by
  unfold encodedLengthInt intExtra
  rw [safeInt64Abs_eq h]
  dsimp only
  split_ifs <;> rfl

theorem length_intBytes (val : ℤ) (isAdd : Bool) :
    (intBytes val isAdd).length = intExtra val.natAbs + 1 := by
  rw [intBytes, List.length_cons, length_leBytes]

/-- The code, as the safe path computes it from the length. -/
theorem intCode_eq (u : ℕ) :
    (if u ≤ obMaxInt1B then u else
      (if 7 = intExtra u + 1 ∨ 9 = intExtra u + 1 then intExtra u + 1 - 1 else intExtra u + 1) - 1 +
        obMaxInt1B) = intCode u ∧ intCode u < 32 := by
  unfold intCode
  rw [show obMaxInt1B = 23 from rfl]
  rcases intExtra_cases u with ⟨hle, hn⟩ | ⟨hlo, hhi, hn⟩ | ⟨hlo, hhi, hn⟩ | ⟨hlo, hhi, hn⟩ |
    ⟨hlo, hhi, hn⟩ | ⟨hlo, hhi, hn⟩ | ⟨hlo, hn⟩ <;> rw [hn] <;> split_ifs <;> omega

theorem encodeIntSafe_eq (h : IsInt64 val) (isAdd : Bool) (bufLen : ℕ) (s : Sink) :
    encodeIntSafe val isAdd bufLen s =
      putsIfRoom .sizeOverflow (intBytes val isAdd) bufLen s := by
  unfold encodeIntSafe putsIfRoom
  rw [encodedLengthInt_eq h, safeInt64Abs_eq h, length_intBytes]
  by_cases hroom : s.pos + (intExtra val.natAbs + 1) ≤ bufLen
  · rw [if_pos hroom, if_neg (by push_cast; omega)]
    dsimp only
    rw [← apply_ite, (intCode_eq val.natAbs).1, first_byte_eq val isAdd (intCode_eq val.natAbs).2,
      encodeI8_of_room (by omega)]
    dsimp only
    by_cases hextra : intExtra val.natAbs = 0
    · rw [if_neg (by omega), intBytes, hextra]
      rfl
    · rw [if_pos (by omega), Nat.add_sub_cancel,
        encodeUintWithGivenLength_of_room (by omega) (by rw [Sink.pos_put]; omega)]
      rfl
  · rw [if_pos (by push_cast; omega), if_neg hroom]

theorem encodeInt_eq (h : IsInt64 val) (isAdd : Bool) (bufLen : ℕ) (s : Sink) :
    encodeInt val isAdd bufLen s = putsIfRoom .sizeOverflow (intBytes val isAdd) bufLen s := by
  unfold encodeInt
  split_ifs with hfast
  · have hlen := length_intBytes val isAdd
    have : intExtra val.natAbs ≤ 8 := by
      rcases intExtra_cases val.natAbs with h | h | h | h | h | h | h <;> omega
    rw [putsIfRoom, if_pos (by omega), fastEncode_eq h]
  · exact encodeIntSafe_eq h isAdd bufLen s

/-! ### What is read for an integer with a type byte -/

/-- On the fast path the bytes are read from the last one on. -/
theorem fastDecodeLoop_eq {h : ℕ} (hlt : (h + 1) * 256 ^ (n + 1) ≤ 2 ^ 64) :
    fastDecodeLoop buf (n + 1) (pos + (n + 1)) (256 * h) =
      h * 256 ^ (n + 1) + leValue (bytesAt buf pos (n + 1)) := by
  induction n generalizing h with
  | zero =>
    have hb := (buf pos).toNat_lt
    rw [fastDecodeLoop, Nat.add_sub_cancel, ← Nat.two_pow_add_eq_or_of_lt (i := 8) hb, bytesAt,
      leValue]
    simp only [bytesAt, leValue]
    omega
  | succ n ih =>
    have hb := (buf (pos + (n + 1))).toNat_lt
    have hor : 256 * h ||| (buf (pos + (n + 1))).toNat = 256 * h + (buf (pos + (n + 1))).toNat :=
      (Nat.two_pow_add_eq_or_of_lt (i := 8) hb h).symm
    rw [Nat.pow_succ] at hlt
    have hnext : (256 * h + (buf (pos + (n + 1))).toNat + 1) * 256 ^ (n + 1) ≤ 2 ^ 64 := by
      refine le_trans ?_ hlt
      calc (256 * h + (buf (pos + (n + 1))).toNat + 1) * 256 ^ (n + 1)
          ≤ ((h + 1) * 256) * 256 ^ (n + 1) := Nat.mul_le_mul_right _ (by omega)
        _ = (h + 1) * (256 ^ (n + 1) * 256) := by ring
    have hfit : (256 * h + (buf (pos + (n + 1))).toNat) * 2 ^ 8 < 2 ^ 64 := by
      have : (256 * h + (buf (pos + (n + 1))).toNat + 1) * 256 ^ 1 ≤
          (256 * h + (buf (pos + (n + 1))).toNat + 1) * 256 ^ (n + 1) :=
        Nat.mul_le_mul_left _ (Nat.pow_le_pow_right (by decide) (by omega))
      omega
    rw [fastDecodeLoop, show pos + (n + 1 + 1) - 1 = pos + (n + 1) by omega, hor,
      shiftLeft_eq (by decide) hfit, Nat.mul_comm _ (2 ^ 8), show 2 ^ 8 = 256 from rfl, ih hnext,
      bytesAt_add buf pos (n + 1) 1, leValue_append, length_bytesAt]
    simp only [bytesAt, leValue]
    ring

theorem decodeI8_eq (buf : Mem) (dataLen pos : ℕ) :
    decodeI8 buf dataLen pos = if pos + 1 ≤ dataLen then some (buf pos, pos + 1) else none := by
  have hiff : (dataLen : ℤ) - pos ≥ 1 ↔ pos + 1 ≤ dataLen := by omega
  simp only [decodeI8, hiff]

/-- The loop reads a number of `k` bytes, above the `n` bytes already read. -/
theorem decodeBytesLoop_eq {v : ℕ} (hn : n + k ≤ 8) (hv : v < 256 ^ n) (hpos : pos ≤ dataLen) :
    decodeBytesLoop buf dataLen n k pos v =
      if pos + k ≤ dataLen then some (v + leValue (bytesAt buf pos k) * 256 ^ n, pos + k)
      else none := by
  induction k generalizing n v pos with
  | zero =>
    rw [if_pos (by omega), bytesAt, leValue, Nat.zero_mul]
    rfl
  | succ k ih =>
    rw [decodeBytesLoop, decodeI8_eq]
    by_cases hroom : pos + 1 ≤ dataLen
    · rw [if_pos hroom]
      dsimp only
      have hb := (buf pos).toNat_lt
      have hpow : (2 : ℕ) ^ (8 * n) = 256 ^ n := Nat.pow_mul 2 8 n
      have hmul : (buf pos).toNat * 256 ^ n ≤ 255 * 256 ^ n := Nat.mul_le_mul_right _ (by omega)
      have hbound : 256 * 256 ^ n ≤ 2 ^ 64 := by
        rw [← Nat.pow_succ']
        exact (Nat.pow_le_pow_right (by decide) (show n + 1 ≤ 8 by omega)).trans (by decide)
      rw [shiftLeft_eq (by omega) (by rw [hpow]; omega), lor_mul_two_pow (by rw [hpow]; exact hv),
        hpow, ih (by omega) (by rw [Nat.pow_succ]; omega) hroom, bytesAt, leValue,
        show pos + 1 + k = pos + (k + 1) by omega]
      congr 3
      rw [Nat.pow_succ]
      ring
    · rw [if_neg hroom, if_neg (by omega)]

theorem decodeUintWithGivenLength_eq (hk : k ≤ 8) (hpos : pos ≤ dataLen) :
    decodeUintWithGivenLength k buf dataLen pos =
      if pos + k ≤ dataLen then some (leValue (bytesAt buf pos k), pos + k) else none := by
  rw [decodeUintWithGivenLength, decodeBytesLoop_eq (by omega) (by decide) hpos]
  split_ifs <;> first | omega | simp

/-- The number of bytes that the fast path reads behind the first one. -/
def fastLen (c : ℕ) : ℕ :=
  if c ≤ 23 then 0 else if c ≤ 27 then c - 23 else if c = 28 then 6 else 8

/-- The number of bytes that the safe path reads behind the first one. -/
def safeLen (c : ℕ) : ℕ :=
  if c ≤ 23 then 0 else if c - 23 = 5 ∨ c - 23 = 7 then c - 22 else c - 23

/-- The value of a first byte and the bytes behind it. -/
def intValue (firstByte : UInt8) (bs : List UInt8) : ℤ × Bool :=
  let v : ℤ := if intLenOrValue firstByte ≤ 23 then intLenOrValue firstByte else int64 (leValue bs)
  (if testBit firstByte obIntSignBitPos then int64 (-v) else v,
    testBit firstByte obIntOperationBitPos)

theorem intLenOrValue_lt (firstByte : UInt8) : intLenOrValue firstByte < 32 := by
  rw [intLenOrValue, Nat.and_two_pow_sub_one_eq_mod _ 5]
  omega

/-- **The paths read the same number of bytes** but for one reserved code. -/
theorem fastLen_eq_safeLen (hc : c < 32) (h : c ≠ 29) : fastLen c = safeLen c := by
  unfold fastLen safeLen
  split_ifs <;> omega

theorem safeLen_le (hc : c < 32) : safeLen c ≤ 8 := by
  unfold safeLen
  split_ifs <;> omega

theorem int64_neg_small (hc : c ≤ 23) : int64 (-(c : ℤ)) = -c := by
  unfold int64 wrap
  omega

theorem decodeInt_of_fast (firstByte : UInt8) (h : pos + 9 ≤ dataLen) :
    decodeInt firstByte buf dataLen pos =
      some (intValue firstByte (bytesAt buf pos (fastLen (intLenOrValue firstByte))),
        pos + fastLen (intLenOrValue firstByte)) := by
  have hc := intLenOrValue_lt firstByte
  have hloop (n : ℕ) (hn : n + 1 ≤ 8) :
      fastDecodeLoop buf (n + 1) (pos + (n + 1)) 0 = leValue (bytesAt buf pos (n + 1)) := by
    have hle : (0 + 1) * 256 ^ (n + 1) ≤ 2 ^ 64 :=
      (Nat.one_mul _).le.trans ((Nat.pow_le_pow_right (by decide) hn).trans (by decide))
    have heq : fastDecodeLoop buf (n + 1) (pos + (n + 1)) (256 * 0) = _ := fastDecodeLoop_eq hle
    rwa [Nat.mul_zero, Nat.zero_mul, Nat.zero_add] at heq
  rw [decodeInt, if_pos (by omega)]
  unfold fastDecode intValue fastLen
  rw [show obMaxInt1B = 23 from rfl]
  generalize intLenOrValue firstByte = c at hc
  dsimp only
  by_cases hsmall : c ≤ 23
  · simp only [hsmall, if_true, int64_neg_small hsmall, Nat.add_zero]
  · have hn : (if c ≤ 23 + 3 then if c = 23 + 1 then 1 else if c = 23 + 2 then 2 else 3
        else if c = 23 + 4 then 4 else if c = 23 + 5 then 6 else 8) =
        if c ≤ 27 then c - 23 else if c = 28 then 6 else 8 := by
      split_ifs <;> omega
    rw [hn]
    obtain ⟨n, hn'⟩ : ∃ n, (if c ≤ 27 then c - 23 else if c = 28 then 6 else 8) = n + 1 :=
      Nat.exists_eq_add_one.mpr (by split_ifs <;> omega)
    have hle : n + 1 ≤ 8 := by
      rw [← hn']
      split_ifs <;> omega
    simp only [hsmall, if_false, hn', hloop n hle]

theorem decodeInt_of_safe (firstByte : UInt8) (hpos : pos ≤ dataLen) (h : dataLen < pos + 9) :
    decodeInt firstByte buf dataLen pos =
      if pos + safeLen (intLenOrValue firstByte) ≤ dataLen then
        some (intValue firstByte (bytesAt buf pos (safeLen (intLenOrValue firstByte))),
          pos + safeLen (intLenOrValue firstByte))
      else none := by
  have hc := intLenOrValue_lt firstByte
  rw [decodeInt, if_neg (by omega), decodeIntSafe, if_neg (by omega)]
  unfold intValue safeLen
  rw [show obMaxInt1B = 23 from rfl]
  generalize intLenOrValue firstByte = c at hc
  dsimp only
  by_cases hsmall : c ≤ 23
  · simp only [hsmall, if_true, int64_neg_small hsmall, Nat.add_zero, hpos]
  · have hn : (if 5 = c - 23 ∨ 7 = c - 23 then c - 23 + 1 else c - 23) =
        if c - 23 = 5 ∨ c - 23 = 7 then c - 22 else c - 23 := by
      split_ifs <;> omega
    have hle : (if c - 23 = 5 ∨ c - 23 = 7 then c - 22 else c - 23) ≤ 8 := by
      split_ifs <;> omega
    rw [hn, decodeUintWithGivenLength_eq hle hpos]
    simp only [hsmall, if_false]
    split_ifs <;> rfl

/-- But for the reserved code, what follows the integer does not matter. -/
theorem decodeInt_eq {firstByte : UInt8} (h : intLenOrValue firstByte ≠ 29) (hpos : pos ≤ dataLen) :
    decodeInt firstByte buf dataLen pos =
      if pos + safeLen (intLenOrValue firstByte) ≤ dataLen then
        some (intValue firstByte (bytesAt buf pos (safeLen (intLenOrValue firstByte))),
          pos + safeLen (intLenOrValue firstByte))
      else none := by
  have hc := intLenOrValue_lt firstByte
  by_cases hfast : pos + 9 ≤ dataLen
  · have hle := safeLen_le hc
    rw [decodeInt_of_fast firstByte hfast, fastLen_eq_safeLen hc h, if_pos (by omega)]
  · exact decodeInt_of_safe firstByte hpos (by omega)

/-- `decode_int` behind `decode_i8` for the first byte. -/
def decodeIntAt : Decoder (ℤ × Bool) := fun buf dataLen pos =>
  (decodeI8 buf dataLen pos).bind fun r => decodeInt r.1 buf dataLen r.2

theorem decodeIntAt_of_room (h : pos + 1 ≤ dataLen) :
    decodeIntAt buf dataLen pos = decodeInt (buf pos) buf dataLen (pos + 1) := by
  rw [decodeIntAt, decodeI8_eq, if_pos h]
  rfl

theorem contained_decodeI8 (buf : Mem) (h : pos ≤ dataLen) :
    Contained decodeI8 buf dataLen pos := by
  refine Contained.of_bytesAt (k := 1) (f := fun bs => bs.headD 0) (fun mem dataLen _ => ?_) buf h
  exact decodeI8_eq mem dataLen pos

/-- **What follows an integer** does not matter, unless it has the reserved code. -/
theorem contained_decodeIntAt_iff (buf : Mem) (h : pos ≤ dataLen) :
    Contained decodeIntAt buf dataLen pos ↔
      ¬ (intLenOrValue (buf pos) = 29 ∧ pos + 7 ≤ dataLen) := by
  constructor
  · rintro hcont ⟨hcode, hroom⟩
    have hsafe (dataLen : ℕ) (hlo : pos + 7 ≤ dataLen) (hhi : dataLen < pos + 10) :
        ∃ v, decodeIntAt buf dataLen pos = some (v, pos + 7) := by
      rw [decodeIntAt_of_room (by omega), decodeInt_of_safe _ (by omega) (by omega), hcode,
        if_pos (by rw [show safeLen 29 = 6 from rfl]; omega)]
      exact ⟨_, rfl⟩
    have hfast (dataLen : ℕ) (hlo : pos + 10 ≤ dataLen) :
        ∃ v, decodeIntAt buf dataLen pos = some (v, pos + 9) := by
      rw [decodeIntAt_of_room (by omega), decodeInt_of_fast _ (by omega), hcode]
      exact ⟨_, rfl⟩
    rcases lt_or_ge dataLen (pos + 10) with hlt | hge
    · obtain ⟨v, hv⟩ := hsafe dataLen hroom hlt
      obtain ⟨w, hw⟩ := hfast (pos + 10) (le_refl _)
      have := (hcont v _ hv).2.2 buf (pos + 10) (fun _ _ => rfl) (by omega)
      rw [hw] at this
      cases this
    · obtain ⟨v, hv⟩ := hfast dataLen hge
      obtain ⟨w, hw⟩ := hsafe (pos + 9) (by omega) (by omega)
      have := (hcont v _ hv).2.2 buf (pos + 9) (fun _ _ => rfl) (le_refl _)
      rw [hw] at this
      cases this
  · intro hcode
    by_cases heq : intLenOrValue (buf pos) = 29
    · -- there is not enough data for the reserved code
      intro v p hv
      by_cases hone : pos + 1 ≤ dataLen
      · have hroom : ¬ pos + 7 ≤ dataLen := fun hroom => hcode ⟨heq, hroom⟩
        rw [decodeIntAt_of_room hone, decodeInt_of_safe _ (by omega) (by omega), heq,
          if_neg (by rw [show safeLen 29 = 6 from rfl]; omega)] at hv
        cases hv
      · rw [decodeIntAt, decodeI8_eq, if_neg hone] at hv
        cases hv
    · refine (contained_decodeI8 buf h).bind fun b p hb => ?_
      rw [decodeI8_eq] at hb
      split_ifs at hb with hone
      obtain ⟨rfl, rfl⟩ := Prod.mk.inj (Option.some.inj hb)
      exact Contained.of_bytesAt (fun mem dataLen hpos => decodeInt_eq heq hpos) buf hone

/-- The first byte gives its parts back. -/
theorem first_byte_read (val : ℤ) (isAdd : Bool) (hc : c < 32) :
    intLenOrValue (UInt8.ofNat (intFlags val isAdd + c)) = c ∧
      testBit (UInt8.ofNat (intFlags val isAdd + c)) obIntSignBitPos = decide (val < 0) ∧
      testBit (UInt8.ofNat (intFlags val isAdd + c)) obIntOperationBitPos = isAdd := by
  have hall : ∀ (neg isAdd : Bool) (c : Fin 32),
      let b := UInt8.ofNat ((if neg then 32 else 0) + (if isAdd then 64 else 0) + c.val)
      intLenOrValue b = c.val ∧ testBit b obIntSignBitPos = neg ∧
        testBit b obIntOperationBitPos = isAdd := by
    decide +kernel
  have := hall (decide (val < 0)) isAdd ⟨c, hc⟩
  simp only [decide_eq_true_eq] at this
  exact this

theorem intCode_cases (u : ℕ) :
    u ≤ 23 ∧ intCode u = u ∧ intExtra u = 0 ∨ 23 < u ∧
      (intCode u = 24 ∧ intExtra u = 1 ∨ intCode u = 25 ∧ intExtra u = 2 ∨
        intCode u = 26 ∧ intExtra u = 3 ∨ intCode u = 27 ∧ intExtra u = 4 ∨
        intCode u = 28 ∧ intExtra u = 6 ∨ intCode u = 30 ∧ intExtra u = 8) := by
  unfold intCode
  simp only [le_obMaxInt1B]
  rcases intExtra_cases u with ⟨hle, hn⟩ | ⟨hlo, hhi, hn⟩ | ⟨hlo, hhi, hn⟩ | ⟨hlo, hhi, hn⟩ |
    ⟨hlo, hhi, hn⟩ | ⟨hlo, hhi, hn⟩ | ⟨hlo, hn⟩ <;> rw [hn] <;> split_ifs <;> omega

theorem safeLen_intCode (u : ℕ) : safeLen (intCode u) = intExtra u ∧ intCode u ≠ 29 := by
  rcases intCode_cases u with ⟨hle, hcode, hextra⟩ | ⟨-, h | h | h | h | h | h⟩
  · rw [hcode, hextra]
    exact ⟨if_pos hle, by omega⟩
  all_goals
    rw [h.1, h.2]
    decide

/-- The value is read back from its bytes. -/
theorem intValue_intBytes (h : IsInt64 val) (isAdd : Bool) :
    intValue (UInt8.ofNat (intFlags val isAdd + intCode val.natAbs))
      (leBytes (intExtra val.natAbs) val.natAbs) = (val, isAdd) := by
  obtain ⟨hcode, hsign, hadd⟩ := first_byte_read val isAdd (intCode_eq val.natAbs).2
  unfold intValue
  rw [hcode, hsign, hadd]
  obtain ⟨hlo, hhi⟩ := h
  rcases intCode_cases val.natAbs with ⟨hsmall, hvalue, -⟩ | ⟨hlarge, hcases⟩
  · simp only [hvalue, hsmall, if_true, decide_eq_true_eq, int64_neg_small hsmall]
    congr 1
    split_ifs <;> omega
  · have hcode' : ¬ intCode val.natAbs ≤ 23 := by omega
    rw [leValue_leBytes (lt_pow_intExtra (by omega) hlarge)]
    simp only [hcode', if_false, decide_eq_true_eq]
    congr 1
    unfold int64 wrap
    split_ifs <;> omega

theorem readsFrom_decodeIntAt (h : IsInt64 val) (isAdd : Bool) :
    ReadsFrom decodeIntAt (intBytes val isAdd) (val, isAdd) := by
  intro buf dataLen pos hread hlen
  obtain ⟨hcode, -⟩ := first_byte_read val isAdd (intCode_eq val.natAbs).2
  obtain ⟨hsafe, hne⟩ := safeLen_intCode val.natAbs
  rw [length_intBytes] at hlen ⊢
  obtain ⟨hfirst, hrest⟩ := bytesAt_cons.mp hread
  rw [length_leBytes] at hrest
  rw [decodeIntAt_of_room (by omega), hfirst, decodeInt_eq (by rw [hcode]; exact hne) (by omega),
    hcode, hsafe, if_pos (by omega), hrest, intValue_intBytes h]
  congr 2
  omega

theorem wellEncoded_int (h : IsInt64 val) (isAdd : Bool) :
    WellEncoded (encodeInt val isAdd) (encodedLengthInt val) decodeIntAt (val, isAdd) :=
  wellEncoded_of_puts (fun bufLen s _ => encodeInt_eq h isAdd bufLen s)
    (by rw [encodedLengthInt_eq h, length_intBytes]) (readsFrom_decodeIntAt h isAdd)

end Andl.Serialization
