import Mathlib

/-!
# Byte codecs

Encoders that write bytes at a position of a memory, and decoders that read them back.
-/

namespace Andl

open List

/-! ### Memory -/

/-- A memory: the bytes at all addresses. -/
abbrev Mem := ℕ → UInt8

/-- The `n` bytes from `pos` on. -/
def bytesAt (mem : Mem) (pos : ℕ) : ℕ → List UInt8
  | 0 => []
  | n + 1 => mem pos :: bytesAt mem (pos + 1) n

/-- A memory and the position at which the next byte is written. -/
structure Sink where
  mem : Mem
  pos : ℕ

namespace Sink

/-- Writes a byte and moves behind it. -/
def put (s : Sink) (b : UInt8) : Sink := ⟨Function.update s.mem s.pos b, s.pos + 1⟩

/-- Writes bytes one after the other. -/
def puts (s : Sink) (bs : List UInt8) : Sink := bs.foldl put s

variable (s : Sink) (b : UInt8) (bs cs : List UInt8)

@[simp] theorem puts_nil : s.puts [] = s := rfl

@[simp] theorem puts_cons : s.puts (b :: bs) = (s.put b).puts bs := rfl

theorem puts_append : s.puts (bs ++ cs) = (s.puts bs).puts cs := foldl_append

@[simp] theorem pos_put : (s.put b).pos = s.pos + 1 := rfl

@[simp] theorem pos_puts : (s.puts bs).pos = s.pos + bs.length := by
  induction bs generalizing s with
  | nil => rfl
  | cons b bs ih =>
    rw [puts_cons, ih, pos_put, length_cons]
    omega

/-- The bytes outside of what is written are kept. -/
theorem mem_puts_of_outside {i : ℕ} (h : i < s.pos ∨ s.pos + bs.length ≤ i) :
    (s.puts bs).mem i = s.mem i := by
  induction bs generalizing s with
  | nil => rfl
  | cons b bs ih =>
    rw [length_cons] at h
    rw [puts_cons, ih (s.put b) (by rw [pos_put]; omega)]
    exact Function.update_of_ne (by omega) _ _

/-- What is written can be read. -/
theorem bytesAt_puts : bytesAt (s.puts bs).mem s.pos bs.length = bs := by
  induction bs generalizing s with
  | nil => rfl
  | cons b bs ih =>
    rw [length_cons, bytesAt, puts_cons, ← pos_put s b, ih,
      mem_puts_of_outside _ _ (.inl (by rw [pos_put]; omega))]
    exact congrArg (· :: bs) (Function.update_self _ _ _)

end Sink

@[simp] theorem length_bytesAt (mem : Mem) (pos n : ℕ) : (bytesAt mem pos n).length = n := by
  induction n generalizing pos with
  | zero => rfl
  | succ n ih => rw [bytesAt, length_cons, ih]

theorem bytesAt_add (mem : Mem) (pos m n : ℕ) :
    bytesAt mem pos (m + n) = bytesAt mem pos m ++ bytesAt mem (pos + m) n := by
  induction m generalizing pos with
  | zero => rw [Nat.zero_add, bytesAt, nil_append, Nat.add_zero]
  | succ m ih =>
    rw [Nat.succ_add, bytesAt, ih, bytesAt, cons_append, Nat.add_assoc, Nat.add_comm 1]

variable {n pos v : ℕ} {mem : Mem}

theorem bytesAt_take (mem : Mem) (pos : ℕ) {m : ℕ} (h : m ≤ n) :
    bytesAt mem pos m = (bytesAt mem pos n).take m := by
  obtain ⟨k, rfl⟩ := Nat.exists_eq_add_of_le h
  rw [bytesAt_add, take_left' (length_bytesAt mem pos m)]

theorem bytesAt_congr {mem' : Mem} (h : ∀ i, pos ≤ i → i < pos + n → mem' i = mem i) :
    bytesAt mem' pos n = bytesAt mem pos n := by
  induction n generalizing pos with
  | zero => rfl
  | succ n ih =>
    rw [bytesAt, bytesAt, h pos (by omega) (by omega),
      ih fun i hlo hhi => h i (by omega) (by omega)]

/-- The parts of two lists in a row. -/
theorem bytesAt_append {bs cs : List UInt8} :
    bytesAt mem pos (bs ++ cs).length = bs ++ cs ↔
      bytesAt mem pos bs.length = bs ∧ bytesAt mem (pos + bs.length) cs.length = cs := by
  rw [length_append, bytesAt_add]
  constructor
  · exact fun h => append_inj h (length_bytesAt _ _ _)
  · rintro ⟨hbs, hcs⟩
    rw [hbs, hcs]

theorem bytesAt_cons {b : UInt8} {bs : List UInt8} :
    bytesAt mem pos (b :: bs).length = b :: bs ↔
      mem pos = b ∧ bytesAt mem (pos + 1) bs.length = bs := by
  rw [length_cons, bytesAt, List.cons.injEq]

/-! ### Encoders and decoders -/

/-- An encoder: given the length of the buffer, it writes or reports an error. -/
abbrev Encoder (ε : Type*) := ℕ → Sink → Except ε Unit × Sink

/-- A decoder: given the length of the data and a position, it gives a value and the position behind
it. -/
abbrev Decoder (α : Type*) := Mem → ℕ → ℕ → Option (α × ℕ)

section WellEncoded

variable {ε α : Type*}

/-- The encoder writes as many bytes as announced if they are free. -/
structure WellEncoded (encode : Encoder ε) (announced : ℤ) (decode : Decoder α) (value : α) :
    Prop where
  /-- A successful call writes the announced number of bytes inside of the buffer. -/
  writes : ∀ bufLen s, s.pos ≤ bufLen → (encode bufLen s).1 = .ok () →
    ((encode bufLen s).2.pos : ℤ) = s.pos + announced ∧ (encode bufLen s).2.pos ≤ bufLen ∧
      ∀ i, i < s.pos ∨ (encode bufLen s).2.pos ≤ i → (encode bufLen s).2.mem i = s.mem i
  /-- The call succeeds if this number of bytes is free. -/
  succeeds : ∀ (bufLen : ℕ) s, s.pos ≤ bufLen → (s.pos : ℤ) + announced ≤ bufLen →
    (encode bufLen s).1 = .ok ()
  /-- The value is read back, from any memory with these bytes. -/
  reads : ∀ bufLen s mem dataLen, s.pos ≤ bufLen → (encode bufLen s).1 = .ok () →
    (encode bufLen s).2.pos ≤ dataLen →
    (∀ i, s.pos ≤ i → i < (encode bufLen s).2.pos → mem i = (encode bufLen s).2.mem i) →
    decode mem dataLen s.pos = some (value, (encode bufLen s).2.pos)

/-- An encoder that writes a list of bytes if there is room for it. -/
def putsIfRoom (e : ε) (bs : List UInt8) : Encoder ε := fun bufLen s =>
  if s.pos + bs.length ≤ bufLen then (.ok (), s.puts bs) else (.error e, s)

/-- The decoder reads the value from these bytes, whatever follows them. -/
def ReadsFrom (decode : Decoder α) (bs : List UInt8) (value : α) : Prop :=
  ∀ mem dataLen pos, bytesAt mem pos bs.length = bs → pos + bs.length ≤ dataLen →
    decode mem dataLen pos = some (value, pos + bs.length)

theorem putsIfRoom_eq_ok {e : ε} {bs : List UInt8} {bufLen : ℕ} {s : Sink}
    (h : (putsIfRoom e bs bufLen s).1 = .ok ()) :
    s.pos + bs.length ≤ bufLen ∧ (putsIfRoom e bs bufLen s).2 = s.puts bs := by
  by_cases hroom : s.pos + bs.length ≤ bufLen
  · exact ⟨hroom, by rw [putsIfRoom, if_pos hroom]⟩
  · rw [putsIfRoom, if_neg hroom] at h
    cases h

/-- **An encoder that writes a list of bytes** if there is room for it, and a decoder that reads
from this list. -/
theorem wellEncoded_of_puts {encode : Encoder ε} {decode : Decoder α} {value : α}
    {announced : ℤ} {e : ε} {bs : List UInt8}
    (hencode : ∀ bufLen s, s.pos ≤ bufLen → encode bufLen s = putsIfRoom e bs bufLen s)
    (hannounced : announced = bs.length) (hdecode : ReadsFrom decode bs value) :
    WellEncoded encode announced decode value where
  writes := by
    intro bufLen s hpos hok
    rw [hencode bufLen s hpos] at hok ⊢
    obtain ⟨hroom, hputs⟩ := putsIfRoom_eq_ok hok
    rw [hputs, Sink.pos_puts, hannounced]
    exact ⟨by push_cast; rfl, hroom, fun i hi => s.mem_puts_of_outside bs hi⟩
  succeeds := by
    intro bufLen s hpos hfree
    rw [hencode bufLen s hpos, putsIfRoom, if_pos (by omega)]
  reads := by
    intro bufLen s mem dataLen hpos hok hdata hmem
    rw [hencode bufLen s hpos] at hok hdata hmem ⊢
    obtain ⟨-, hputs⟩ := putsIfRoom_eq_ok hok
    rw [hputs, Sink.pos_puts] at hdata hmem ⊢
    refine hdecode mem dataLen s.pos ?_ hdata
    rw [bytesAt_congr hmem, s.bytesAt_puts]

/-- A call that succeeds determines the value that is read back. -/
theorem WellEncoded.value_unique {encode : Encoder ε} {decode : Decoder α} {v w : α}
    {announced announced' : ℤ} (hv : WellEncoded encode announced decode v)
    (hw : WellEncoded encode announced' decode w) {bufLen : ℕ} {s : Sink} (hpos : s.pos ≤ bufLen)
    (hok : (encode bufLen s).1 = .ok ()) : v = w := by
  have hread := hv.reads bufLen s _ _ hpos hok (le_refl _) fun _ _ _ => rfl
  rw [hw.reads bufLen s _ _ hpos hok (le_refl _) fun _ _ _ => rfl] at hread
  exact ((Prod.mk.inj (Option.some.inj hread)).1).symm

end WellEncoded

section Contained

variable {α β : Type*}

/-- What the decoder reads is inside of the data, and neither the bytes behind it nor their number
matters. -/
def Contained (decode : Decoder α) (mem : Mem) (dataLen pos : ℕ) : Prop :=
  ∀ value p, decode mem dataLen pos = some (value, p) →
    pos ≤ p ∧ p ≤ dataLen ∧
      ∀ mem' dataLen', (∀ i, i < p → mem' i = mem i) → p ≤ dataLen' →
        decode mem' dataLen' pos = some (value, p)

variable {decode : Decoder α} {dataLen pos : ℕ}

/-- One decoder after the other. -/
theorem Contained.bind {next : α → Decoder β} {mem : Mem} (h : Contained decode mem dataLen pos)
    (hnext : ∀ a p, decode mem dataLen pos = some (a, p) → Contained (next a) mem dataLen p) :
    Contained (fun mem dataLen pos => (decode mem dataLen pos).bind fun r =>
      next r.1 mem dataLen r.2) mem dataLen pos := by
  intro b q hb
  obtain ⟨⟨a, p⟩, ha, hb⟩ := Option.bind_eq_some_iff.mp hb
  obtain ⟨hpos, -, hsame⟩ := h a p ha
  obtain ⟨hpq, hq, hsame'⟩ := hnext a p ha b q hb
  refine ⟨hpos.trans hpq, hq, fun mem' dataLen' hmem hlen => ?_⟩
  show (decode mem' dataLen' pos).bind _ = _
  rw [hsame mem' dataLen' (fun i hi => hmem i (hi.trans_le hpq)) (hpq.trans hlen), Option.bind_some]
  exact hsame' mem' dataLen' hmem hlen

/-- A value computed from what a decoder gives. -/
theorem Contained.map {mem : Mem} (f : α → β) (h : Contained decode mem dataLen pos) :
    Contained (fun mem dataLen pos => (decode mem dataLen pos).map fun r => (f r.1, r.2))
      mem dataLen pos := by
  intro b q hb
  obtain ⟨⟨a, p⟩, ha, heq⟩ := Option.map_eq_some_iff.mp hb
  obtain ⟨rfl, rfl⟩ := Prod.mk.inj heq
  obtain ⟨hpos, hp, hsame⟩ := h a p ha
  refine ⟨hpos, hp, fun mem' dataLen' hmem hlen => ?_⟩
  show (decode mem' dataLen' pos).map _ = _
  rw [hsame mem' dataLen' hmem hlen]
  rfl

/-- A decoder that reads a fixed number of bytes. -/
theorem Contained.of_bytesAt {k : ℕ} {f : List UInt8 → α}
    (h : ∀ mem dataLen, pos ≤ dataLen →
      decode mem dataLen pos =
      if pos + k ≤ dataLen then some (f (bytesAt mem pos k), pos + k) else none)
    (mem : Mem) (hpos : pos ≤ dataLen) : Contained decode mem dataLen pos := by
  intro value p heq
  rw [h mem dataLen hpos] at heq
  split_ifs at heq with hroom
  obtain ⟨rfl, rfl⟩ := Prod.mk.inj (Option.some.inj heq)
  refine ⟨by omega, hroom, fun mem' dataLen' hmem hlen => ?_⟩
  rw [h mem' dataLen' (by omega), if_pos hlen, bytesAt_congr fun i _ hi => hmem i hi]

end Contained

/-! ### Little-endian numbers -/

/-- The `n` lowest bytes of `v`, the lowest one first. -/
def leBytes : ℕ → ℕ → List UInt8
  | 0, _ => []
  | n + 1, v => UInt8.ofNat v :: leBytes n (v / 256)

/-- The number whose bytes are given, the lowest one first. -/
def leValue : List UInt8 → ℕ
  | [] => 0
  | b :: bs => b.toNat + 256 * leValue bs

@[simp] theorem length_leBytes (n v : ℕ) : (leBytes n v).length = n := by
  induction n generalizing v with
  | zero => rfl
  | succ n ih => rw [leBytes, length_cons, ih]

/-- A number is read back from its bytes. -/
theorem leValue_leBytes (h : v < 256 ^ n) : leValue (leBytes n v) = v := by
  induction n generalizing v with
  | zero =>
    rw [Nat.pow_zero, Nat.lt_one_iff] at h
    rw [leBytes, leValue, h]
  | succ n ih =>
    rw [leBytes, leValue, ih (by rw [Nat.pow_succ] at h; omega), UInt8.toNat_ofNat']
    omega

theorem leValue_append (bs cs : List UInt8) :
    leValue (bs ++ cs) = leValue bs + 256 ^ bs.length * leValue cs := by
  induction bs with
  | nil => rw [nil_append, leValue, length_nil, Nat.pow_zero]; omega
  | cons b bs ih =>
    rw [cons_append, leValue, leValue, ih, length_cons, Nat.pow_succ]
    ring

/-- Or-ing in bits above those of a number adds them. -/
theorem lor_mul_two_pow {a i : ℕ} (h : a < 2 ^ i) (b : ℕ) : a ||| b * 2 ^ i = a + b * 2 ^ i := by
  rw [Nat.lor_comm, Nat.mul_comm b, ← Nat.two_pow_add_eq_or_of_lt h]
  omega

/-! ### Numbers in groups of seven bits -/

/-- The groups of seven bits, the lowest one first; all but the last one have their eighth bit set.
-/
def leb128 (v : ℕ) : List UInt8 :=
  if v > 127 then UInt8.ofNat (v ||| 0x80) :: leb128 (v >>> 7) else [UInt8.ofNat (v &&& 0x7f)]
termination_by v
decreasing_by
  rw [Nat.shiftRight_eq_div_pow]
  omega

theorem leb128_of_le (h : v ≤ 127) : leb128 v = [UInt8.ofNat (v &&& 0x7f)] := by
  rw [leb128, if_neg (by omega)]

theorem leb128_of_gt (h : 127 < v) : leb128 v = UInt8.ofNat (v ||| 0x80) :: leb128 (v / 128) := by
  rw [leb128, if_pos h, Nat.shiftRight_eq_div_pow]

/-- A number of `k + 1` groups takes as many bytes. -/
theorem length_leb128 {k : ℕ} (hlow : 0 < k → 128 ^ k ≤ v) (hhigh : v < 128 ^ (k + 1)) :
    (leb128 v).length = k + 1 := by
  induction k generalizing v with
  | zero => rw [leb128_of_le (by omega), length_singleton]
  | succ k ih =>
    have hlow := hlow k.succ_pos
    rw [Nat.pow_succ] at hlow hhigh
    rw [leb128_of_gt (by omega), length_cons, ih (fun _ => by omega) (by omega)]

/-- The marked byte has the seven bits of the number, and the mark. -/
theorem marked_byte (v : ℕ) :
    (UInt8.ofNat (v ||| 0x80)).toNat &&& 0x80 ≠ 0 ∧
      (UInt8.ofNat (v ||| 0x80)).toNat &&& 0x7f = v % 128 := by
  have hall : ∀ b : Fin 256,
      (b.val ||| 0x80) &&& 0x80 ≠ 0 ∧ (b.val ||| 0x80) &&& 0x7f = b.val % 128 := by
    decide +kernel
  obtain ⟨hmark, hbits⟩ := hall ⟨v % 256, Nat.mod_lt _ (by decide)⟩
  have hbyte : (UInt8.ofNat (v ||| 0x80)).toNat = v % 256 ||| 0x80 := by
    rw [UInt8.toNat_ofNat', Nat.or_mod_two_pow]
  rw [hbyte]
  refine ⟨hmark, hbits.trans ?_⟩
  show v % 256 % 128 = v % 128
  omega

theorem unmarked_byte (h : v ≤ 127) :
    (UInt8.ofNat (v &&& 0x7f)).toNat &&& 0x80 = 0 ∧
      (UInt8.ofNat (v &&& 0x7f)).toNat &&& 0x7f = v := by
  have hall : ∀ b : Fin 128, b.val &&& 0x80 = 0 ∧ b.val &&& 0x7f = b.val := by decide +kernel
  obtain ⟨hmark, hbits⟩ := hall ⟨v, by omega⟩
  have hbyte : (UInt8.ofNat (v &&& 0x7f)).toNat = v := by
    rw [UInt8.toNat_ofNat', show v &&& 0x7f = v from hbits]
    omega
  rw [hbyte]
  exact ⟨hmark, hbits⟩

end Andl
