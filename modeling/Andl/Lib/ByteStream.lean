import Andl.Lib.ByteCodec

/-!
# Codecs in a row

Encoders that write one after the other, and decoders with error codes that read what they wrote.
-/

namespace Andl

open List

variable {ε α : Type*}

/-! ### Encoders -/

/-- One encoder after the other, unless the first one fails. -/
def Encoder.andThen (first second : Encoder ε) : Encoder ε := fun bufLen s =>
  match first bufLen s with
  | (.ok (), s) => second bufLen s
  | (.error e, s) => (.error e, s)

/-- Encoders in a row, up to the first one that fails. -/
def Encoder.all : List (Encoder ε) → Encoder ε
  | [] => fun _ s => (.ok (), s)
  | encode :: rest => encode.andThen (all rest)

/-- The encoder writes these bytes wherever there is room for them. -/
def Writes (encode : Encoder ε) (bs : List UInt8) : Prop :=
  ∀ bufLen s, s.pos + bs.length ≤ bufLen → encode bufLen s = (.ok (), s.puts bs)

theorem writes_of_putsIfRoom {encode : Encoder ε} {e : ε} {bs : List UInt8}
    (h : ∀ bufLen s, encode bufLen s = putsIfRoom e bs bufLen s) : Writes encode bs := by
  intro bufLen s hroom
  rw [h, putsIfRoom, if_pos hroom]

theorem Writes.andThen {first second : Encoder ε} {bs cs : List UInt8} (hfirst : Writes first bs)
    (hsecond : Writes second cs) : Writes (first.andThen second) (bs ++ cs) := by
  intro bufLen s hroom
  rw [length_append] at hroom
  rw [Encoder.andThen, hfirst bufLen s (by omega)]
  dsimp only
  rw [hsecond bufLen _ (by rw [Sink.pos_puts]; omega), Sink.puts_append]

/-- Encoders for the elements of a list. -/
theorem Writes.all {encode : α → Encoder ε} {bytes : α → List UInt8} {l : List α}
    (h : ∀ a ∈ l, Writes (encode a) (bytes a)) :
    Writes (Encoder.all (l.map encode)) (l.flatMap bytes) := by
  induction l with
  | nil => exact fun bufLen s _ => rfl
  | cons a l ih =>
    rw [map_cons, flatMap_cons]
    exact (h a mem_cons_self).andThen (ih fun b hb => h b (mem_cons_of_mem _ hb))

theorem Sink.ext_of_bytes {s t : Sink} (hpos : s.pos = t.pos) (hmem : ∀ i, s.mem i = t.mem i) :
    s = t := by
  obtain ⟨sm, sp⟩ := s
  obtain ⟨tm, tp⟩ := t
  obtain rfl : sp = tp := hpos
  rw [show sm = tm from funext hmem]

/-- The byte at an index of what is written. -/
theorem Sink.mem_puts_add (s : Sink) {bs : List UInt8} {i : ℕ} {b : UInt8} (h : bs[i]? = some b) :
    (s.puts bs).mem (s.pos + i) = b := by
  induction bs generalizing s i with
  | nil => cases h
  | cons c bs ih =>
    rw [puts_cons]
    cases i with
    | zero =>
      obtain rfl : c = b := Option.some.inj h
      rw [mem_puts_of_outside _ _ (.inl (Nat.lt_succ_self _))]
      exact Function.update_self _ _ _
    | succ i =>
      rw [Nat.add_comm i 1, ← Nat.add_assoc]
      exact ih (s.put c) h

/-- **A field that is filled in afterwards**: the bytes behind it are written first. -/
theorem Sink.puts_reserve (s : Sink) (field body : List UInt8) :
    (⟨((⟨((⟨s.mem, s.pos + field.length⟩ : Sink).puts body).mem, s.pos⟩ : Sink).puts field).mem,
      s.pos + field.length + body.length⟩ : Sink) = s.puts (field ++ body) := by
  refine Sink.ext_of_bytes (by rw [pos_puts, length_append, Nat.add_assoc]) fun i => ?_
  dsimp only
  by_cases hout : i < s.pos ∨ s.pos + (field ++ body).length ≤ i
  · have hout' := hout
    rw [length_append] at hout'
    rw [mem_puts_of_outside s _ hout, mem_puts_of_outside _ _ (by dsimp only; omega),
      mem_puts_of_outside _ _ (by dsimp only; omega)]
  · rw [length_append] at hout
    rw [puts_append]
    obtain ⟨j, rfl⟩ : ∃ j, i = s.pos + j := ⟨i - s.pos, by omega⟩
    by_cases hj : j < field.length
    · obtain ⟨b, hb⟩ : ∃ b, field[j]? = some b := ⟨_, getElem?_eq_getElem hj⟩
      rw [mem_puts_of_outside (s.puts field) _ (.inl (by rw [pos_puts]; omega)),
        mem_puts_add s hb]
      exact mem_puts_add (⟨_, s.pos⟩ : Sink) hb
    · obtain ⟨k, rfl⟩ : ∃ k, j = field.length + k := ⟨j - field.length, by omega⟩
      obtain ⟨b, hb⟩ : ∃ b, body[k]? = some b := ⟨_, getElem?_eq_getElem (by omega)⟩
      rw [mem_puts_of_outside _ _ (.inr (by dsimp only; omega)), ← Nat.add_assoc]
      have hright : (s.puts field |>.puts body).mem ((s.puts field).pos + k) = b :=
        mem_puts_add _ hb
      rw [pos_puts] at hright
      rw [hright]
      exact mem_puts_add (⟨s.mem, s.pos + field.length⟩ : Sink) hb

/-! ### Decoders with error codes -/

/-- A decoder that reports an error where it fails. -/
abbrev Reader (ε α : Type*) := Mem → ℕ → ℕ → Except ε (α × ℕ)

/-- A decoder that fails with the same error everywhere. -/
def Decoder.orError (decode : Decoder α) (e : ε) : Reader ε α := fun mem dataLen pos =>
  match decode mem dataLen pos with
  | some r => .ok r
  | none => .error e

/-- The decoder reads the value from these bytes, whatever follows them. -/
def Reads (decode : Reader ε α) (bs : List UInt8) (value : α) : Prop :=
  ∀ mem dataLen pos, bytesAt mem pos bs.length = bs → pos + bs.length ≤ dataLen →
    decode mem dataLen pos = .ok (value, pos + bs.length)

theorem ReadsFrom.orError {decode : Decoder α} {bs : List UInt8} {value : α}
    (h : ReadsFrom decode bs value) (e : ε) : Reads (decode.orError e) bs value := by
  intro mem dataLen pos hread hlen
  rw [Decoder.orError, h mem dataLen pos hread hlen]

/-- The bytes of a buffer that starts inside of another one. -/
theorem bytesAt_shift (mem : Mem) (off pos n : ℕ) :
    bytesAt (fun i => mem (off + i)) pos n = bytesAt mem (off + pos) n := by
  induction n generalizing pos with
  | zero => rfl
  | succ n ih => rw [bytesAt, bytesAt, ih, Nat.add_assoc]

/-! ### Numbers in a given number of groups -/

/-- A number below `128 ^ (k + 1)` takes at most `k + 1` bytes. -/
theorem length_leb128_le {v k : ℕ} (h : v < 128 ^ (k + 1)) : (leb128 v).length ≤ k + 1 := by
  induction k generalizing v with
  | zero => rw [leb128_of_le (by omega), length_singleton]
  | succ k ih =>
    by_cases hv : 127 < v
    · rw [Nat.pow_succ] at h
      rw [leb128_of_gt hv, length_cons]
      exact Nat.succ_le_succ (ih (by omega))
    · rw [leb128_of_le (by omega), length_singleton]
      omega

/-- The `n + 1` lowest groups of seven bits; all but the last one have their eighth bit set. -/
def leb128Padded : ℕ → ℕ → List UInt8
  | 0, v => [UInt8.ofNat (v &&& 0x7f)]
  | n + 1, v => UInt8.ofNat (v ||| 0x80) :: leb128Padded n (v >>> 7)

@[simp] theorem length_leb128Padded (n v : ℕ) : (leb128Padded n v).length = n + 1 := by
  induction n generalizing v with
  | zero => rfl
  | succ n ih => rw [leb128Padded, length_cons, ih]

end Andl
