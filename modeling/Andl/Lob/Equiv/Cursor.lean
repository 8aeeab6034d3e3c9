import Andl.Lob.Cursor

/-!
# The layout of a LOB cursor
-/

namespace Andl.Lob

open List

/-! ### Chunks and areas -/

/-- The bytes of a chunk. -/
def chunkAt (chunkSize : ℕ) (a : List UInt8) (p : ℕ) : List UInt8 :=
  (a.drop (p * chunkSize)).take chunkSize

theorem mul_add_le_mul {i j : ℕ} (n : ℕ) (h : i < j) : i * n + n ≤ j * n := by
  rw [← Nat.succ_mul]
  exact Nat.mul_le_mul_right n h

theorem length_chunkAt (chunkSize : ℕ) (a : List UInt8) (p : ℕ) :
    (chunkAt chunkSize a p).length = min chunkSize (a.length - p * chunkSize) := by
  rw [chunkAt, length_take, length_drop]

theorem getElem?_chunks {chunkSize : ℕ} {a : List UInt8} {p : ℕ}
    (hp : p < (a.length + chunkSize - 1) / chunkSize) :
    (chunks chunkSize a)[p]? = some (chunkAt chunkSize a p) := by
  rw [chunks, getElem?_map, getElem?_range hp]
  rfl

/-- A chunk position lies in an interval. -/
def Within (i : ℕ) (I : ℕ × ℕ) : Prop := I.1 ≤ i ∧ i < I.2

/-- Where the bytes of an interval end: the last one reaches to the end. -/
def endByte (chunkSize count length : ℕ) (I : ℕ × ℕ) : ℕ :=
  if I.2 = count then length else I.2 * chunkSize

/-- The bytes of an interval. -/
def areaBytes (chunkSize count : ℕ) (a : List UInt8) (I : ℕ × ℕ) : List UInt8 :=
  (a.drop (I.1 * chunkSize)).take (endByte chunkSize count a.length I - I.1 * chunkSize)

namespace ObLobCursor

variable (c : ObLobCursor)

/-- The number of stored chunks, which is the position of the added ones. -/
def storedCount : ℕ := c.getChunkPos (c.oriDataLength + c.chunkSize - 1)

/-- The length of a chunk when the LOB has `length` bytes; all added chunks are one. -/
def chunkLen (length p : ℕ) : ℕ :=
  if p < c.storedCount then min c.chunkSize (length - p * c.chunkSize)
  else length - c.storedCount * c.chunkSize

end ObLobCursor

/-- A chunk index is the one of position `p`, in area `k` with the interval `I`. -/
structure Entry (L : List (ℕ × ℕ)) (c : ObLobCursor) (p j k : ℕ) (I : ℕ × ℕ)
    (ix : ObLobChunkIndex) : Prop where
  search : c.searchMap p = some j
  area : L[k]? = some I
  within : Within (min p (c.storedCount - 1)) I
  index : c.index[j]? = some ix
  offset : ix.offset = p * c.chunkSize
  pos : ix.pos = (p - I.1) * c.chunkSize
  dataIdx : ix.dataIdx = k
  isAdd : ix.isAdd = decide (p = c.storedCount)
  seqId : ix.seqId = if p = c.storedCount then none else some p

/-- The chunk indexes of the cursor are arranged as the layout says. -/
structure Arranged (L : List (ℕ × ℕ)) (c : ObLobCursor) : Prop where
  chunkSize_pos : 0 < c.chunkSize
  ori_pos : 0 < c.oriDataLength
  /-- An area that was merged into another one is empty. -/
  bounds : ∀ (k : ℕ) I, L[k]? = some I → (I = (0, 0) ∨ I.1 < I.2) ∧ I.2 ≤ c.storedCount
  disjoint : ∀ (k k' : ℕ) I I' i, L[k]? = some I → L[k']? = some I' → Within i I → Within i I' →
    k = k'
  entry : ∀ p j, p ≤ c.storedCount → c.searchMap p = some j → ∃ k I ix, Entry L c p j k I ix
  /-- A chunk that is not indexed is in no area. -/
  free : ∀ p, p < c.storedCount → c.searchMap p = none → ∀ (k : ℕ) I, L[k]? = some I → ¬ Within p I
  indexed : ∀ (j : ℕ) ix, c.index[j]? = some ix →
    c.searchMap (ix.offset / c.chunkSize) = some j ∧ ix.offset / c.chunkSize ≤ c.storedCount
  /-- The update buffer is the area that reaches to the end. -/
  buffer : ∀ k, c.updateBuffer = some k → ∃ I, L[k]? = some I ∧ Within (c.storedCount - 1) I

/-- The areas hold the bytes of their intervals. -/
structure Laid (L : List (ℕ × ℕ)) (c : ObLobCursor) (a : List UInt8) : Prop extends
    Arranged L c where
  ori_le : c.oriDataLength ≤ a.length
  data : c.data = L.map (areaBytes c.chunkSize c.storedCount a)
  appended : (c.searchMap c.storedCount).isSome ↔ c.storedCount * c.chunkSize < a.length

/-- The chunk indexes have the lengths of a LOB of `length` bytes, `except` perhaps for one. -/
def Lens (c : ObLobCursor) (length : ℕ) (except : Option ℕ) : Prop :=
  ∀ (p j : ℕ) ix, p ≤ c.storedCount → some p ≠ except → c.searchMap p = some j →
    c.index[j]? = some ix → ix.byteLen = c.chunkLen length p

/-- A chunk index that is not recorded has the original bytes; a recorded one has them as its old
data. -/
def OldEntry (orig : List UInt8) (c : ObLobCursor) (p : ℕ) (ix : ObLobChunkIndex) : Prop :=
  match ix.oldDataIdx with
  | none => ix.isModified = false ∧
      c.readData ix.dataIdx ix.pos ix.byteLen = .ok (chunkAt c.chunkSize orig p)
  | some o => ix.isModified = true ∧ c.oldData[o]? = some (chunkAt c.chunkSize orig p)

/-- The old data of the stored chunks, of which those not fetched are unchanged. -/
structure Old (orig : List UInt8) (c : ObLobCursor) (a : List UInt8) : Prop where
  entry : ∀ (p j : ℕ) ix, p < c.storedCount → c.searchMap p = some j → c.index[j]? = some ix →
    OldEntry orig c p ix
  unfetched : ∀ p, p < c.storedCount → c.searchMap p = none →
    chunkAt c.chunkSize a p = chunkAt c.chunkSize orig p

/-- **The cursor holds the bytes `a`**, of a LOB that was stored as `orig`. -/
structure Refines (orig : List UInt8) (L : List (ℕ × ℕ)) (c : ObLobCursor) (a : List UInt8) :
    Prop where
  laid : Laid L c a
  lens : Lens c a.length none
  old : Old orig c a
  ori : c.oriDataLength = orig.length
  length : c.dataLength = a.length
  sum : (c.data.map List.length).sum = (c.index.map ObLobChunkIndex.byteLen).sum
  stored : ∀ p, c.fetchMeta p = (chunks c.chunkSize orig)[p]?

/-! ### Positions -/

section Positions

variable {L : List (ℕ × ℕ)} {c : ObLobCursor} {a : List UInt8} {orig : List UInt8} {p j k : ℕ}
  {I : ℕ × ℕ} {ix : ObLobChunkIndex}

/-- The last stored chunk is not empty, and it is the last one. -/
theorem storedCount_spec (hcs : 0 < c.chunkSize) (hori : 0 < c.oriDataLength) :
    0 < c.storedCount ∧ (c.storedCount - 1) * c.chunkSize < c.oriDataLength ∧
      c.oriDataLength ≤ c.storedCount * c.chunkSize := by
  unfold ObLobCursor.storedCount ObLobCursor.getChunkPos
  set x := c.oriDataLength + c.chunkSize - 1
  have hlow := Nat.div_mul_le_self x c.chunkSize
  have hhigh := Nat.lt_div_mul_add (a := x) hcs
  have hpos : 0 < x / c.chunkSize := Nat.div_pos (by omega) hcs
  refine ⟨hpos, ?_, by omega⟩
  have := mul_add_le_mul c.chunkSize (Nat.sub_lt hpos Nat.one_pos)
  omega

theorem isAppendChunk_iff (hcs : 0 < c.chunkSize) (hori : 0 < c.oriDataLength) :
    c.isAppendChunk p = true ↔ c.storedCount ≤ p := by
  obtain ⟨hpos, hlast, hle⟩ := storedCount_spec hcs hori
  rw [ObLobCursor.isAppendChunk, decide_eq_true_iff, ObLobCursor.getChunkOffset]
  constructor
  · intro h
    by_contra hlt
    have := Nat.mul_le_mul_right c.chunkSize (show p ≤ c.storedCount - 1 by omega)
    omega
  · intro h
    have := Nat.mul_le_mul_right c.chunkSize h
    omega

theorem Laid.storedCount_spec (h : Laid L c a) :
    0 < c.storedCount ∧ (c.storedCount - 1) * c.chunkSize < c.oriDataLength ∧
      c.oriDataLength ≤ c.storedCount * c.chunkSize :=
  Lob.storedCount_spec h.chunkSize_pos h.ori_pos

/-- A stored chunk starts within the bytes. -/
theorem Laid.lt_length (h : Laid L c a) (hp : p < c.storedCount) : p * c.chunkSize < a.length := by
  obtain ⟨-, hlast, -⟩ := h.storedCount_spec
  have := Nat.mul_le_mul_right c.chunkSize (show p ≤ c.storedCount - 1 by omega)
  have := h.ori_le
  omega

/-- Chunks in front of the last stored one are full. -/
theorem Laid.le_length (h : Laid L c a) (hp : p + 1 < c.storedCount) :
    p * c.chunkSize + c.chunkSize ≤ a.length := by
  have := h.lt_length hp
  rw [Nat.succ_mul] at this
  omega

theorem Laid.endByte_le (h : Laid L c a) (hI : I.2 ≤ c.storedCount) :
    endByte c.chunkSize c.storedCount a.length I ≤ a.length := by
  unfold endByte
  split_ifs with hlast
  · exact le_rfl
  · exact (h.lt_length (by omega)).le

theorem Laid.length_areaBytes (h : Laid L c a) (hI : I.2 ≤ c.storedCount) :
    (areaBytes c.chunkSize c.storedCount a I).length =
      endByte c.chunkSize c.storedCount a.length I - I.1 * c.chunkSize := by
  have := h.endByte_le hI
  rw [areaBytes, length_take, length_drop]
  omega

theorem chunkEnd_le (hp : p < I.2) :
    min (p * c.chunkSize + c.chunkSize) a.length ≤
      endByte c.chunkSize c.storedCount a.length I := by
  unfold endByte
  split_ifs with hlast
  · omega
  · have := mul_add_le_mul c.chunkSize hp
    omega

theorem Laid.lt_endByte (h : Laid L c a) (hp : p < I.2) (hI : I.2 ≤ c.storedCount) :
    p * c.chunkSize < endByte c.chunkSize c.storedCount a.length I := by
  have := chunkEnd_le (c := c) (a := a) hp
  have := h.lt_length (show p < c.storedCount by omega)
  have := h.chunkSize_pos
  omega

/-- The area of an entry. -/
theorem Laid.getElem?_data (h : Laid L c a) (hk : L[k]? = some I) :
    c.data[k]? = some (areaBytes c.chunkSize c.storedCount a I) := by
  rw [h.data, getElem?_map, hk]
  rfl

/-- Reading in an area is reading in the bytes. -/
theorem Laid.readData (h : Laid L c a) (hk : L[k]? = some I) {x len : ℕ}
    (hx : I.1 * c.chunkSize ≤ x) (hlen : x + len ≤ endByte c.chunkSize c.storedCount a.length I) :
    c.readData k (x - I.1 * c.chunkSize) len = .ok ((a.drop x).take len) := by
  have hlength := h.length_areaBytes (h.bounds k I hk).2
  have hmin : min len (endByte c.chunkSize c.storedCount a.length I - I.1 * c.chunkSize -
      (x - I.1 * c.chunkSize)) = len := by
    omega
  unfold ObLobCursor.readData ObLobCursor.chunkData
  rw [h.getElem?_data hk]
  show (if _ then _ else _) = _
  rw [if_pos (by rw [hlength]; omega), areaBytes, drop_take, drop_drop, take_take,
    hmin, show I.1 * c.chunkSize + (x - I.1 * c.chunkSize) = x by omega]

/-- A chunk read from its area. -/
theorem Laid.readData_entry (h : Laid L c a) (he : Entry L c p j k I ix) (hp : p < c.storedCount)
    (hlen : ix.byteLen = c.chunkLen a.length p) :
    c.readData ix.dataIdx ix.pos ix.byteLen = .ok (chunkAt c.chunkSize a p) := by
  have hw := he.within
  rw [min_eq_left (by omega)] at hw
  have hlt := h.lt_length hp
  have hle := Nat.mul_le_mul_right c.chunkSize hw.1
  have hend := chunkEnd_le (c := c) (a := a) hw.2
  have hlen' : ix.byteLen = min c.chunkSize (a.length - p * c.chunkSize) := by
    rw [hlen, ObLobCursor.chunkLen, if_pos hp]
  have hread := h.readData he.area hle (show p * c.chunkSize + ix.byteLen ≤ _ by omega)
  rw [he.dataIdx, he.pos, Nat.sub_mul, hread, chunkAt, hlen', ← length_drop]
  exact congrArg Except.ok take_eq_take_min.symm

/-- An entry in an area that is known. -/
theorem Laid.entry_unique (h : Laid L c a) {k' : ℕ} {I' : ℕ × ℕ} (he : Entry L c p j k I ix)
    (hk' : L[k']? = some I') (hw : Within (min p (c.storedCount - 1)) I') : k' = k ∧ I' = I := by
  have hk := h.disjoint _ _ _ _ _ hk' he.area hw he.within
  subst hk
  exact ⟨rfl, Option.some.inj (hk'.symm.trans he.area)⟩

end Positions

/-! ### Finding a chunk -/

/-- A cursor in which more chunks are fetched. -/
structure Grows (L : List (ℕ × ℕ)) (c : ObLobCursor) (L' : List (ℕ × ℕ)) (c' : ObLobCursor) :
    Prop where
  chunkSize : c'.chunkSize = c.chunkSize
  ori : c'.oriDataLength = c.oriDataLength
  length : c'.dataLength = c.dataLength
  oldData : c'.oldData = c.oldData
  buffer : c'.updateBuffer = c.updateBuffer
  layout : ∀ (k : ℕ) I, L[k]? = some I → L'[k]? = some I
  search : ∀ p j, c.searchMap p = some j → c'.searchMap p = some j
  index : ∀ (j : ℕ) ix, c.index[j]? = some ix → c'.index[j]? = some ix

namespace Grows

variable {L L' L'' : List (ℕ × ℕ)} {c c' c'' : ObLobCursor}

theorem refl (L : List (ℕ × ℕ)) (c : ObLobCursor) : Grows L c L c :=
  ⟨rfl, rfl, rfl, rfl, rfl, fun _ _ h => h, fun _ _ h => h, fun _ _ h => h⟩

theorem trans (h : Grows L c L' c') (h' : Grows L' c' L'' c'') : Grows L c L'' c'' where
  chunkSize := h'.chunkSize.trans h.chunkSize
  ori := h'.ori.trans h.ori
  length := h'.length.trans h.length
  oldData := h'.oldData.trans h.oldData
  buffer := h'.buffer.trans h.buffer
  layout k I hk := h'.layout k I (h.layout k I hk)
  search p j hp := h'.search p j (h.search p j hp)
  index j ix hj := h'.index j ix (h.index j ix hj)

theorem storedCount (h : Grows L c L' c') : c'.storedCount = c.storedCount := by
  rw [ObLobCursor.storedCount, ObLobCursor.storedCount, ObLobCursor.getChunkPos,
    ObLobCursor.getChunkPos, h.ori, h.chunkSize]

theorem entry (h : Grows L c L' c') {p j k : ℕ} {I : ℕ × ℕ} {ix : ObLobChunkIndex}
    (he : Entry L c p j k I ix) : Entry L' c' p j k I ix where
  search := h.search p j he.search
  area := h.layout k I he.area
  within := h.storedCount ▸ he.within
  index := h.index j ix he.index
  offset := h.chunkSize ▸ he.offset
  pos := h.chunkSize ▸ he.pos
  dataIdx := he.dataIdx
  isAdd := h.storedCount ▸ he.isAdd
  seqId := h.storedCount ▸ he.seqId

end Grows

/-- The cursor after a chunk is fetched. -/
def fetched (c : ObLobCursor) (p : ℕ) (lobData : List UInt8) : ObLobCursor :=
  { c with
    data := c.data ++ [lobData]
    index := c.index ++
      [{ seqId := some p, offset := p * c.chunkSize, byteLen := lobData.length,
         dataIdx := c.data.length }]
    searchMap := Function.update c.searchMap p (some c.index.length) }

section Fetch

variable {L : List (ℕ × ℕ)} {c : ObLobCursor} {a orig : List UInt8} {p : ℕ}

theorem searchMap_fetched_self (c : ObLobCursor) (p : ℕ) (lobData : List UInt8) :
    (fetched c p lobData).searchMap p = some c.index.length :=
  Function.update_self ..

theorem searchMap_fetched_of_ne {q : ℕ} (h : q ≠ p) (lobData : List UInt8) :
    (fetched c p lobData).searchMap q = c.searchMap q :=
  Function.update_of_ne h ..

theorem grows_fetched (hp : c.searchMap p = none) (lobData : List UInt8) :
    Grows L c (L ++ [(p, p + 1)]) (fetched c p lobData) where
  chunkSize := rfl
  ori := rfl
  length := rfl
  oldData := rfl
  buffer := rfl
  layout k I hk := by
    rw [getElem?_append_left (List.getElem?_eq_some_iff.mp hk).1, hk]
  search q j hq := by
    have hne : q ≠ p := fun heq => by simp [heq, hp] at hq
    rw [searchMap_fetched_of_ne hne, hq]
  index j ix hj := by
    rw [fetched, getElem?_append_left (List.getElem?_eq_some_iff.mp hj).1, hj]

/-- Without added chunks the last stored one is the end. -/
theorem Laid.length_le_of_free (h : Laid L c a) (hp : c.searchMap p = none)
    (hlast : p + 1 = c.storedCount) : a.length ≤ c.storedCount * c.chunkSize := by
  by_contra hlt
  obtain ⟨j, hj⟩ := Option.isSome_iff_exists.mp (h.appended.mpr (by omega))
  obtain ⟨k, I, ix, he⟩ := h.entry _ j le_rfl hj
  have hwithin := he.within
  rw [min_eq_right (by omega), ← hlast, Nat.add_sub_cancel] at hwithin
  exact h.free p (by omega) hp k I he.area hwithin

/-- The area of one chunk. -/
theorem Laid.areaBytes_single (h : Laid L c a) (hp : c.searchMap p = none) :
    areaBytes c.chunkSize c.storedCount a (p, p + 1) = chunkAt c.chunkSize a p := by
  unfold areaBytes chunkAt endByte
  dsimp only
  split_ifs with hlast
  · have hle := h.length_le_of_free hp hlast
    rw [← hlast, Nat.succ_mul] at hle
    rw [take_of_length_le (by rw [length_drop]),
      take_of_length_le (by rw [length_drop]; omega)]
  · rw [Nat.succ_mul, Nat.add_sub_cancel_left]

/-- What an entry of the fetched cursor is. -/
theorem searchMap_fetched {q j : ℕ} {lobData : List UInt8}
    (hq : (fetched c p lobData).searchMap q = some j) :
    (q = p ∧ j = c.index.length) ∨ (q ≠ p ∧ c.searchMap q = some j) := by
  by_cases heq : q = p
  · subst heq
    rw [searchMap_fetched_self] at hq
    exact .inl ⟨rfl, (Option.some.inj hq).symm⟩
  · rw [searchMap_fetched_of_ne heq] at hq
    exact .inr ⟨heq, hq⟩

theorem getElem?_append_singleton {α : Type*} {l : List α} {k : ℕ} {x y : α}
    (hk : (l ++ [y])[k]? = some x) : (k = l.length ∧ x = y) ∨ (k < l.length ∧ l[k]? = some x) := by
  rcases Nat.lt_or_ge k l.length with hlt | hge
  · rw [getElem?_append_left hlt] at hk
    exact .inr ⟨hlt, hk⟩
  · rw [getElem?_append_right hge, getElem?_singleton] at hk
    split_ifs at hk with hzero
    exact .inl ⟨by omega, (Option.some.inj hk).symm⟩

theorem getElem?_index_fetched {j : ℕ} {ix : ObLobChunkIndex} {lobData : List UInt8}
    (hj : (fetched c p lobData).index[j]? = some ix) :
    (j = c.index.length ∧ ix = ⟨some p, p * c.chunkSize, 0, lobData.length, false, false,
      c.data.length, none⟩) ∨ (j < c.index.length ∧ c.index[j]? = some ix) := by
  exact getElem?_append_singleton hj

/-- The new entry. -/
theorem Laid.entry_fetched (h : Laid L c a) (hlt : p < c.storedCount) (lobData : List UInt8) :
    Entry (L ++ [(p, p + 1)]) (fetched c p lobData) p c.index.length c.data.length (p, p + 1)
      ⟨some p, p * c.chunkSize, 0, lobData.length, false, false, c.data.length, none⟩ where
  search := searchMap_fetched_self c p lobData
  area := by
    have hlen : c.data.length = L.length := by rw [h.data, length_map]
    rw [hlen, getElem?_append_right le_rfl, Nat.sub_self]
    rfl
  within := by
    show Within (min p (c.storedCount - 1)) _
    rw [min_eq_left (by omega)]
    exact ⟨le_rfl, Nat.lt_succ_self p⟩
  index := by
    rw [fetched, getElem?_append_right le_rfl, Nat.sub_self]
    rfl
  offset := rfl
  pos := by simp
  dataIdx := rfl
  isAdd := by
    have hne : ¬ p = (fetched c p lobData).storedCount := by
      show ¬ p = c.storedCount
      omega
    rw [decide_eq_false hne]
  seqId := by
    have hne : ¬ p = (fetched c p lobData).storedCount := by
      show ¬ p = c.storedCount
      omega
    rw [if_neg hne]

theorem Laid.fetched (h : Laid L c a) (hlt : p < c.storedCount) (hp : c.searchMap p = none) :
    Laid (L ++ [(p, p + 1)]) (fetched c p (chunkAt c.chunkSize a p)) a where
  chunkSize_pos := h.chunkSize_pos
  ori_pos := h.ori_pos
  ori_le := h.ori_le
  data := by
    show c.data ++ [_] = _
    rw [map_append, h.data, map_singleton]
    exact congrArg (fun x => _ ++ [x]) (h.areaBytes_single hp).symm
  bounds k I hk := by
    show (I = (0, 0) ∨ I.1 < I.2) ∧ I.2 ≤ c.storedCount
    rcases getElem?_append_singleton hk with ⟨-, rfl⟩ | ⟨-, hk⟩
    · exact ⟨.inr (Nat.lt_succ_self p), hlt⟩
    · exact h.bounds k I hk
  disjoint k k' I I' i hk hk' hi hi' := by
    rcases getElem?_append_singleton hk with ⟨rfl, rfl⟩ | ⟨-, hk1⟩ <;>
      rcases getElem?_append_singleton hk' with ⟨rfl, rfl⟩ | ⟨-, hk2⟩
    · rfl
    · obtain rfl : i = p := by
        have := hi.1
        have := hi.2
        omega
      exact absurd hi' (h.free i hlt hp k' I' hk2)
    · obtain rfl : i = p := by
        have := hi'.1
        have := hi'.2
        omega
      exact absurd hi (h.free i hlt hp k I hk1)
    · exact h.disjoint _ _ _ _ _ hk1 hk2 hi hi'
  entry q j hq hj := by
    rcases searchMap_fetched hj with ⟨rfl, rfl⟩ | ⟨-, hj⟩
    · exact ⟨_, _, _, h.entry_fetched hlt _⟩
    · obtain ⟨k, I, ix, he⟩ := h.entry q j hq hj
      exact ⟨k, I, ix, (grows_fetched hp _).entry he⟩
  free q hq hnone k I hk hw := by
    have hne : q ≠ p := by
      rintro rfl
      rw [searchMap_fetched_self] at hnone
      cases hnone
    rw [searchMap_fetched_of_ne hne] at hnone
    rcases getElem?_append_singleton hk with ⟨-, rfl⟩ | ⟨-, hk⟩
    · have := hw.1
      have := hw.2
      omega
    · exact h.free q hq hnone k I hk hw
  appended := by
    have hne : c.storedCount ≠ p := by omega
    show ((Lob.fetched c p _).searchMap c.storedCount).isSome ↔ _
    rw [searchMap_fetched_of_ne hne]
    exact h.appended
  indexed j ix hj := by
    rcases getElem?_index_fetched hj with ⟨rfl, rfl⟩ | ⟨-, hj⟩
    · show (Lob.fetched c p _).searchMap (p * c.chunkSize / c.chunkSize) = _ ∧
        p * c.chunkSize / c.chunkSize ≤ c.storedCount
      rw [Nat.mul_div_cancel _ h.chunkSize_pos, searchMap_fetched_self]
      exact ⟨rfl, hlt.le⟩
    · obtain ⟨hsearch, hle⟩ := h.indexed j ix hj
      exact ⟨(@grows_fetched L c p hp _).search _ _ hsearch, hle⟩
  buffer k hk := by
    obtain ⟨I, hI, hw⟩ := h.buffer k hk
    exact ⟨I, (grows_fetched hp (chunkAt c.chunkSize a p)).layout k I hI, hw⟩

/-- What can be read is still there when the areas are. -/
theorem readData_of_data {c' : ObLobCursor} {k pos len : ℕ} {bytes : List UInt8}
    (hdata : ∀ d, c.data[k]? = some d → c'.data[k]? = some d)
    (h : c.readData k pos len = .ok bytes) : c'.readData k pos len = .ok bytes := by
  unfold ObLobCursor.readData ObLobCursor.chunkData at h ⊢
  rcases hd : c.data[k]? with - | d
  · rw [hd] at h
    cases h
  · rw [hdata d hd]
    rw [hd] at h
    exact h

theorem OldEntry.mono {c' : ObLobCursor} {q : ℕ} {ix : ObLobChunkIndex} (h : OldEntry orig c q ix)
    (hcs : c'.chunkSize = c.chunkSize)
    (hdata : ∀ (k : ℕ) d, c.data[k]? = some d → c'.data[k]? = some d)
    (hold : ∀ (o : ℕ) d, c.oldData[o]? = some d → c'.oldData[o]? = some d) :
    OldEntry orig c' q ix := by
  unfold OldEntry at h ⊢
  rw [hcs]
  rcases ho : ix.oldDataIdx with - | o <;> rw [ho] at h
  · exact ⟨h.1, readData_of_data (hdata _) h.2⟩
  · exact ⟨h.1, hold o _ h.2⟩

theorem Refines.fetched (h : Refines orig L c a) (hlt : p < c.storedCount)
    (hp : c.searchMap p = none) :
    Refines orig (L ++ [(p, p + 1)]) (fetched c p (chunkAt c.chunkSize a p)) a := by
  have hlaid := h.laid.fetched hlt hp
  have hentry := h.laid.entry_fetched hlt (chunkAt c.chunkSize a p)
  refine ⟨hlaid, fun q j ix hq hne hsearch hj => ?_, ⟨fun q j ix hq hsearch hj => ?_,
    fun q hq hnone => ?_⟩, h.ori, h.length, ?_, h.stored⟩
  · rcases searchMap_fetched hsearch with ⟨rfl, rfl⟩ | ⟨-, hsearch⟩
    · cases hentry.index.symm.trans hj
      show (chunkAt c.chunkSize a q).length = c.chunkLen a.length q
      rw [length_chunkAt, ObLobCursor.chunkLen, if_pos hlt]
    · obtain ⟨k, I, ix', he⟩ := h.laid.entry q j hq hsearch
      cases ((grows_fetched hp (chunkAt c.chunkSize a p)).entry he).index.symm.trans hj
      exact h.lens q j ix hq hne hsearch he.index
  · rcases searchMap_fetched hsearch with ⟨rfl, rfl⟩ | ⟨-, hsearch⟩
    · cases hentry.index.symm.trans hj
      refine ⟨rfl, ?_⟩
      rw [hlaid.readData_entry hentry hlt]
      · exact congrArg Except.ok (h.old.unfetched q hlt hp)
      · show (chunkAt c.chunkSize a q).length = c.chunkLen a.length q
        rw [length_chunkAt, ObLobCursor.chunkLen, if_pos hlt]
    · obtain ⟨k, I, ix', he⟩ := h.laid.entry q j hq.le hsearch
      cases ((grows_fetched hp (chunkAt c.chunkSize a p)).entry he).index.symm.trans hj
      refine (h.old.entry q j ix hq hsearch he.index).mono rfl (fun k d hd => ?_)
        (fun o d hd => hd)
      exact (getElem?_append_left (List.getElem?_eq_some_iff.mp hd).1).trans hd
  · have hne : q ≠ p := by
      rintro rfl
      rw [searchMap_fetched_self] at hnone
      cases hnone
    rw [searchMap_fetched_of_ne hne] at hnone
    exact h.old.unfetched q hq hnone
  · show ((c.data ++ [_]).map List.length).sum = ((c.index ++ [_]).map _).sum
    simp only [map_append, sum_append, h.sum, map_singleton]

/-- **A chunk is found**, or fetched into an area of its own. -/
theorem Refines.getChunkIdx (h : Refines orig L c a) (hp : p * c.chunkSize < a.length) :
    ∃ j L' c', c.getChunkIdx p = .ok (j, c') ∧ Refines orig L' c' a ∧ Grows L c L' c' ∧
      c'.searchMap (min p c.storedCount) = some j := by
  have hcs := h.laid.chunkSize_pos
  have happend := @isAppendChunk_iff c p hcs h.laid.ori_pos
  unfold ObLobCursor.getChunkIdx
  by_cases hadd : c.storedCount ≤ p
  · rw [if_pos (happend.mpr hadd), min_eq_right hadd]
    have hlen : c.storedCount * c.chunkSize < a.length :=
      lt_of_le_of_lt (Nat.mul_le_mul_right _ hadd) hp
    obtain ⟨j, hj⟩ := Option.isSome_iff_exists.mp (h.laid.appended.mpr hlen)
    change c.searchMap (c.getChunkPos (c.oriDataLength + c.chunkSize - 1)) = some j at hj
    refine ⟨j, L, c, ?_, h, .refl L c, hj⟩
    rw [hj]
  · rw [if_neg (mt happend.mp hadd), min_eq_left (by omega)]
    rcases hsearch : c.searchMap p with - | j
    · have hlt : p < c.storedCount := by omega
      have hstored : c.fetchMeta p = some (chunkAt c.chunkSize a p) := by
        have hcount : p < (orig.length + c.chunkSize - 1) / c.chunkSize := by
          rw [← h.ori]
          exact hlt
        rw [h.stored, getElem?_chunks hcount, h.old.unfetched p hlt hsearch]
      have hne : ¬ (chunkAt c.chunkSize a p).length ≤ 0 := by
        rw [length_chunkAt]
        omega
      refine ⟨c.index.length, _, _, ?_, h.fetched hlt hsearch, grows_fetched hsearch _,
        searchMap_fetched_self c p _⟩
      rw [hstored]
      dsimp only
      rw [if_neg hne]
      unfold ObLobCursor.pushChunkIndex
      dsimp only
      rw [Nat.mul_div_cancel _ hcs, hsearch, length_append, length_singleton,
        Nat.add_sub_cancel]
      show Except.ok (_, _) = Except.ok (_, _)
      rw [length_append, length_singleton, Nat.add_sub_cancel]
      rfl
    · exact ⟨j, L, c, rfl, h, .refl L c, hsearch⟩

/-- The chunk index of a position, with its area. -/
theorem Refines.getChunk (h : Refines orig L c a) (hp : p * c.chunkSize < a.length) :
    ∃ j k I ix L' c',
      c.getChunk p = .ok (ix, areaBytes c.chunkSize c.storedCount a I, c') ∧
      Refines orig L' c' a ∧ Grows L c L' c' ∧ Entry L' c' (min p c.storedCount) j k I ix := by
  obtain ⟨j, L', c', hidx, href, hgrows, hsearch⟩ := h.getChunkIdx hp
  have hcount := hgrows.storedCount
  obtain ⟨k, I, ix, he⟩ := href.laid.entry _ j (hcount ▸ min_le_right _ _) hsearch
  refine ⟨j, k, I, ix, L', c', ?_, href, hgrows, he⟩
  have hdata := href.laid.getElem?_data he.area
  rw [hgrows.chunkSize, hcount] at hdata
  simp only [ObLobCursor.getChunk, hidx, ObLobCursor.chunkIndex, ObLobCursor.chunkData,
    bind, Except.bind, he.index, he.dataIdx, hdata]

end Fetch

end Andl.Lob
