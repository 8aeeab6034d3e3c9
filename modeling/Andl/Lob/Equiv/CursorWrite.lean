import Andl.Lob.Equiv.CursorMerge

/-!
# Reading from and writing to a LOB cursor
-/

namespace Andl.Lob

open List

/-! ### Recording old data -/

/-- A chunk index without what is recorded in it. -/
def ObLobChunkIndex.place (ix : ObLobChunkIndex) : ObLobChunkIndex :=
  { ix with isModified := false, oldDataIdx := none }

/-- The cursor after old data of some chunks was recorded. -/
structure Marks (c c' : ObLobCursor) : Prop where
  chunkSize : c'.chunkSize = c.chunkSize
  ori : c'.oriDataLength = c.oriDataLength
  length : c'.dataLength = c.dataLength
  search : c'.searchMap = c.searchMap
  data : c'.data = c.data
  buffer : c'.updateBuffer = c.updateBuffer
  stored : c'.fetchMeta = c.fetchMeta
  place : c'.index.map ObLobChunkIndex.place = c.index.map ObLobChunkIndex.place
  recorded : ∀ (j : ℕ) ix ix', c.index[j]? = some ix → c'.index[j]? = some ix' →
    ix.oldDataIdx.isSome → ix'.oldDataIdx.isSome

/-- The old data of the stored chunks from `s` to `e` is recorded. -/
def Recorded (c : ObLobCursor) (s e : ℕ) : Prop :=
  ∀ (p j : ℕ) ix, s ≤ p → p < e → p < c.storedCount → c.searchMap p = some j →
    c.index[j]? = some ix → ix.oldDataIdx.isSome

theorem ObLobChunkIndex.eq_of_place {ix ix' : ObLobChunkIndex} (h : ix.place = ix'.place) :
    ∃ isModified oldDataIdx,
      ix' = { ix with isModified := isModified, oldDataIdx := oldDataIdx } := by
  simp only [place, mk.injEq] at h
  obtain ⟨h1, h2, h3, h4, h5, -, h6, -⟩ := h
  refine ⟨ix'.isModified, ix'.oldDataIdx, ?_⟩
  rw [h1, h2, h3, h4, h5, h6]

namespace Marks

variable {L : List (ℕ × ℕ)} {c c' c'' : ObLobCursor} {a orig : List UInt8} {p j k : ℕ}
  {I : ℕ × ℕ} {ix ix' : ObLobChunkIndex}

theorem storedCount (h : Marks c c') : c'.storedCount = c.storedCount := by
  rw [ObLobCursor.storedCount, ObLobCursor.storedCount, ObLobCursor.getChunkPos,
    ObLobCursor.getChunkPos, h.ori, h.chunkSize]

theorem chunkLen (h : Marks c c') (length p : ℕ) : c'.chunkLen length p = c.chunkLen length p := by
  rw [ObLobCursor.chunkLen, ObLobCursor.chunkLen, h.storedCount, h.chunkSize]

/-- Each chunk index is still in its place. -/
theorem getElem? (h : Marks c c') (hj : c'.index[j]? = some ix') :
    ∃ ix, c.index[j]? = some ix ∧ ∃ isModified oldDataIdx,
      ix' = { ix with isModified := isModified, oldDataIdx := oldDataIdx } := by
  have hmap := congrArg (·[j]?) h.place
  simp only [getElem?_map, hj, Option.map_some] at hmap
  obtain ⟨ix, hix, hplace⟩ := Option.map_eq_some_iff.mp hmap.symm
  exact ⟨ix, hix, ObLobChunkIndex.eq_of_place hplace⟩

theorem getElem?_of (h : Marks c c') (hj : c.index[j]? = some ix) :
    ∃ isModified oldDataIdx,
      c'.index[j]? = some { ix with isModified := isModified, oldDataIdx := oldDataIdx } := by
  have hmap := congrArg (·[j]?) h.place
  simp only [getElem?_map, hj, Option.map_some] at hmap
  obtain ⟨ix', hix', hplace⟩ := Option.map_eq_some_iff.mp hmap
  obtain ⟨isModified, oldDataIdx, rfl⟩ := ObLobChunkIndex.eq_of_place hplace.symm
  exact ⟨isModified, oldDataIdx, hix'⟩

theorem refl (c : ObLobCursor) : Marks c c where
  chunkSize := rfl
  ori := rfl
  length := rfl
  search := rfl
  data := rfl
  buffer := rfl
  stored := rfl
  place := rfl
  recorded j ix ix' hj hj' hold := by
    cases hj.symm.trans hj'
    exact hold

section

variable (h : Marks c c')
include h

theorem trans (h' : Marks c' c'') : Marks c c'' where
  chunkSize := h'.chunkSize.trans h.chunkSize
  ori := h'.ori.trans h.ori
  length := h'.length.trans h.length
  search := h'.search.trans h.search
  data := h'.data.trans h.data
  buffer := h'.buffer.trans h.buffer
  stored := h'.stored.trans h.stored
  place := h'.place.trans h.place
  recorded j ix ix'' hj hj'' hold := by
    obtain ⟨_, _, hj'⟩ := h.getElem?_of hj
    exact h'.recorded j _ ix'' hj' hj'' (h.recorded j ix _ hj hj' hold)

theorem entry (he : Entry L c p j k I ix) : ∃ ix', Entry L c' p j k I ix' := by
  obtain ⟨isModified, oldDataIdx, hj⟩ := h.getElem?_of he.index
  exact ⟨_, h.search ▸ he.search, he.area, h.storedCount ▸ he.within, hj, h.chunkSize ▸ he.offset,
    h.chunkSize ▸ he.pos, he.dataIdx, h.storedCount ▸ he.isAdd, h.storedCount ▸ he.seqId⟩

theorem arranged (ha : Arranged L c) : Arranged L c' where
  chunkSize_pos := h.chunkSize ▸ ha.chunkSize_pos
  ori_pos := h.ori ▸ ha.ori_pos
  bounds := h.storedCount ▸ ha.bounds
  disjoint := ha.disjoint
  entry p j hp hj := by
    rw [h.storedCount] at hp
    rw [h.search] at hj
    obtain ⟨k, I, ix, he⟩ := ha.entry p j hp hj
    exact ⟨k, I, h.entry he⟩
  free p hp hnone := ha.free p (h.storedCount ▸ hp) (h.search ▸ hnone)
  indexed j ix' hj := by
    obtain ⟨ix, hix, _, _, rfl⟩ := h.getElem? hj
    rw [h.chunkSize, h.search, h.storedCount]
    exact ha.indexed j ix hix
  buffer k hk := by
    rw [h.storedCount]
    exact ha.buffer k (h.buffer.symm.trans hk)

theorem laid (ha : Laid L c a) : Laid L c' a where
  toArranged := h.arranged ha.toArranged
  ori_le := h.ori ▸ ha.ori_le
  data := by rw [h.data, h.chunkSize, h.storedCount, ha.data]
  appended := by
    rw [h.search, h.chunkSize, h.storedCount]
    exact ha.appended

theorem lens {length : ℕ} {except : Option ℕ} (hl : Lens c length except) :
    Lens c' length except := by
  intro p j ix' hp hne hsearch hj
  obtain ⟨ix, hix, _, _, rfl⟩ := h.getElem? hj
  rw [h.chunkLen]
  exact hl p j ix (h.storedCount ▸ hp) hne (h.search ▸ hsearch) hix

theorem sum :
    (c'.index.map ObLobChunkIndex.byteLen).sum = (c.index.map ObLobChunkIndex.byteLen).sum := by
  have hmap := congrArg (List.map ObLobChunkIndex.byteLen) h.place
  rw [map_map, map_map] at hmap
  exact congrArg List.sum hmap

theorem refines (hr : Refines orig L c a) (hold : Old orig c' a) :
    Refines orig L c' a where
  laid := h.laid hr.laid
  lens := h.lens hr.lens
  old := hold
  ori := h.ori.trans hr.ori
  length := h.length.trans hr.length
  sum := by rw [h.data, h.sum, hr.sum]
  stored p := by
    rw [h.chunkSize, h.stored, hr.stored p]

theorem recorded_of {s e : ℕ} (hr : Recorded c s e) : Recorded c' s e := by
  intro p j ix' hs he hp hsearch hj
  obtain ⟨ix, hix, -⟩ := h.getElem? hj
  exact h.recorded j ix ix' hix hj (hr p j ix hs he (h.storedCount ▸ hp) (h.search ▸ hsearch) hix)

end

end Marks

section Record

variable {L : List (ℕ × ℕ)} {c : ObLobCursor} {a orig : List UInt8} {p j k : ℕ}
  {I : ℕ × ℕ} {ix : ObLobChunkIndex}

/-- A chunk index has one position. -/
theorem Arranged.search_inj (h : Arranged L c) {q : ℕ} (hp : p ≤ c.storedCount)
    (hq : q ≤ c.storedCount) (hpj : c.searchMap p = some j) (hqj : c.searchMap q = some j) :
    p = q := by
  obtain ⟨_, _, ix, he⟩ := h.entry p j hp hpj
  obtain ⟨_, _, ix', he'⟩ := h.entry q j hq hqj
  cases he.index.symm.trans he'.index
  exact Nat.eq_of_mul_eq_mul_right h.chunkSize_pos (he.offset.symm.trans he'.offset)

/-- The cursor after the old data of one chunk was recorded. -/
def markAt (c : ObLobCursor) (j : ℕ) (ix : ObLobChunkIndex) (buf : List UInt8) : ObLobCursor :=
  { c with
    oldData := c.oldData ++ [buf]
    index := c.index.set j { ix with oldDataIdx := some c.oldData.length, isModified := true } }

theorem getElem?_index_markAt {i : ℕ} {ix' : ObLobChunkIndex} {buf : List UInt8}
    (hi : (markAt c j ix buf).index[i]? = some ix') :
    (i = j ∧ ix' = { ix with oldDataIdx := some c.oldData.length, isModified := true }) ∨
      (i ≠ j ∧ c.index[i]? = some ix') := by
  rw [markAt, getElem?_set] at hi
  split_ifs at hi with heq hlen
  · exact .inl ⟨heq.symm, (Option.some.inj hi).symm⟩
  · exact .inr ⟨Ne.symm heq, hi⟩

theorem marks_markAt (hj : c.index[j]? = some ix) (buf : List UInt8) :
    Marks c (markAt c j ix buf) where
  chunkSize := rfl
  ori := rfl
  length := rfl
  search := rfl
  data := rfl
  buffer := rfl
  stored := rfl
  place := by
    refine ext_getElem? fun i => ?_
    rw [markAt, map_set, getElem?_set, getElem?_map, length_map]
    split_ifs with heq hlen
    · rw [← heq, hj]
      rfl
    · exact absurd (List.getElem?_eq_some_iff.mp hj).1 hlen
    · rfl
  recorded i x x' hx hx' hold := by
    rcases getElem?_index_markAt hx' with ⟨-, rfl⟩ | ⟨-, hx'⟩
    · rfl
    · cases hx.symm.trans hx'
      exact hold

theorem Old.markAt (h : Old orig c a) (ha : Arranged L c) (he : Entry L c p j k I ix)
    (hp : p < c.storedCount) : Old orig (markAt c j ix (chunkAt c.chunkSize orig p)) a where
  entry q i x hq hsearch hx := by
    change q < c.storedCount at hq
    change c.searchMap q = some i at hsearch
    rcases getElem?_index_markAt hx with ⟨rfl, rfl⟩ | ⟨-, hx⟩
    · obtain rfl := ha.search_inj hp.le hq.le he.search hsearch
      refine ⟨rfl, ?_⟩
      show (c.oldData ++ [_])[c.oldData.length]? = _
      rw [getElem?_append_right le_rfl, Nat.sub_self]
      rfl
    · refine (h.entry q i x hq hsearch hx).mono rfl (fun _ _ hd => hd) fun o d hd => ?_
      exact (getElem?_append_left (List.getElem?_eq_some_iff.mp hd).1).trans hd
  unfetched := h.unfetched

/-- The old data recorded for a chunk are its stored bytes. -/
theorem Old.recordChunkOldData (h : Old orig c a) (ha : Arranged L c) (hp : p ≤ c.storedCount)
    (hsearch : c.searchMap p = some j) :
    ∃ c', c.recordChunkOldData j = .ok c' ∧ Marks c c' ∧ Old orig c' a ∧ Recorded c' p (p + 1) := by
  obtain ⟨k, I, ix, he⟩ := ha.entry p j hp hsearch
  have hindex : c.chunkIndex j = .ok ix := by
    rw [ObLobCursor.chunkIndex, he.index]
  by_cases hdone : ix.oldDataIdx.isSome ∨ ix.isAdd
  · refine ⟨c, ?_, .refl c, h, fun q i x hs hlt hq hi hx => ?_⟩
    · simp only [ObLobCursor.recordChunkOldData, hindex, bind, Except.bind, if_pos hdone]
    obtain rfl : p = q := by omega
    cases he.search.symm.trans hi
    cases he.index.symm.trans hx
    rcases hdone with hold | hadd
    · exact hold
    · rw [he.isAdd, decide_eq_true_iff] at hadd
      omega
  · have hp' : p < c.storedCount := by
      refine lt_of_le_of_ne hp fun heq => hdone (.inr ?_)
      rw [he.isAdd, decide_eq_true heq]
    have hold := h.entry p j ix hp' hsearch he.index
    have hnone : ix.oldDataIdx = none := by
      rw [not_or, Bool.not_eq_true, Option.isSome_eq_false_iff, Option.isNone_iff_eq_none] at hdone
      exact hdone.1
    rw [OldEntry, hnone] at hold
    refine ⟨Lob.markAt c j ix (chunkAt c.chunkSize orig p), ?_, marks_markAt he.index _,
      h.markAt ha he hp', fun q i x hs hlt hq hi hx => ?_⟩
    · simp only [ObLobCursor.recordChunkOldData, hindex, bind, Except.bind, if_neg hdone, hold.2]
      rfl
    · obtain rfl : p = q := by omega
      cases he.search.symm.trans hi
      rcases getElem?_index_markAt hx with ⟨-, rfl⟩ | ⟨hne, -⟩
      · rfl
      · exact absurd rfl hne

theorem Recorded.cons {s e : ℕ} (h : Recorded c (min s c.storedCount) (min s c.storedCount + 1))
    (hrest : Recorded c (s + 1) e) : Recorded c s e := by
  intro q i x hs hlt hq hi hx
  by_cases heq : q = s
  · subst heq
    rw [min_eq_left (by omega)] at h
    exact h q i x le_rfl (by omega) hq hi hx
  · exact hrest q i x (by omega) hlt hq hi hx

/-- The old data of all the chunks of a range is recorded. -/
theorem Old.recordChunks (n : ℕ) (h : Old orig c a) (ha : Arranged L c)
    (hloaded : ∀ r, p ≤ r → r < p + n → (c.searchMap (min r c.storedCount)).isSome) :
    ∃ c', ObLobCursor.recordChunks c (List.range' p n) = .ok c' ∧ Marks c c' ∧ Old orig c' a ∧
      Recorded c' p (p + n) := by
  induction n generalizing c p with
  | zero => exact ⟨c, rfl, .refl c, h, fun q j ix hs hlt => by omega⟩
  | succ n ih =>
    obtain ⟨j, hj⟩ := Option.isSome_iff_exists.mp (hloaded p le_rfl (by omega))
    obtain ⟨c1, hrec, hmarks, hold, hrecorded⟩ :=
      h.recordChunkOldData ha (min_le_right _ _) hj
    obtain ⟨c', hrun, hmarks', hold', hrecorded'⟩ :=
      @ih c1 (p + 1) hold (hmarks.arranged ha) fun r hr hlt => by
        rw [hmarks.search, hmarks.storedCount]
        exact hloaded r (by omega) (by omega)
    refine ⟨c', ?_, hmarks.trans hmarks', hold', ?_⟩
    · simp only [List.range'_succ, ObLobCursor.recordChunks,
        getChunkIdx_of_search ha.chunkSize_pos ha.ori_pos hj, bind, Except.bind, hrec]
      exact hrun
    · rw [← (hmarks.trans hmarks').storedCount] at hrecorded
      exact (hmarks'.recorded_of hrecorded).cons (Nat.succ_add_eq_add_succ p n ▸ hrecorded')

end Record

/-! ### Loading a range -/

/-- The chunks from `p` to `q` are in one area. -/
def InOne (L : List (ℕ × ℕ)) (c : ObLobCursor) (p q k : ℕ) (I : ℕ × ℕ) : Prop :=
  L[k]? = some I ∧ Within (min p (c.storedCount - 1)) I ∧ Within (min q (c.storedCount - 1)) I

section Load

variable {L : List (ℕ × ℕ)} {c : ObLobCursor} {a orig : List UInt8} {p q k off len : ℕ}
  {I : ℕ × ℕ}

/-- The chunks of one area are loaded. -/
theorem Arranged.isSome_searchMap (h : Arranged L c) (hone : InOne L c p q k I)
    (happend : c.storedCount ≤ q → (c.searchMap c.storedCount).isSome) {r : ℕ} (hpr : p ≤ r)
    (hrq : r ≤ q) : (c.searchMap (min r c.storedCount)).isSome := by
  obtain ⟨hk, hfirst, hlast⟩ := hone
  rcases Nat.lt_or_ge r c.storedCount with hlt | hge
  · rw [min_eq_left hlt.le, ← Option.ne_none_iff_isSome]
    intro hnone
    refine h.free r hlt hnone k I hk ?_
    unfold Within at *
    omega
  · rw [min_eq_right hge]
    exact happend (hge.trans hrq)

theorem Laid.isSome_appended (h : Laid L c a) (hq : q * c.chunkSize < a.length)
    (hle : c.storedCount ≤ q) : (c.searchMap c.storedCount).isSome :=
  h.appended.mpr (lt_of_le_of_lt (Nat.mul_le_mul_right _ hle) hq)

theorem Refines.storedCount_eq {L' : List (ℕ × ℕ)} {c' : ObLobCursor} {a' : List UInt8}
    (h : Refines orig L c a) (h' : Refines orig L' c' a') (hcs : c'.chunkSize = c.chunkSize) :
    c'.storedCount = c.storedCount := by
  rw [ObLobCursor.storedCount, ObLobCursor.storedCount, ObLobCursor.getChunkPos,
    ObLobCursor.getChunkPos, h.ori, h'.ori, hcs]

/-- A chunk that is in no area gets one. -/
theorem Refines.load (h : Refines orig L c a) (hp : p * c.chunkSize < a.length) :
    ∃ j L' c' k I, c.getChunkIdx p = .ok (j, c') ∧ c'.getChunkIdx p = .ok (j, c') ∧
      Refines orig L' c' a ∧ Grows L c L' c' ∧ InOne L' c' p p k I := by
  obtain ⟨j, L', c', hidx, h', hgrows, hsearch⟩ := h.getChunkIdx hp
  rw [← hgrows.storedCount] at hsearch
  obtain ⟨k, I, ix, he⟩ := h'.laid.entry _ j (min_le_right _ _) hsearch
  have hw : Within (min p (c'.storedCount - 1)) I := by
    have hw := he.within
    unfold Within at *
    omega
  exact ⟨j, L', c', k, I, hidx,
    getChunkIdx_of_search h'.laid.chunkSize_pos h'.laid.ori_pos hsearch, h', hgrows, he.area, hw,
    hw⟩

theorem Refines.mergeIf (h : Refines orig L c a) (hpq : p ≤ q) (hq : q * c.chunkSize < a.length) :
    ∃ j L1 c1 L' c' k I, c.mergeIf (p ≠ q) p q = .ok c1 ∧ Refines orig L1 c1 a ∧
      c1.getChunkIdx p = .ok (j, c') ∧ c'.getChunkIdx p = .ok (j, c') ∧
      Refines orig L' c' a ∧ c'.chunkSize = c.chunkSize ∧ InOne L' c' p q k I := by
  have hp : p * c.chunkSize < a.length := lt_of_le_of_lt (Nat.mul_le_mul_right _ hpq) hq
  unfold ObLobCursor.mergeIf
  by_cases heq : p = q
  · subst heq
    obtain ⟨j, L', c', k, I, hidx, hidx', h', hgrows, hone⟩ := h.load hp
    exact ⟨j, L, c, L', c', k, I, by simp, h, hidx, hidx', h', hgrows.chunkSize, hone⟩
  · obtain ⟨L1, c1, I, k, hmerge, h1, hcs, hk, hfirst, hlast⟩ := h.mergeChunkData hpq hq
    have hcount := h.storedCount_eq h1 hcs
    rw [← hcount] at hfirst hlast
    obtain ⟨j, L', c', -, -, hidx, hidx', h', hgrows, -⟩ := h1.load (by rw [hcs]; exact hp)
    rw [← hgrows.storedCount] at hfirst hlast
    refine ⟨j, L1, c1, L', c', k, I, ?_, h1, hidx, hidx', h', hgrows.chunkSize.trans hcs,
      hgrows.layout k I hk, hfirst, hlast⟩
    rw [decide_eq_true (show p ≠ q from heq), if_pos rfl, hmerge]

/-- A range of bytes is within the area of its chunks. -/
theorem Laid.range_le (h : Laid L c a)
    (hone : InOne L c (off / c.chunkSize) ((off + len - 1) / c.chunkSize) k I) (hlen : 0 < len)
    (hend : off + len ≤ a.length) :
    I.1 * c.chunkSize ≤ off ∧ off + len ≤ endByte c.chunkSize c.storedCount a.length I := by
  obtain ⟨hk, hfirst, hlast⟩ := hone
  have hcs := h.chunkSize_pos
  constructor
  · have hle : I.1 ≤ off / c.chunkSize := hfirst.1.trans (min_le_left _ _)
    exact (Nat.mul_le_mul_right _ hle).trans (Nat.div_mul_le_self _ _)
  · unfold endByte
    split_ifs with hcount
    · exact hend
    · -- the last byte is in a chunk of the interval
      have hle := (h.bounds k I hk).2
      have hlt : (off + len - 1) / c.chunkSize < I.2 := by
        have := hlast.2
        omega
      have := (Nat.div_lt_iff_lt_mul hcs).mp hlt
      omega

/-- Where a range of bytes is found. -/
theorem Laid.ptrIn (h : Laid L c a)
    (hone : InOne L c (off / c.chunkSize) ((off + len - 1) / c.chunkSize) k I) (hlen : 0 < len)
    (hend : off + len ≤ a.length) :
    c.ptrIn (off / c.chunkSize) off len = .ok ((k, off - I.1 * c.chunkSize), c) := by
  obtain ⟨hstart, hstop⟩ := h.range_le hone hlen hend
  have hcs := h.chunkSize_pos
  have hlt : off / c.chunkSize * c.chunkSize ≤ off := Nat.div_mul_le_self _ _
  have hsome := h.isSome_searchMap hone
    (h.isSome_appended (lt_of_le_of_lt (Nat.div_mul_le_self _ _) (by omega))) le_rfl
    (Nat.div_le_div_right (by omega))
  obtain ⟨j, hj⟩ := Option.isSome_iff_exists.mp hsome
  obtain ⟨k', I', ix, he⟩ := h.entry _ j (min_le_right _ _) hj
  -- the entry is in the same area
  have hw : Within (min (min (off / c.chunkSize) c.storedCount) (c.storedCount - 1)) I := by
    have := hone.2.1
    unfold Within at *
    omega
  obtain ⟨rfl, rfl⟩ := h.entry_unique he hone.1 hw
  set p := off / c.chunkSize
  have hIp : I.1 ≤ min p c.storedCount := hw.1.trans (min_le_left _ _)
  have hmul := Nat.mul_le_mul_right c.chunkSize hIp
  have hmul' := Nat.mul_le_mul_right c.chunkSize (min_le_left p c.storedCount)
  have hlength := h.length_areaBytes (h.bounds _ _ hone.1).2
  have hchunk : c.getChunk p = .ok (ix, areaBytes c.chunkSize c.storedCount a I, c) := by
    simp only [ObLobCursor.getChunk, getChunkIdx_of_search hcs h.ori_pos hj,
      ObLobCursor.chunkIndex, ObLobCursor.chunkData, bind, Except.bind, he.index, he.dataIdx,
      h.getElem?_data hone.1]
  have hoff : c.getChunkOffset p = p * c.chunkSize := rfl
  have hpos : ix.pos + c.getChunkOffset p - ix.offset = p * c.chunkSize - I.1 * c.chunkSize := by
    rw [he.pos, he.offset, Nat.sub_mul]
    omega
  have hge : ¬ ix.pos + c.getChunkOffset p < ix.offset := by
    rw [he.pos, he.offset, Nat.sub_mul]
    omega
  simp only [ObLobCursor.ptrIn, hchunk, bind, Except.bind]
  rw [if_neg hge, hpos, hlength, if_neg (by omega), he.dataIdx]
  congr 3
  omega

theorem ptrIn_congr {c' : ObLobCursor} (h : c.getChunkIdx p = c'.getChunkIdx p) :
    c.ptrIn p off len = c'.ptrIn p off len := by
  simp only [ObLobCursor.ptrIn, ObLobCursor.getChunk, h]

theorem range_spec {cs length : ℕ} (hlen : 0 < len) (hend : off + len ≤ length) :
    off / cs ≤ (off + len - 1) / cs ∧ (off + len - 1) / cs * cs < length :=
  ⟨Nat.div_le_div_right (by omega), lt_of_le_of_lt (Nat.div_mul_le_self _ _) (by omega)⟩

/-- `get` returns the bytes of the LOB. -/
theorem Refines.get (h : Refines orig L c a) (hlen : 0 < len) (hend : off + len ≤ a.length) :
    ∃ L' c', c.get off len = .ok ((a.drop off).take len, c') ∧ Refines orig L' c' a ∧
      c'.chunkSize = c.chunkSize := by
  obtain ⟨hpq, hq⟩ := @range_spec off len c.chunkSize a.length hlen hend
  obtain ⟨j, L1, c1, L', c', k, I, hmerge, h1, hidx, hidx', h', hcs, hone⟩ := h.mergeIf hpq hq
  rw [← hcs] at hone
  obtain ⟨hstart, hstop⟩ := h'.laid.range_le hone hlen hend
  refine ⟨L', c', ?_, h', hcs⟩
  have hptr : c.getPtr off len = .ok ((k, off - I.1 * c'.chunkSize), c') := by
    change c.mergeIf (c.getChunkPos off ≠ c.getChunkPos (off + len - 1)) (c.getChunkPos off)
      (c.getChunkPos (off + len - 1)) = _ at hmerge
    simp only [ObLobCursor.getPtr, hmerge, bind, Except.bind]
    rw [← h'.laid.ptrIn hone hlen hend, hcs]
    exact ptrIn_congr (hidx.trans hidx'.symm)
  simp only [ObLobCursor.get, hptr, bind, Except.bind, h'.laid.readData hone.1 hstart hstop]

end Load

/-! ### Writing -/

/-- The cursor after bytes are written into a data area. -/
def written (c : ObLobCursor) (k x : ℕ) (b data : List UInt8) : ObLobCursor :=
  { c with data := c.data.set k (overwrite data x b) }

section Write

variable {L : List (ℕ × ℕ)} {c : ObLobCursor} {a b orig : List UInt8} {p q k off : ℕ}
  {I : ℕ × ℕ}

theorem chunkAt_overwrite {cs : ℕ} (hoff : off ≤ a.length)
    (h : p * cs + cs ≤ off ∨ off + b.length ≤ p * cs) :
    chunkAt cs (overwrite a off b) p = chunkAt cs a p := by
  unfold chunkAt
  rcases h with hbefore | hbehind
  · exact take_drop_overwrite_of_le hoff hbefore
  · rw [drop_overwrite_of_le hoff hbehind]

/-- Other areas stay as they are when bytes of one area are written. -/
theorem Laid.areaBytes_overwrite_of_ne (h : Laid L c a) {k' : ℕ} {J : ℕ × ℕ} (hk : L[k]? = some I)
    (hJ : L[k']? = some J) (hne : k' ≠ k) (hstart : I.1 * c.chunkSize ≤ off)
    (hstop : off + b.length ≤ endByte c.chunkSize c.storedCount a.length I)
    (hlt : I.1 < I.2) (hlen : (overwrite a off b).length = a.length) :
    areaBytes c.chunkSize c.storedCount (overwrite a off b) J =
      areaBytes c.chunkSize c.storedCount a J := by
  have hI := h.bounds k I hk
  have hoff : off ≤ a.length := by
    have := h.endByte_le hI.2
    omega
  obtain ⟨hnonempty, hle⟩ := h.bounds k' J hJ
  unfold areaBytes
  rw [hlen]
  rcases hnonempty with rfl | hJlt
  · have hpos := h.storedCount_spec.1
    have hend : endByte c.chunkSize c.storedCount a.length (0, 0) = 0 := by
      rw [endByte, if_neg (by omega), zero_mul]
    rw [hend, Nat.zero_sub, take_zero, take_zero]
  -- the two intervals have no chunk in common
  have hnot (i : ℕ) (hi : Within i I) : ¬ Within i J := fun hi' =>
    hne (h.disjoint _ _ _ _ _ hJ hk hi' hi)
  have hsep : J.2 ≤ I.1 ∨ I.2 ≤ J.1 := by
    have h1 := hnot I.1 ⟨le_rfl, hlt⟩
    have h2 := hnot J.1
    unfold Within at h1 h2
    omega
  rcases hsep with hbefore | hbehind
  · have hend : endByte c.chunkSize c.storedCount a.length J = J.2 * c.chunkSize :=
      if_neg (by omega)
    have hmul := Nat.mul_le_mul_right c.chunkSize hbefore
    have hmul' := Nat.mul_le_mul_right c.chunkSize hJlt.le
    exact take_drop_overwrite_of_le hoff (by omega)
  · have hend : endByte c.chunkSize c.storedCount a.length I = I.2 * c.chunkSize :=
      if_neg (by omega)
    have hmul := Nat.mul_le_mul_right c.chunkSize hbehind
    rw [drop_overwrite_of_le hoff (by omega)]

/-- The area itself is overwritten. -/
theorem areaBytes_overwrite {cs count : ℕ} (hoff : off ≤ a.length) (hstart : I.1 * cs ≤ off)
    (hstop : off + b.length ≤ endByte cs count a.length I)
    (hlen : (overwrite a off b).length = a.length) :
    areaBytes cs count (overwrite a off b) I =
      overwrite (areaBytes cs count a I) (off - I.1 * cs) b := by
  unfold areaBytes
  rw [hlen, drop_overwrite hoff hstart]
  exact take_overwrite (by rw [length_drop]; omega) (by omega)

theorem Laid.written (h : Laid L c a) (hk : L[k]? = some I) (hlt : I.1 < I.2)
    (hstart : I.1 * c.chunkSize ≤ off)
    (hstop : off + b.length ≤ endByte c.chunkSize c.storedCount a.length I)
    (hlen : (overwrite a off b).length = a.length) :
    Laid L (written c k (off - I.1 * c.chunkSize) b (areaBytes c.chunkSize c.storedCount a I))
      (overwrite a off b) where
  chunkSize_pos := h.chunkSize_pos
  ori_pos := h.ori_pos
  bounds := h.bounds
  disjoint := h.disjoint
  entry p j hp hj := by
    obtain ⟨k', I', ix, he⟩ := h.entry p j hp hj
    exact ⟨k', I', ix, ⟨he.1, he.2, he.3, he.4, he.5, he.6, he.7, he.8, he.9⟩⟩
  free := h.free
  indexed := h.indexed
  buffer := h.buffer
  ori_le := hlen ▸ h.ori_le
  appended := by
    rw [hlen]
    exact h.appended
  data := by
    have hoff : off ≤ a.length := by
      have := h.endByte_le (h.bounds k I hk).2
      omega
    show c.data.set k _ = L.map (areaBytes c.chunkSize c.storedCount _)
    refine ext_getElem? fun i => ?_
    rw [getElem?_set, getElem?_map, h.data, length_map, getElem?_map]
    split_ifs with heq hik
    · rw [← heq, hk, Option.map_some, areaBytes_overwrite hoff hstart hstop hlen]
    · exact absurd (List.getElem?_eq_some_iff.mp hk).1 hik
    · rcases hJ : L[i]? with - | J
      · rfl
      · rw [Option.map_some, Option.map_some,
          h.areaBytes_overwrite_of_ne hk hJ (Ne.symm heq) hstart hstop hlt hlen]

/-- A chunk that is not recorded has none of the bytes that are written. -/
theorem not_recorded_spec {cs n : ℕ} (hcs : 0 < cs) (hn : 0 < n)
    (hp : ¬ (off / cs ≤ p ∧ p < (off + n - 1) / cs + 1)) :
    p * cs + cs ≤ off ∨ off + n ≤ p * cs := by
  rcases Nat.lt_or_ge p (off / cs) with hlt | hge
  · exact .inl ((mul_add_le_mul cs hlt).trans (Nat.div_mul_le_self off cs))
  · have := (Nat.div_lt_iff_lt_mul hcs).mp (show (off + n - 1) / cs < p by omega)
    omega

/-- Bytes written into one area whose old data is recorded are written to the LOB. -/
theorem Refines.writeData (h : Refines orig L c a) (hb : 0 < b.length)
    (hend : off + b.length ≤ a.length)
    (hone : InOne L c (off / c.chunkSize) ((off + b.length - 1) / c.chunkSize) k I)
    (hrec : Recorded c (off / c.chunkSize) ((off + b.length - 1) / c.chunkSize + 1)) :
    ∃ c', c.writeData k (off - I.1 * c.chunkSize) b = .ok c' ∧
      Refines orig L c' (overwrite a off b) ∧ c'.chunkSize = c.chunkSize := by
  obtain ⟨hstart, hstop⟩ := h.laid.range_le hone hb hend
  have hbounds := h.laid.bounds _ _ hone.1
  have hlt : I.1 < I.2 := lt_of_le_of_lt hone.2.1.1 hone.2.1.2
  have hlen : (overwrite a off b).length = a.length := by
    rw [length_overwrite (by omega), max_eq_left hend]
  have hlaid := h.laid.written hone.1 hlt hstart hstop hlen
  have hlens : Lens (Lob.written c k (off - I.1 * c.chunkSize) b
      (areaBytes c.chunkSize c.storedCount a I)) (overwrite a off b).length none := by
    rw [hlen]
    exact h.lens
  refine ⟨_, ?_, ⟨hlaid, hlens, ⟨fun p j ix hp hsearch hj => ?_, fun p hp hnone => ?_⟩, h.ori,
    h.length.trans hlen.symm, ?_, h.stored⟩, rfl⟩
  · have hlength := h.laid.length_areaBytes hbounds.2
    simp only [ObLobCursor.writeData, ObLobCursor.chunkData, h.laid.getElem?_data hone.1, bind,
      Except.bind]
    rw [if_pos (by rw [hlength]; omega)]
    rfl
  · have hold := h.old.entry p j ix hp hsearch hj
    unfold OldEntry at hold ⊢
    rcases ho : ix.oldDataIdx with - | o <;> rw [ho] at hold
    · obtain ⟨k', I', ix', he⟩ := h.laid.entry p j hp.le hsearch
      obtain ⟨k1, I1, ix1, he1⟩ := hlaid.entry p j hp.le hsearch
      cases he.index.symm.trans hj
      cases he1.index.symm.trans hj
      have hlens0 := h.lens p j ix hp.le (by simp) hsearch hj
      have horig : chunkAt c.chunkSize a p = chunkAt c.chunkSize orig p :=
        Except.ok.inj ((h.laid.readData_entry he hp hlens0).symm.trans hold.2)
      have hnot : ¬ (off / c.chunkSize ≤ p ∧ p < (off + b.length - 1) / c.chunkSize + 1) := by
        rintro ⟨hfirst, hlast⟩
        have := hrec p j ix hfirst hlast hp hsearch hj
        simp [ho] at this
      refine ⟨hold.1, (hlaid.readData_entry he1 hp (hlens p j ix hp.le (by simp) hsearch hj)).trans
        (congrArg Except.ok ?_)⟩
      exact (chunkAt_overwrite (by omega)
        (not_recorded_spec h.laid.chunkSize_pos hb hnot)).trans horig
    · exact hold
  · -- a chunk that was not fetched is not in the area
    refine (chunkAt_overwrite (by omega) ?_).trans (h.old.unfetched p hp hnone)
    have hfree := h.laid.free p hp hnone k I hone.1
    show p * c.chunkSize + c.chunkSize ≤ off ∨ off + b.length ≤ p * c.chunkSize
    rcases Nat.lt_or_ge p I.1 with hlt' | hge
    · exact .inl ((mul_add_le_mul _ hlt').trans hstart)
    · have hle : I.2 ≤ p := by
        unfold Within at hfree
        omega
      change p < c.storedCount at hp
      have hmul := Nat.mul_le_mul_right c.chunkSize hle
      rw [endByte, if_neg (by omega)] at hstop
      exact .inr (hstop.trans hmul)
  · refine Eq.trans ?_ h.sum
    have hsum := sum_map_set List.length (h.laid.getElem?_data hone.1)
      (overwrite (areaBytes c.chunkSize c.storedCount a I) (off - I.1 * c.chunkSize) b)
    have hlength := h.laid.length_areaBytes hbounds.2
    rw [length_overwrite (by rw [hlength]; omega), hlength, max_eq_left (by omega)] at hsum
    exact Nat.add_right_cancel hsum

/-- Bytes written through `get_ptr_for_write` are written to the LOB. -/
theorem Refines.write (h : Refines orig L c a) (hb : 0 < b.length)
    (hend : off + b.length ≤ a.length) :
    ∃ L' c', c.write off b = .ok c' ∧ Refines orig L' c' (overwrite a off b) ∧
      c'.chunkSize = c.chunkSize := by
  obtain ⟨hpq, hq⟩ := @range_spec off b.length c.chunkSize a.length hb hend
  obtain ⟨j, L1, c1, L', c', k, I, hmerge, h1, hidx, hidx', h', hcs, hone⟩ := h.mergeIf hpq hq
  obtain ⟨c2, hrun, hmarks, hold, hrec⟩ :=
    h'.old.recordChunks ((off + b.length - 1) / c.chunkSize + 1 - off / c.chunkSize)
      h'.laid.toArranged fun r hr hlt =>
        h'.laid.isSome_searchMap hone (h'.laid.isSome_appended (by rw [hcs]; exact hq)) hr
          (by omega)
  have h2 := hmarks.refines h' hold
  have hcs2 : c2.chunkSize = c.chunkSize := hmarks.chunkSize.trans hcs
  rw [show off / c.chunkSize + ((off + b.length - 1) / c.chunkSize + 1 - off / c.chunkSize) =
    (off + b.length - 1) / c.chunkSize + 1 by omega, ← hcs2] at hrec
  have hone2 : InOne L' c2 (off / c2.chunkSize) ((off + b.length - 1) / c2.chunkSize) k I := by
    rw [hcs2, InOne, hmarks.storedCount]
    exact hone
  have hcongr : ObLobCursor.recordChunks c1 (List.range' (off / c.chunkSize)
      ((off + b.length - 1) / c.chunkSize + 1 - off / c.chunkSize)) = .ok c2 := by
    rw [← hrun, show (off + b.length - 1) / c.chunkSize + 1 - off / c.chunkSize =
      ((off + b.length - 1) / c.chunkSize - off / c.chunkSize) + 1 by omega, List.range'_succ]
    simp only [ObLobCursor.recordChunks, hidx, hidx']
  obtain ⟨c3, hwrite, h3, hcs3⟩ := h2.writeData hb hend hone2 hrec
  refine ⟨L', c3, ?_, h3, hcs3.trans hcs2⟩
  have hptr : c.getPtrForWrite off b.length = .ok ((k, off - I.1 * c2.chunkSize), c2) := by
    change c.mergeIf (c.getChunkPos off ≠ c.getChunkPos (off + b.length - 1)) (c.getChunkPos off)
      (c.getChunkPos (off + b.length - 1)) = _ at hmerge
    change ObLobCursor.recordChunks c1 (List.range' (c.getChunkPos off)
      (c.getChunkPos (off + b.length - 1) + 1 - c.getChunkPos off)) = _ at hcongr
    simp only [ObLobCursor.getPtrForWrite, hmerge, hcongr, bind, Except.bind]
    rw [← h2.laid.ptrIn hone2 hb hend, hcs2]
    rfl
  simp only [ObLobCursor.write, hptr, bind, Except.bind, hwrite]

end Write

end Andl.Lob
