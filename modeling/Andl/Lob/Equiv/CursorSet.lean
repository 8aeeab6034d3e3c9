import Andl.Lob.Equiv.CursorWrite

/-!
# Setting bytes of a LOB, also behind its end
-/

namespace Andl.Lob

open List Function

/-- The chunk indexes are ready for a LOB of `m` bytes, while the areas hold `a`. -/
structure Pushed (orig : List UInt8) (L : List (ℕ × ℕ)) (c : ObLobCursor) (a : List UInt8)
    (m : ℕ) : Prop where
  arranged : Arranged L c
  ori_le : c.oriDataLength ≤ a.length
  data : c.data = L.map (areaBytes c.chunkSize c.storedCount a)
  appended : (c.searchMap c.storedCount).isSome ↔ c.storedCount * c.chunkSize < m
  lens : Lens c m (some (min ((m - 1) / c.chunkSize) c.storedCount))
  old : Old orig c a
  ori : c.oriDataLength = orig.length
  length : c.dataLength = a.length
  stored : ∀ p, c.fetchMeta p = (chunks c.chunkSize orig)[p]?
  sum : ∀ (j : ℕ) ix, c.searchMap (min ((m - 1) / c.chunkSize) c.storedCount) = some j →
    c.index[j]? = some ix →
    (c.index.map ObLobChunkIndex.byteLen).sum +
        (m - min ((m - 1) / c.chunkSize) c.storedCount * c.chunkSize) =
      (c.data.map List.length).sum + (m - a.length) + ix.byteLen

section Push

variable {L : List (ℕ × ℕ)} {c : ObLobCursor} {a orig : List UInt8} {p j k m : ℕ}
  {I : ℕ × ℕ} {ix : ObLobChunkIndex}

/-- The position of the last byte, when there are added chunks or not. -/
theorem Laid.lastPos_cases (h : Laid L c a) (hm : a.length ≤ m) :
    (c.storedCount * c.chunkSize < m ∧ c.storedCount ≤ (m - 1) / c.chunkSize) ∨
      (m ≤ c.storedCount * c.chunkSize ∧ (m - 1) / c.chunkSize = c.storedCount - 1) := by
  obtain ⟨hpos, hlast, -⟩ := h.storedCount_spec
  have hcs := h.chunkSize_pos
  have hle := h.ori_le
  rcases Nat.lt_or_ge (c.storedCount * c.chunkSize) m with hlt | hge
  · exact .inl ⟨hlt, (Nat.le_div_iff_mul_le hcs).mpr (by omega)⟩
  · refine .inr ⟨hge, le_antisymm ?_ ((Nat.le_div_iff_mul_le hcs).mpr (by omega))⟩
    have := (Nat.div_lt_iff_lt_mul hcs).mpr (show m - 1 < c.storedCount * c.chunkSize by omega)
    omega

theorem Refines.pushed_of_iff (h : Refines orig L c a) (hm : a.length < m)
    (hiff : c.storedCount * c.chunkSize < a.length ↔ c.storedCount * c.chunkSize < m) :
    Pushed orig L c a m where
  arranged := h.laid.toArranged
  ori_le := h.laid.ori_le
  data := h.laid.data
  appended := h.laid.appended.trans hiff
  lens p j ix hp hne hsearch hj := by
    rw [h.lens p j ix hp (by simp) hsearch hj]
    have hlt := h.laid.appended
    unfold ObLobCursor.chunkLen
    rcases h.laid.lastPos_cases hm.le with ⟨hadd, hE⟩ | ⟨hfit, hE⟩
    · rw [min_eq_right hE] at hne
      have hp' : p < c.storedCount := lt_of_le_of_ne hp fun heq => hne (congrArg some heq)
      have := mul_add_le_mul c.chunkSize hp'
      rw [if_pos hp', if_pos hp']
      omega
    · rw [hE, min_eq_left (by omega)] at hne
      have hp' : p < c.storedCount := by
        refine lt_of_le_of_ne hp fun heq => ?_
        have := hlt.mp (heq ▸ Option.isSome_iff_exists.mpr ⟨j, hsearch⟩)
        omega
      have hp'' : p < c.storedCount - 1 := by
        refine lt_of_le_of_ne (by omega) fun heq => hne (congrArg some heq)
      have := h.laid.le_length (show p + 1 < c.storedCount by omega)
      rw [if_pos hp', if_pos hp']
      omega
  old := h.old
  ori := h.ori
  length := h.length
  stored := h.stored
  sum j ix hsearch hj := by
    rw [h.sum, h.lens _ j ix (min_le_right _ _) (by simp) hsearch hj, ObLobCursor.chunkLen]
    rcases h.laid.lastPos_cases hm.le with ⟨hadd, hE⟩ | ⟨hfit, hE⟩
    · have := hiff.mpr hadd
      rw [min_eq_right hE, if_neg (lt_irrefl _)]
      omega
    · have hpos := h.laid.storedCount_spec.1
      have hlt := h.laid.lt_length (show c.storedCount - 1 < c.storedCount by omega)
      have hmul : c.storedCount * c.chunkSize =
          (c.storedCount - 1) * c.chunkSize + c.chunkSize := by
        rw [← Nat.succ_mul, Nat.succ_eq_add_one, Nat.sub_add_cancel hpos]
      rw [hE, min_eq_left (by omega), if_pos (by omega)]
      omega

/-- The chunk index of the added chunks, behind the last stored one. -/
def appendIndex (chunkSize : ℕ) (ix : ObLobChunkIndex) : ObLobChunkIndex :=
  { offset := ix.offset + chunkSize, pos := ix.pos + chunkSize, byteLen := 0, isAdd := true,
    dataIdx := ix.dataIdx }

/-- The cursor after the chunk index of the added chunks is pushed; `j` is the one of the last
stored chunk. -/
def pushedAppend (c : ObLobCursor) (j : ℕ) (ix : ObLobChunkIndex) : ObLobCursor :=
  { c with
    index := (c.index ++ [appendIndex c.chunkSize ix]).set j { ix with byteLen := c.chunkSize },
    searchMap := Function.update c.searchMap c.storedCount (some c.index.length) }

theorem getElem?_index_pushedAppend {i : ℕ} {x : ObLobChunkIndex}
    (hi : (pushedAppend c j ix).index[i]? = some x) :
    (i = j ∧ x = { ix with byteLen := c.chunkSize }) ∨
      (i = c.index.length ∧ x = appendIndex c.chunkSize ix) ∨
      (i ≠ j ∧ c.index[i]? = some x) := by
  rw [pushedAppend, getElem?_set, length_append, length_singleton] at hi
  split_ifs at hi with heq hlen
  · exact .inl ⟨heq.symm, (Option.some.inj hi).symm⟩
  · rcases getElem?_append_singleton hi with ⟨hk, rfl⟩ | ⟨-, hk⟩
    · exact .inr (.inl ⟨hk, rfl⟩)
    · exact .inr (.inr ⟨Ne.symm heq, hk⟩)

theorem searchMap_pushedAppend {i : ℕ} (hi : (pushedAppend c j ix).searchMap p = some i) :
    (p = c.storedCount ∧ i = c.index.length) ∨ (p ≠ c.storedCount ∧ c.searchMap p = some i) := by
  by_cases heq : p = c.storedCount
  · subst heq
    have hself : (pushedAppend c j ix).searchMap c.storedCount = some c.index.length :=
      update_self ..
    exact .inl ⟨rfl, (Option.some.inj (hself.symm.trans hi)).symm⟩
  · have hother : (pushedAppend c j ix).searchMap p = c.searchMap p := update_of_ne heq ..
    exact .inr ⟨heq, hother.symm.trans hi⟩

theorem Arranged.pushedAppend (h : Arranged L c) (hnone : c.searchMap c.storedCount = none)
    (he : Entry L c (c.storedCount - 1) j k I ix) : Arranged L (pushedAppend c j ix) where
  chunkSize_pos := h.chunkSize_pos
  ori_pos := h.ori_pos
  bounds := h.bounds
  disjoint := h.disjoint
  entry p i hp hi := by
    have hpos := (storedCount_spec h.chunkSize_pos h.ori_pos).1
    have hjlen := (List.getElem?_eq_some_iff.mp he.index).1
    have hmul : (c.storedCount - 1) * c.chunkSize + c.chunkSize = c.storedCount * c.chunkSize := by
      rw [← Nat.succ_mul, Nat.succ_eq_add_one, Nat.sub_add_cancel hpos]
    rcases searchMap_pushedAppend hi with ⟨rfl, rfl⟩ | ⟨hne, hi'⟩
    · have hw := he.within
      rw [min_self] at hw
      refine ⟨k, I, appendIndex c.chunkSize ix, hi, he.area, ?_, ?_, ?_, ?_, he.dataIdx, ?_, ?_⟩
      · show Within (min c.storedCount (c.storedCount - 1)) I
        rw [min_eq_right (Nat.sub_le _ _)]
        exact hw
      · show ((c.index ++ [_]).set j _)[c.index.length]? = _
        rw [getElem?_set_ne (by omega), getElem?_append_right le_rfl, Nat.sub_self]
        rfl
      · show ix.offset + c.chunkSize = _
        rw [he.offset, hmul]
        rfl
      · show ix.pos + c.chunkSize = (c.storedCount - I.1) * c.chunkSize
        rw [he.pos, ← Nat.succ_mul, Nat.succ_eq_add_one]
        congr 1
        have := hw.1
        omega
      · exact (decide_eq_true rfl).symm
      · exact (if_pos rfl).symm
    · obtain ⟨k', I', x, hx⟩ := h.entry p i hp hi'
      by_cases hij : i = j
      · subst hij
        cases hx.index.symm.trans he.index
        refine ⟨k', I', { ix with byteLen := c.chunkSize }, hi, hx.area, hx.within, ?_, hx.offset,
          hx.pos, hx.dataIdx, hx.isAdd, hx.seqId⟩
        show ((c.index ++ [_]).set i _)[i]? = _
        rw [getElem?_set_self (by rw [length_append]; omega)]
      · refine ⟨k', I', x, hi, hx.area, hx.within, ?_, hx.offset, hx.pos, hx.dataIdx, hx.isAdd,
          hx.seqId⟩
        show ((c.index ++ [_]).set j _)[i]? = _
        rw [getElem?_set_ne (Ne.symm hij),
          getElem?_append_left (List.getElem?_eq_some_iff.mp hx.index).1, hx.index]
  free p hp hsearch k I hk := by
    have hother : (Lob.pushedAppend c j ix).searchMap p = c.searchMap p :=
      update_of_ne (Nat.ne_of_lt hp) ..
    exact h.free p hp (hother.symm.trans hsearch) k I hk
  indexed i x hi := by
    have hpos := (storedCount_spec h.chunkSize_pos h.ori_pos).1
    have hold {q : ℕ} (hq : c.searchMap q = some i) :
        (Lob.pushedAppend c j ix).searchMap q = some i := by
      refine (update_of_ne (fun heq => ?_) ..).trans hq
      rw [heq, hnone] at hq
      cases hq
    rcases getElem?_index_pushedAppend hi with ⟨rfl, rfl⟩ | ⟨rfl, rfl⟩ | ⟨-, hi'⟩
    · obtain ⟨hsearch, hle⟩ := h.indexed i ix he.index
      exact ⟨hold hsearch, hle⟩
    · show (Lob.pushedAppend c j ix).searchMap ((ix.offset + c.chunkSize) / c.chunkSize) = _ ∧
        (ix.offset + c.chunkSize) / c.chunkSize ≤ c.storedCount
      have hmul : ix.offset + c.chunkSize = c.storedCount * c.chunkSize := by
        rw [he.offset, ← Nat.succ_mul, Nat.succ_eq_add_one, Nat.sub_add_cancel hpos]
      rw [hmul, Nat.mul_div_cancel _ h.chunkSize_pos]
      exact ⟨update_self .., le_rfl⟩
    · obtain ⟨hsearch, hle⟩ := h.indexed i x hi'
      exact ⟨hold hsearch, hle⟩
  buffer := h.buffer

theorem Old.pushedAppend (h : Old orig c a) (ha : Arranged L c)
    (he : Entry L c (c.storedCount - 1) j k I ix) (hrec : ix.oldDataIdx.isSome) :
    Old orig (pushedAppend c j ix) a where
  entry p i x hp hi hx := by
    change p < c.storedCount at hp
    rcases searchMap_pushedAppend hi with ⟨rfl, -⟩ | ⟨-, hi'⟩
    · omega
    · rcases getElem?_index_pushedAppend hx with ⟨rfl, rfl⟩ | ⟨rfl, -⟩ | ⟨-, hx'⟩
      · -- the last stored chunk is recorded: its length does not matter
        have hold := h.entry p i ix hp hi' he.index
        obtain ⟨o, ho⟩ := Option.isSome_iff_exists.mp hrec
        unfold OldEntry at hold ⊢
        simp only [ho] at hold ⊢
        exact hold
      · obtain ⟨_, _, x', hx'⟩ := ha.entry p _ hp.le hi'
        have := (List.getElem?_eq_some_iff.mp hx'.index).1
        omega
      · exact h.entry p i x hp hi' hx'
  unfetched p hp hsearch := by
    have hother : (Lob.pushedAppend c j ix).searchMap p = c.searchMap p :=
      update_of_ne (Nat.ne_of_lt hp) ..
    exact h.unfetched p hp (hother.symm.trans hsearch)

/-- The chunk indexes are ready when the one of the added chunks is pushed. -/
theorem Refines.pushedAppend (h : Refines orig L c a) (hm : c.storedCount * c.chunkSize < m)
    (hfit : a.length ≤ c.storedCount * c.chunkSize) (he : Entry L c (c.storedCount - 1) j k I ix)
    (hrec : ix.oldDataIdx.isSome) : Pushed orig L (pushedAppend c j ix) a m := by
  have hpos := h.laid.storedCount_spec.1
  have hcs := h.laid.chunkSize_pos
  have hjlen := (List.getElem?_eq_some_iff.mp he.index).1
  have hnone : c.searchMap c.storedCount = none := by
    rw [← Option.not_isSome_iff_eq_none, h.laid.appended]
    omega
  have hmul : c.storedCount * c.chunkSize =
      (c.storedCount - 1) * c.chunkSize + c.chunkSize := by
    rw [← Nat.succ_mul, Nat.succ_eq_add_one, Nat.sub_add_cancel hpos]
  have hself : (Lob.pushedAppend c j ix).searchMap c.storedCount = some c.index.length :=
    update_self ..
  have hE : c.storedCount ≤ (m - 1) / c.chunkSize :=
    (Nat.le_div_iff_mul_le hcs).mpr (by omega)
  have hlast := h.laid.lt_length (show c.storedCount - 1 < c.storedCount by omega)
  refine ⟨h.laid.toArranged.pushedAppend hnone he, h.laid.ori_le, h.laid.data, ?_, ?_,
    h.old.pushedAppend h.laid.toArranged he hrec, h.ori, h.length, h.stored, ?_⟩
  · exact iff_of_true (Option.isSome_iff_exists.mpr ⟨_, hself⟩) hm
  · intro p i x hp hne hi hx
    change p ≤ c.storedCount at hp
    change some p ≠ some (min ((m - 1) / c.chunkSize) c.storedCount) at hne
    show x.byteLen = c.chunkLen m p
    rw [min_eq_right hE] at hne
    have hp' : p < c.storedCount := lt_of_le_of_ne hp fun heq => hne (congrArg some heq)
    have hend := mul_add_le_mul c.chunkSize hp'
    rcases searchMap_pushedAppend hi with ⟨heq, -⟩ | ⟨-, hi'⟩
    · omega
    rw [ObLobCursor.chunkLen, if_pos hp']
    rcases getElem?_index_pushedAppend hx with ⟨rfl, rfl⟩ | ⟨rfl, -⟩ | ⟨hij, hx'⟩
    · show c.chunkSize = _
      omega
    · obtain ⟨_, _, x', hx'⟩ := h.laid.entry p _ hp hi'
      have := (List.getElem?_eq_some_iff.mp hx'.index).1
      omega
    · rw [h.lens p i x hp (by simp) hi' hx', ObLobCursor.chunkLen, if_pos hp']
      have hp'' : p ≠ c.storedCount - 1 := by
        rintro rfl
        exact hij (Option.some.inj (hi'.symm.trans he.search))
      have := h.laid.le_length (show p + 1 < c.storedCount by omega)
      omega
  · intro i x hi hx
    change (Lob.pushedAppend c j ix).searchMap (min ((m - 1) / c.chunkSize) c.storedCount) = some i
      at hi
    rw [min_eq_right hE, hself] at hi
    obtain rfl := Option.some.inj hi
    have hx0 : x = appendIndex c.chunkSize ix := by
      rcases getElem?_index_pushedAppend hx with ⟨heq, -⟩ | ⟨-, hx'⟩ | ⟨-, hx'⟩
      · omega
      · exact hx'
      · have := (List.getElem?_eq_some_iff.mp hx').1
        omega
    have hlen : ix.byteLen = a.length - (c.storedCount - 1) * c.chunkSize := by
      rw [h.lens _ j ix (by omega) (by simp) he.search he.index, ObLobCursor.chunkLen,
        if_pos (by omega)]
      omega
    have hj' : (c.index ++ [appendIndex c.chunkSize ix])[j]? = some ix := by
      rw [getElem?_append_left hjlen, he.index]
    have hsum := sum_map_set ObLobChunkIndex.byteLen hj' { ix with byteLen := c.chunkSize }
    rw [map_append, sum_append, map_singleton, sum_singleton] at hsum
    change _ + ix.byteLen = (c.index.map ObLobChunkIndex.byteLen).sum + 0 + c.chunkSize at hsum
    show (((c.index ++ [appendIndex c.chunkSize ix]).set j _).map ObLobChunkIndex.byteLen).sum +
        (m - min ((m - 1) / c.chunkSize) c.storedCount * c.chunkSize) =
      (c.data.map List.length).sum + (m - a.length) + x.byteLen
    rw [min_eq_right hE, hx0, show (appendIndex c.chunkSize ix).byteLen = 0 from rfl, h.sum]
    omega

/-- **The chunk indexes are made ready for a longer LOB**, and the last stored chunk is loaded. -/
theorem Refines.pushAppendChunk (h : Refines orig L c a) (hm : a.length < m) :
    ∃ L' c' I, ∃ k : ℕ, c.pushAppendChunk (m - a.length) = .ok c' ∧ Pushed orig L' c' a m ∧
      (∀ (k : ℕ) I, L[k]? = some I → L'[k]? = some I) ∧ c'.chunkSize = c.chunkSize ∧
      L'[k]? = some I ∧ Within (c.storedCount - 1) I := by
  have hpos := h.laid.storedCount_spec.1
  have hlt := h.laid.lt_length hpos
  have hp : (a.length - 1) / c.chunkSize * c.chunkSize < a.length :=
    lt_of_le_of_lt (Nat.div_mul_le_self _ _) (by omega)
  obtain ⟨j, L', c1, hidx, h1, hgrows, hsearch⟩ := h.getChunkIdx hp
  have hcs := hgrows.chunkSize
  have hcount := hgrows.storedCount
  rw [← hcount, ← hcs] at hsearch
  obtain ⟨k, I, ix, he⟩ := h1.laid.entry _ j (min_le_right _ _) hsearch
  have hindex : c1.chunkIndex j = .ok ix := by
    rw [ObLobCursor.chunkIndex, he.index]
  have hrun : c.pushAppendChunk (m - a.length) =
      if ix.isAdd = false ∧ ix.byteLen + (m - a.length) > c1.chunkSize then do
        let c ← c1.recordChunkOldData j
        let c ← c.pushChunkIndex (appendIndex c.chunkSize ix)
        let last ← c.chunkIndex j
        .ok (c.setChunkIndex j { last with byteLen := c.chunkSize })
      else .ok c1 := by
    simp only [ObLobCursor.pushAppendChunk, ObLobCursor.getChunkPos, h.length, hidx, bind,
      Except.bind, hindex]
    rfl
  rw [hrun]
  rcases h1.laid.lastPos_cases le_rfl with ⟨hadd, hE⟩ | ⟨hfit, hE⟩
  · rw [min_eq_right hE] at he
    have hw := he.within
    rw [min_eq_right (by omega), hcount] at hw
    have hisAdd : ix.isAdd = true := by rw [he.isAdd, decide_eq_true rfl]
    refine ⟨L', c1, I, k, if_neg (by simp [hisAdd]), ?_, hgrows.layout, hcs, he.area, hw⟩
    exact h1.pushed_of_iff hm (iff_of_true hadd (hadd.trans hm))
  · rw [hE, min_eq_left (Nat.sub_le _ _)] at he
    have hw := he.within
    rw [min_self, hcount] at hw
    have hisAdd : ix.isAdd = false := by
      rw [he.isAdd]
      exact decide_eq_false (by omega)
    have hlast := h1.laid.lt_length (show c1.storedCount - 1 < c1.storedCount by omega)
    have hmul : c1.storedCount * c1.chunkSize =
        (c1.storedCount - 1) * c1.chunkSize + c1.chunkSize := by
      rw [← Nat.succ_mul, Nat.succ_eq_add_one, Nat.sub_add_cancel (by omega)]
    have hlen : ix.byteLen = a.length - (c1.storedCount - 1) * c1.chunkSize := by
      rw [h1.lens _ j ix (by omega) (by simp) he.search he.index, ObLobCursor.chunkLen,
        if_pos (by omega)]
      omega
    by_cases hbig : c1.storedCount * c1.chunkSize < m
    · obtain ⟨c2, hrec, hmarks, hold, hrecorded⟩ :=
        h1.old.recordChunkOldData h1.laid.toArranged (Nat.sub_le _ _) he.search
      have h2 := hmarks.refines h1 hold
      obtain ⟨isModified, oldDataIdx, hj⟩ := hmarks.getElem?_of he.index
      obtain ⟨k2, I2, ix2, he2⟩ := h2.laid.entry _ j (by rw [hmarks.storedCount]; omega)
        (hmarks.search ▸ he.search)
      cases hj.symm.trans he2.index
      rw [← hmarks.storedCount] at he2 hbig hfit
      rw [← hmarks.chunkSize] at hbig hfit
      have hsome : oldDataIdx.isSome :=
        hrecorded _ j _ le_rfl (by omega) (by rw [hmarks.storedCount]; omega)
          (hmarks.search ▸ he.search) hj
      refine ⟨L', _, I, k, ?_, h2.pushedAppend hbig hfit he2 hsome, hgrows.layout,
        hmarks.chunkSize.trans hcs, he.area, hw⟩
      have hnone : c2.searchMap c2.storedCount = none := by
        rw [← Option.not_isSome_iff_eq_none, h2.laid.appended]
        omega
      have hoff : (appendIndex c2.chunkSize ix).offset / c2.chunkSize = c2.storedCount := by
        show (ix.offset + c2.chunkSize) / c2.chunkSize = c2.storedCount
        rw [he.offset, hmarks.chunkSize, ← hmul, Nat.mul_div_cancel _ h1.laid.chunkSize_pos,
          hmarks.storedCount]
      have hjlen := (List.getElem?_eq_some_iff.mp hj).1
      rw [if_pos ⟨hisAdd, by rw [hmarks.storedCount, hmarks.chunkSize] at hbig; omega⟩]
      simp only [hrec, bind, Except.bind, ObLobCursor.pushChunkIndex, hoff, hnone,
        ObLobCursor.chunkIndex, getElem?_append_left hjlen, hj]
      rfl
    · refine ⟨L', c1, I, k, if_neg ?_, ?_, hgrows.layout, hcs, he.area, hw⟩
      · rintro ⟨-, hgt⟩
        omega
      · exact h1.pushed_of_iff hm (iff_of_false (by omega) hbig)

end Push

/-! ### The last area gets longer -/

/-- The cursor after the area of the end got longer. -/
def grown (c : ObLobCursor) (k : ℕ) (data behind : List UInt8) : ObLobCursor :=
  { c with data := c.data.set k (data ++ behind), updateBuffer := some k }

section Grow

variable {L : List (ℕ × ℕ)} {c : ObLobCursor} {a behind orig : List UInt8} {p j k m : ℕ}
  {I : ℕ × ℕ} {ix : ObLobChunkIndex}

/-- The area of the end gets the new bytes. -/
theorem areaBytes_append_end {cs count : ℕ} (hI : I.2 = count) (hle : I.1 * cs ≤ a.length) :
    areaBytes cs count (a ++ behind) I = areaBytes cs count a I ++ behind := by
  unfold areaBytes endByte
  rw [if_pos hI, if_pos hI, drop_append_of_le_length hle, take_of_length_le,
    take_of_length_le]
  · rw [length_drop]
  · rw [length_append, length_drop, length_append]
    omega

/-- The other areas end in front of the end. -/
theorem areaBytes_append_of_ne {cs count : ℕ} (hI : I.2 ≠ count) (hle : I.2 * cs ≤ a.length) :
    areaBytes cs count (a ++ behind) I = areaBytes cs count a I := by
  unfold areaBytes endByte
  rw [if_neg hI, if_neg hI]
  rcases Nat.lt_or_ge (I.2 * cs) (I.1 * cs) with hlt | hge
  · rw [Nat.sub_eq_zero_of_le hlt.le, take_zero, take_zero]
  · rw [drop_append_of_le_length (by omega), take_append_of_le_length]
    rw [length_drop]
    omega

theorem Pushed.laid_grown (h : Pushed orig L c a m) (hk : L[k]? = some I)
    (hw : Within (c.storedCount - 1) I) (hm : (a ++ behind).length = m) :
    Laid L (grown c k (areaBytes c.chunkSize c.storedCount a I) behind) (a ++ behind) where
  chunkSize_pos := h.arranged.chunkSize_pos
  ori_pos := h.arranged.ori_pos
  bounds := h.arranged.bounds
  disjoint := h.arranged.disjoint
  entry p j hp hj := by
    obtain ⟨k', I', ix, he⟩ := h.arranged.entry p j hp hj
    exact ⟨k', I', ix, ⟨he.1, he.2, he.3, he.4, he.5, he.6, he.7, he.8, he.9⟩⟩
  free := h.arranged.free
  indexed := h.arranged.indexed
  buffer k' hk' := by
    cases hk'
    exact ⟨I, hk, hw⟩
  ori_le := by
    have := h.ori_le
    rw [length_append]
    exact this.trans (Nat.le_add_right _ _)
  appended := by
    rw [hm]
    exact h.appended
  data := by
    obtain ⟨hpos, hlast, -⟩ := storedCount_spec h.arranged.chunkSize_pos h.arranged.ori_pos
    have hori := h.ori_le
    have hend : I.2 = c.storedCount := by
      have := (h.arranged.bounds k I hk).2
      have := hw.2
      omega
    have hstart := Nat.mul_le_mul_right c.chunkSize hw.1
    show c.data.set k _ = L.map (areaBytes c.chunkSize c.storedCount _)
    refine ext_getElem? fun i => ?_
    rw [getElem?_set, getElem?_map, h.data, length_map, getElem?_map]
    split_ifs with heq hik
    · rw [← heq, hk, Option.map_some, areaBytes_append_end hend (by omega)]
    · exact absurd (List.getElem?_eq_some_iff.mp hk).1 hik
    · rcases hJ : L[i]? with - | J
      · rfl
      · obtain ⟨hnonempty, hle⟩ := h.arranged.bounds i J hJ
        have hne : J.2 ≠ c.storedCount := by
          intro hJend
          refine heq (h.arranged.disjoint _ _ _ _ (c.storedCount - 1) hk hJ hw ?_)
          rcases hnonempty with rfl | hlt
          · exact absurd hJend.symm hpos.ne'
          · exact ⟨by omega, by omega⟩
        have := Nat.mul_le_mul_right c.chunkSize (show J.2 ≤ c.storedCount - 1 by omega)
        rw [Option.map_some, Option.map_some, areaBytes_append_of_ne hne (by omega)]

/-- What can be read is still there when the areas get longer. -/
theorem readData_of_longer {c' : ObLobCursor} {pos len : ℕ} {bytes : List UInt8}
    (hdata : ∀ d, c.data[k]? = some d → ∃ tail, c'.data[k]? = some (d ++ tail))
    (h : c.readData k pos len = .ok bytes) : c'.readData k pos len = .ok bytes := by
  unfold ObLobCursor.readData ObLobCursor.chunkData at h ⊢
  rcases hd : c.data[k]? with - | d
  · rw [hd] at h
    cases h
  · obtain ⟨tail, htail⟩ := hdata d hd
    rw [hd] at h
    rw [htail]
    change (if pos + len ≤ d.length then _ else _) = _ at h
    show (if pos + len ≤ (d ++ tail).length then _ else _) = _
    split_ifs at h with hle
    rw [if_pos (by rw [length_append]; omega), ← h,
      drop_append_of_le_length (by omega), take_append_of_le_length]
    rw [length_drop]
    omega

theorem Pushed.old_grown (h : Pushed orig L c a m) (hk : L[k]? = some I)
    (hw : Within (c.storedCount - 1) I) :
    Old orig (grown c k (areaBytes c.chunkSize c.storedCount a I) behind) (a ++ behind) where
  entry p j ix hp hsearch hj := by
    have hold := h.old.entry p j ix hp hsearch hj
    unfold OldEntry at hold ⊢
    rcases ho : ix.oldDataIdx with - | o <;> rw [ho] at hold
    · refine ⟨hold.1, readData_of_longer (fun d hd => ?_) hold.2⟩
      show ∃ tail, (c.data.set k _)[ix.dataIdx]? = _
      by_cases heq : k = ix.dataIdx
      · rw [← heq] at hd ⊢
        have hdk : c.data[k]? = some (areaBytes c.chunkSize c.storedCount a I) := by
          rw [h.data, getElem?_map, hk]
          rfl
        cases hdk.symm.trans hd
        exact ⟨behind, getElem?_set_self (List.getElem?_eq_some_iff.mp hd).1⟩
      · refine ⟨[], ?_⟩
        rw [getElem?_set_ne heq, hd, append_nil]
    · exact hold
  unfetched p hp hnone := by
    change p < c.storedCount at hp
    refine Eq.trans ?_ (h.old.unfetched p hp hnone)
    -- the last stored chunk is loaded, so this one is full
    have hne : p ≠ c.storedCount - 1 := by
      rintro rfl
      exact h.arranged.free _ hp hnone k I hk hw
    obtain ⟨-, hlast, -⟩ := storedCount_spec h.arranged.chunkSize_pos h.arranged.ori_pos
    have hfull := mul_add_le_mul c.chunkSize (show p < c.storedCount - 1 by omega)
    have hori := h.ori_le
    show chunkAt c.chunkSize _ p = chunkAt c.chunkSize a p
    unfold chunkAt
    rw [drop_append_of_le_length (by omega), take_append_of_le_length]
    rw [length_drop]
    omega

/-- The area that gets longer is the update buffer, or becomes it. -/
theorem Pushed.growUpdateBuffer (h : Pushed orig L c a m) (hk : L[k]? = some I)
    (hw : Within (c.storedCount - 1) I) :
    c.growUpdateBuffer k behind =
      .ok (grown c k (areaBytes c.chunkSize c.storedCount a I) behind) := by
  have hdk : c.data[k]? = some (areaBytes c.chunkSize c.storedCount a I) := by
    rw [h.data, getElem?_map, hk]
    rfl
  have hbuffer : c.updateBuffer = none ∨ c.updateBuffer = some k := by
    rcases hb : c.updateBuffer with - | k'
    · exact .inl rfl
    · obtain ⟨I', hk', hw'⟩ := h.arranged.buffer k' hb
      obtain rfl := h.arranged.disjoint _ _ _ _ _ hk hk' hw hw'
      exact .inr rfl
  simp only [ObLobCursor.growUpdateBuffer, ObLobCursor.chunkData, hdk, bind, Except.bind,
    if_pos hbuffer]
  rfl

end Grow

/-! ### The loop of `set` -/

section RecordForSet

variable {L : List (ℕ × ℕ)} {c : ObLobCursor} {a orig : List UInt8} {p j : ℕ}
  {ix : ObLobChunkIndex}

theorem Old.recordForSet (endPos m al n : ℕ) (rest : List ℕ) (h : Old orig c a) (ha : Arranged L c)
    (hloaded : ∀ r, p ≤ r → r < p + n → (c.searchMap (min r c.storedCount)).isSome)
    (hne : ∀ r, p ≤ r → r < p + n → ¬ (r = endPos ∧ al > 0)) :
    ∃ c', Marks c c' ∧ Old orig c' a ∧ Recorded c' p (p + n) ∧
      ObLobCursor.recordForSet endPos m al c (List.range' p n ++ rest) =
        ObLobCursor.recordForSet endPos m al c' rest := by
  induction n generalizing c p with
  | zero => exact ⟨c, .refl c, h, fun q j ix hs hlt => by omega, rfl⟩
  | succ n ih =>
    obtain ⟨j, hj⟩ := Option.isSome_iff_exists.mp (hloaded p le_rfl (by omega))
    obtain ⟨c1, hrec, hmarks, hold, hrecorded⟩ :=
      h.recordChunkOldData ha (min_le_right _ _) hj
    obtain ⟨c', hmarks', hold', hrecorded', hrun⟩ :=
      @ih c1 (p + 1) hold (hmarks.arranged ha)
        (fun r hr hlt => by
          rw [hmarks.search, hmarks.storedCount]
          exact hloaded r (by omega) (by omega))
        (fun r hr hlt => hne r (by omega) (by omega))
    obtain ⟨k, I, ix, he⟩ := (hmarks.arranged ha).entry _ j
      (by rw [hmarks.storedCount]; exact min_le_right _ _) (hmarks.search ▸ hj)
    have hindex : c1.chunkIndex j = .ok ix := by
      rw [ObLobCursor.chunkIndex, he.index]
    refine ⟨c', hmarks.trans hmarks', hold', ?_, ?_⟩
    · rw [← (hmarks.trans hmarks').storedCount] at hrecorded
      exact (hmarks'.recorded_of hrecorded).cons (Nat.succ_add_eq_add_succ p n ▸ hrecorded')
    · rw [List.range'_succ, cons_append, ObLobCursor.recordForSet]
      simp only [getChunkIdx_of_search ha.chunkSize_pos ha.ori_pos hj, bind, Except.bind, hrec,
        hindex]
      rw [if_neg (hne p le_rfl (by omega))]
      exact hrun

/-- The cursor after the length of one chunk index is corrected. -/
def resized (c : ObLobCursor) (j : ℕ) (ix : ObLobChunkIndex) (byteLen : ℕ) : ObLobCursor :=
  c.setChunkIndex j { ix with byteLen := byteLen }

theorem getElem?_index_resized {i byteLen : ℕ} {x : ObLobChunkIndex}
    (hi : (resized c j ix byteLen).index[i]? = some x) :
    (i = j ∧ x = { ix with byteLen := byteLen }) ∨ (i ≠ j ∧ c.index[i]? = some x) := by
  rw [resized, ObLobCursor.setChunkIndex, getElem?_set] at hi
  split_ifs at hi with heq hlen
  · exact .inl ⟨heq.symm, (Option.some.inj hi).symm⟩
  · exact .inr ⟨Ne.symm heq, hi⟩

theorem Laid.resized (h : Laid L c a) (hj : c.index[j]? = some ix) (byteLen : ℕ) :
    Laid L (resized c j ix byteLen) a where
  chunkSize_pos := h.chunkSize_pos
  ori_pos := h.ori_pos
  bounds := h.bounds
  disjoint := h.disjoint
  entry p i hp hi := by
    obtain ⟨k, I, x, he⟩ := h.entry p i hp hi
    by_cases hij : i = j
    · subst hij
      cases he.index.symm.trans hj
      refine ⟨k, I, { ix with byteLen := byteLen }, ⟨he.1, he.2, he.3, ?_, he.5, he.6, he.7, he.8,
        he.9⟩⟩
      exact getElem?_set_self (List.getElem?_eq_some_iff.mp hj).1
    · refine ⟨k, I, x, ⟨he.1, he.2, he.3, ?_, he.5, he.6, he.7, he.8, he.9⟩⟩
      exact (getElem?_set_ne (Ne.symm hij)).trans he.index
  free := h.free
  indexed i x hi := by
    rcases getElem?_index_resized hi with ⟨rfl, rfl⟩ | ⟨-, hi'⟩
    · exact h.indexed i ix hj
    · exact h.indexed i x hi'
  buffer := h.buffer
  ori_le := h.ori_le
  appended := h.appended
  data := h.data

/-- The length of a recorded chunk does not matter for the old data. -/
theorem Old.resized (h : Old orig c a) (ha : Arranged L c) (he : p ≤ c.storedCount)
    (hsearch : c.searchMap p = some j) (hj : c.index[j]? = some ix)
    (hrec : p < c.storedCount → ix.oldDataIdx.isSome) (byteLen : ℕ) :
    Old orig (resized c j ix byteLen) a where
  entry q i x hq hi hx := by
    change q < c.storedCount at hq
    change c.searchMap q = some i at hi
    rcases getElem?_index_resized hx with ⟨rfl, rfl⟩ | ⟨-, hx'⟩
    · obtain rfl := ha.search_inj he hq.le hsearch hi
      have hold := h.entry p i ix hq hi hj
      obtain ⟨o, ho⟩ := Option.isSome_iff_exists.mp (hrec hq)
      unfold OldEntry at hold ⊢
      simp only [ho] at hold ⊢
      exact hold
    · exact h.entry q i x hq hi hx'
  unfetched := h.unfetched

/-- When the last chunk index gets its new length, the cursor holds the longer LOB. -/
theorem Laid.refines_resized (h : Laid L c a) (hlens : Lens c a.length (some p))
    (hold : Old orig c a) (hori : c.oriDataLength = orig.length)
    (hstored : ∀ p, c.fetchMeta p = (chunks c.chunkSize orig)[p]?)
    (hp : p = min ((a.length - 1) / c.chunkSize) c.storedCount) (hsearch : c.searchMap p = some j)
    (hj : c.index[j]? = some ix) (hrec : p < c.storedCount → ix.oldDataIdx.isSome)
    (hsum : (c.index.map ObLobChunkIndex.byteLen).sum + (a.length - p * c.chunkSize) =
      (c.data.map List.length).sum + ix.byteLen) :
    Refines orig L { Lob.resized c j ix (a.length - ix.offset) with dataLength := a.length } a := by
  have hpA : p ≤ c.storedCount := hp ▸ min_le_right _ _
  obtain ⟨k, I, ix', he⟩ := h.entry p j hpA hsearch
  cases he.index.symm.trans hj
  have hlaid := h.resized hj (a.length - ix.offset)
  have hold' := hold.resized h.toArranged hpA hsearch hj hrec (a.length - ix.offset)
  have hpos := h.storedCount_spec.1
  refine ⟨⟨⟨hlaid.chunkSize_pos, hlaid.ori_pos, hlaid.bounds, hlaid.disjoint, fun q i hq hi => ?_,
    hlaid.free, hlaid.indexed, hlaid.buffer⟩, hlaid.ori_le, hlaid.data, hlaid.appended⟩,
    fun q i x hq _ hi hx => ?_, ⟨fun q i x hq hi hx => hold'.entry q i x hq hi hx,
    hold'.unfetched⟩, hori, rfl, ?_, hstored⟩
  · obtain ⟨k, I, x, hx⟩ := hlaid.entry q i hq hi
    exact ⟨k, I, x, ⟨hx.1, hx.2, hx.3, hx.4, hx.5, hx.6, hx.7, hx.8, hx.9⟩⟩
  · change q ≤ c.storedCount at hq
    change c.searchMap q = some i at hi
    show x.byteLen = c.chunkLen a.length q
    rcases getElem?_index_resized hx with ⟨rfl, rfl⟩ | ⟨hij, hx'⟩
    · obtain rfl := h.toArranged.search_inj hpA hq hsearch hi
      show a.length - ix.offset = _
      rw [he.offset, ObLobCursor.chunkLen]
      rcases h.lastPos_cases le_rfl with ⟨hadd, hE⟩ | ⟨hfit, hE⟩
      · rw [hp, min_eq_right hE, if_neg (lt_irrefl _)]
      · have hmul : c.storedCount * c.chunkSize =
            (c.storedCount - 1) * c.chunkSize + c.chunkSize := by
          rw [← Nat.succ_mul, Nat.succ_eq_add_one, Nat.sub_add_cancel hpos]
        rw [hp, hE, min_eq_left (Nat.sub_le _ _), if_pos (by omega)]
        omega
    · refine hlens q i x hq (fun heq => hij ?_) hi hx'
      cases heq
      exact Option.some.inj (hi.symm.trans hsearch)
  · show (c.data.map List.length).sum = ((c.index.set j _).map ObLobChunkIndex.byteLen).sum
    have hset := sum_map_set ObLobChunkIndex.byteLen hj
      { ix with byteLen := a.length - ix.offset }
    change _ + ix.byteLen = _ + (a.length - ix.offset) at hset
    rw [he.offset] at hset
    rw [he.offset]
    omega

end RecordForSet

/-! ### Setting bytes -/

section Set

variable {L : List (ℕ × ℕ)} {c : ObLobCursor} {a b orig : List UInt8} {p q j k off n : ℕ}
  {I : ℕ × ℕ} {ix : ObLobChunkIndex}

/-- `set` with the number of bytes that are added. -/
theorem set_eq (c : ObLobCursor) (off : ℕ) (b : List UInt8) (behind : ℕ → UInt8) {al : ℕ}
    (hal : (if off + b.length > c.dataLength then off + b.length - c.dataLength else 0) = al) :
    c.set off b behind = (do
      let c1 ← c.mergeIf (c.getChunkPos off < c.getChunkPos (c.dataLength - 1)) (c.getChunkPos off)
        (c.getChunkPos (c.dataLength - 1))
      let c2 ← if al > 0 then c1.pushAppendChunk al else .ok c1
      let (j, c3) ← c2.getChunkIdx (c.getChunkPos off)
      let start ← c3.chunkIndex j
      let c4 ← if al > 0 then c3.growUpdateBuffer start.dataIdx ((List.range al).map behind)
        else .ok c3
      let c5 ← ObLobCursor.recordForSet (c.getChunkPos (off + b.length - 1)) (off + b.length) al c4
        (List.range' (c.getChunkPos off)
          (c.getChunkPos (off + b.length - 1) + 1 - c.getChunkPos off))
      let start ← c5.chunkIndex j
      let c6 ← c5.writeData start.dataIdx (start.pos + (off - start.offset)) b
      ({ c6 with dataLength := c6.dataLength + al }).checkDataLength) := by
  subst hal
  rfl

/-- The merging that `set` starts with. -/
theorem Refines.mergeForSet (h : Refines orig L c a) (hq : q * c.chunkSize < a.length) :
    ∃ L' c', c.mergeIf (p < q) p q = .ok c' ∧ Refines orig L' c' a ∧
      c'.chunkSize = c.chunkSize ∧ (p < q → ∃ k I, InOne L' c' p q k I) := by
  unfold ObLobCursor.mergeIf
  by_cases hlt : p < q
  · obtain ⟨L', c', I, k, hmerge, h', hcs, hk, hfirst, hlast⟩ := h.mergeChunkData hlt.le hq
    rw [← h.storedCount_eq h' hcs] at hfirst hlast
    refine ⟨L', c', ?_, h', hcs, fun _ => ⟨k, I, hk, hfirst, hlast⟩⟩
    rw [decide_eq_true hlt, if_pos rfl, hmerge]
  · refine ⟨L, c, ?_, h, rfl, fun hlt' => absurd hlt' hlt⟩
    rw [decide_eq_false hlt]
    exact if_neg Bool.false_ne_true

/-- Where the first byte is in the area of its chunk. -/
theorem Entry.ptr (he : Entry L c (min (off / c.chunkSize) c.storedCount) j k I ix) :
    ix.dataIdx = k ∧ ix.pos + (off - ix.offset) = off - I.1 * c.chunkSize := by
  have hI : I.1 ≤ min (off / c.chunkSize) c.storedCount := he.within.1.trans (min_le_left _ _)
  have hmul := Nat.mul_le_mul_right c.chunkSize hI
  have hle : min (off / c.chunkSize) c.storedCount * c.chunkSize ≤ off :=
    (Nat.mul_le_mul_right _ (min_le_left _ _)).trans (Nat.div_mul_le_self _ _)
  rw [he.pos, he.offset, Nat.sub_mul]
  exact ⟨he.dataIdx, by omega⟩

theorem Refines.checkDataLength (h : Refines orig L c a) : c.checkDataLength = .ok c := by
  rw [ObLobCursor.checkDataLength, if_neg (not_not.mpr h.sum)]

/-- `set` of bytes within the LOB overwrites them. -/
theorem Refines.set_within (h : Refines orig L c a) (hb : 0 < b.length)
    (hend : off + b.length ≤ a.length) (behind : ℕ → UInt8) :
    ∃ L' c', c.set off b behind = .ok c' ∧ Refines orig L' c' (overwrite a off b) ∧
      c'.chunkSize = c.chunkSize := by
  set start := off / c.chunkSize with hstart
  set oldEnd := (a.length - 1) / c.chunkSize with holdEnd
  set newEnd := (off + b.length - 1) / c.chunkSize with hnewEnd
  obtain ⟨hpq, hq⟩ := @range_spec off b.length c.chunkSize a.length hb hend
  rw [← hstart, ← hnewEnd] at hpq
  have hle : newEnd ≤ oldEnd := Nat.div_le_div_right (by omega)
  have hold : oldEnd * c.chunkSize < a.length :=
    lt_of_le_of_lt (Nat.div_mul_le_self _ _) (by omega)
  have hal : (if off + b.length > c.dataLength then off + b.length - c.dataLength else 0) = 0 := by
    rw [h.length]
    exact if_neg (by omega)
  obtain ⟨L1, c1, hmerge, h1, hcs1, hone1⟩ := h.mergeForSet (p := start) hold
  obtain ⟨j, L2, c2, hidx, h2, hgrows, hsearch⟩ := h1.getChunkIdx (p := start)
    (by rw [hcs1]; exact lt_of_le_of_lt (Nat.mul_le_mul_right _ hpq) hq)
  have hcs2 : c2.chunkSize = c.chunkSize := hgrows.chunkSize.trans hcs1
  rw [← hgrows.storedCount] at hsearch
  obtain ⟨k, I, ix, he⟩ := h2.laid.entry _ j (min_le_right _ _) hsearch
  -- the range is in the area of its first chunk
  have hone : InOne L2 c2 start newEnd k I := by
    have hw := he.within
    have hw' : Within (min start (c2.storedCount - 1)) I := by
      unfold Within at *
      omega
    refine ⟨he.area, hw', ?_⟩
    rcases Nat.lt_or_ge start oldEnd with hlt | hge
    · obtain ⟨k1, I1, hk1, hfirst, hlast⟩ := hone1 hlt
      rw [← hgrows.storedCount] at hfirst hlast
      have hk1' := hgrows.layout k1 I1 hk1
      obtain rfl := h2.laid.disjoint _ _ _ _ _ he.area hk1' hw' hfirst
      cases he.area.symm.trans hk1'
      unfold Within at *
      omega
    · rwa [show newEnd = start by omega]
  obtain ⟨c3, hmarks, hold3, hrec, hrun⟩ :=
    h2.old.recordForSet newEnd (off + b.length) 0 (newEnd + 1 - start) [] h2.laid.toArranged
      (fun r hr hlt => h2.laid.isSome_searchMap hone
        (h2.laid.isSome_appended (by rw [hcs2]; exact hq)) hr (by omega))
      (fun r _ _ hal => lt_irrefl 0 hal.2)
  have h3 := hmarks.refines h2 hold3
  have hcs3 : c3.chunkSize = c.chunkSize := hmarks.chunkSize.trans hcs2
  obtain ⟨ix3, he3⟩ := hmarks.entry he
  rw [← hmarks.storedCount, hstart, ← hcs3] at he3
  rw [show start + (newEnd + 1 - start) = newEnd + 1 by omega, hstart, hnewEnd, ← hcs3] at hrec
  have hone3 : InOne L2 c3 (off / c3.chunkSize) ((off + b.length - 1) / c3.chunkSize) k I := by
    rw [hcs3, InOne, hmarks.storedCount]
    exact hone
  obtain ⟨c4, hwrite, h4, hcs4⟩ := h3.writeData hb hend hone3 hrec
  refine ⟨L2, c4, ?_, h4, hcs4.trans hcs3⟩
  have hindex : c2.chunkIndex j = .ok ix := by
    rw [ObLobCursor.chunkIndex, he.index]
  have hindex3 : c3.chunkIndex j = .ok ix3 := by
    rw [ObLobCursor.chunkIndex, he3.index]
  rw [append_nil] at hrun
  change ObLobCursor.recordForSet newEnd _ 0 c2 (List.range' start _) = .ok c3 at hrun
  rw [set_eq c off b behind hal]
  simp only [ObLobCursor.getChunkPos, h.length, ← hstart, ← holdEnd, ← hnewEnd, hmerge, bind,
    Except.bind, hidx, hindex, hrun, hindex3, lt_irrefl, if_false]
  rw [he3.ptr.1, he3.ptr.2, hwrite]
  exact h4.checkDataLength

/-- The length of the LOB is not needed to write into an area. -/
theorem writeData_dataLength {c' : ObLobCursor}
    (h : ({ c with dataLength := n } : ObLobCursor).writeData k p b = .ok c') :
    c.writeData k p b = .ok { c' with dataLength := c.dataLength } ∧ c'.dataLength = n := by
  unfold ObLobCursor.writeData ObLobCursor.chunkData at h ⊢
  rcases hd : c.data[k]? with - | d
  · simp only [hd] at h
    cases h
  · simp only [hd] at h
    change (if p + b.length ≤ d.length then _ else _) = _ at h
    show (if p + b.length ≤ d.length then _ else _) = _ ∧ _
    split_ifs at h ⊢ with hle
    cases h
    exact ⟨rfl, rfl⟩

theorem Pushed.inOne {L1 : List (ℕ × ℕ)} {c1 : ObLobCursor} {m : ℕ} (h : Pushed orig L c a m)
    (hm : a.length < m) (hk : L[k]? = some I) (hw : Within (c.storedCount - 1) I)
    (hcount : c1.storedCount = c.storedCount)
    (hlayout : ∀ (k : ℕ) I, L1[k]? = some I → L[k]? = some I)
    (hone : p < (a.length - 1) / c.chunkSize →
      ∃ k I, InOne L1 c1 p ((a.length - 1) / c.chunkSize) k I) :
    InOne L c p ((m - 1) / c.chunkSize) k I := by
  obtain ⟨hpos, hlast, -⟩ := storedCount_spec h.arranged.chunkSize_pos h.arranged.ori_pos
  have hori := h.ori_le
  have hend (x : ℕ) (hx : a.length ≤ x) : c.storedCount - 1 ≤ (x - 1) / c.chunkSize :=
    (Nat.le_div_iff_mul_le h.arranged.chunkSize_pos).mpr (by omega)
  refine ⟨hk, ?_, by rwa [min_eq_right (hend m hm.le)]⟩
  rcases Nat.lt_or_ge p ((a.length - 1) / c.chunkSize) with hlt | hge
  · obtain ⟨k1, I1, hk1, hfirst, hlast'⟩ := hone hlt
    rw [hcount] at hfirst hlast'
    rw [min_eq_right (hend _ le_rfl)] at hlast'
    have hk1' := hlayout k1 I1 hk1
    obtain rfl := h.arranged.disjoint _ _ _ _ _ hk hk1' hw hlast'
    cases hk.symm.trans hk1'
    exact hfirst
  · rwa [min_eq_right ((hend _ le_rfl).trans hge)]

theorem Old.recordForSet_last {al endPos m : ℕ} (h : Old orig c a) (ha : Arranged L c)
    (hal : 0 < al) (hp : p ≤ endPos)
    (hloaded : ∀ r, p ≤ r → r ≤ endPos → (c.searchMap (min r c.storedCount)).isSome) :
    ∃ c' j ix, Marks c c' ∧ Old orig c' a ∧ Recorded c' p (endPos + 1) ∧
      c'.searchMap (min endPos c'.storedCount) = some j ∧ c'.index[j]? = some ix ∧
      ObLobCursor.recordForSet endPos m al c (List.range' p (endPos + 1 - p)) =
        .ok (Lob.resized c' j ix (m - ix.offset)) := by
  obtain ⟨c1, hmarks1, hold1, hrec1, hrun1⟩ :=
    h.recordForSet endPos m al (endPos - p) [endPos] ha (fun r hr hlt => hloaded r hr (by omega))
      (fun r _ hlt heq => by omega)
  have ha1 := hmarks1.arranged ha
  have hsome := hloaded endPos hp le_rfl
  rw [← hmarks1.search, ← hmarks1.storedCount] at hsome
  obtain ⟨j, hj⟩ := Option.isSome_iff_exists.mp hsome
  obtain ⟨c2, hrec, hmarks2, hold2, hrec2⟩ := hold1.recordChunkOldData ha1 (min_le_right _ _) hj
  have hj2 := hj
  rw [← hmarks2.search, ← hmarks2.storedCount] at hj2
  obtain ⟨k, I, ix, he⟩ := (hmarks2.arranged ha1).entry _ j (min_le_right _ _) hj2
  have hindex : c2.chunkIndex j = .ok ix := by
    rw [ObLobCursor.chunkIndex, he.index]
  refine ⟨c2, j, ix, hmarks1.trans hmarks2, hold2, fun q i x hs hlt hq hi hx => ?_, hj2, he.index,
    ?_⟩
  · by_cases heq : q = endPos
    · subst heq
      rw [min_eq_left (by rw [← hmarks2.storedCount]; omega)] at hrec2
      exact hrec2 q i x le_rfl (by omega) hq hi hx
    · exact hmarks2.recorded_of hrec1 q i x hs (by omega) hq hi hx
  · have hrange : List.range' p (endPos + 1 - p) = List.range' p (endPos - p) ++ [endPos] := by
      rw [show endPos + 1 - p = (endPos - p) + 1 by omega, List.range'_concat, one_mul,
        Nat.add_sub_cancel' hp]
    rw [hrange, hrun1, ObLobCursor.recordForSet]
    simp only [getChunkIdx_of_search ha1.chunkSize_pos ha1.ori_pos hj, bind, Except.bind, hrec,
      hindex]
    rw [if_pos ⟨trivial, hal⟩]
    rfl

section

variable {m : ℕ} (h : Pushed orig L c a m) (hm : a.length < m)
include h hm

/-- The chunks of the range are loaded. -/
theorem Pushed.isSome_searchMap {r : ℕ} (hone : InOne L c p ((m - 1) / c.chunkSize) k I)
    (hr : p ≤ r) (hle : r ≤ (m - 1) / c.chunkSize) :
    (c.searchMap (min r c.storedCount)).isSome := by
  refine h.arranged.isSome_searchMap hone (fun hge => h.appended.mpr ?_) hr hle
  have hmul := Nat.mul_le_mul_right c.chunkSize hge
  have hlt := Nat.div_mul_le_self (m - 1) c.chunkSize
  omega

/-- When the area is longer and the old data is recorded, the cursor holds the longer LOB. -/
theorem Pushed.recordForSet {tail : List UInt8} (hlen : (a ++ tail).length = m)
    (hk : L[k]? = some I) (hw : Within (c.storedCount - 1) I)
    (hone : InOne L c p ((m - 1) / c.chunkSize) k I) (hpq : p ≤ (m - 1) / c.chunkSize) :
    ∃ c', ObLobCursor.recordForSet ((m - 1) / c.chunkSize) m (m - a.length)
        (grown c k (areaBytes c.chunkSize c.storedCount a I) tail)
        (List.range' p ((m - 1) / c.chunkSize + 1 - p)) = .ok c' ∧
      Refines orig L { c' with dataLength := m } (a ++ tail) ∧
      Recorded c' p ((m - 1) / c.chunkSize + 1) ∧ c'.searchMap = c.searchMap ∧
      c'.storedCount = c.storedCount ∧ c'.chunkSize = c.chunkSize ∧ c'.dataLength = a.length := by
  have hlaid := h.laid_grown hk hw hlen
  obtain ⟨c', j, ix, hmarks, hold, hrec, hsearch, hj, hrun⟩ :=
    @Old.recordForSet_last _ _ _ _ _ (m - a.length) ((m - 1) / c.chunkSize) m
      (@Pushed.old_grown _ _ _ tail _ _ _ _ h hk hw) hlaid.toArranged (by omega) hpq
      fun r => h.isSome_searchMap hm hone
  -- the lengths of the chunks are those of the longer LOB
  have hsum : (c'.index.map ObLobChunkIndex.byteLen).sum +
      ((a ++ tail).length - min ((m - 1) / c.chunkSize) c'.storedCount * c'.chunkSize) =
        (c'.data.map List.length).sum + ix.byteLen := by
    obtain ⟨ix0, hix0, _, _, rfl⟩ := hmarks.getElem? hj
    rw [hmarks.search, hmarks.storedCount] at hsearch
    have hdk : c.data[k]? = some (areaBytes c.chunkSize c.storedCount a I) := by
      rw [h.data, getElem?_map, hk]
      rfl
    have hset := sum_map_set List.length hdk (areaBytes c.chunkSize c.storedCount a I ++ tail)
    have hpushed := h.sum j ix0 hsearch hix0
    rw [hmarks.sum, hmarks.data, hmarks.storedCount, hmarks.chunkSize, hlen]
    show (c.index.map ObLobChunkIndex.byteLen).sum +
      (m - min ((m - 1) / c.chunkSize) c.storedCount * c.chunkSize) =
        ((c.data.set k (areaBytes c.chunkSize c.storedCount a I ++ tail)).map
          List.length).sum + ix0.byteLen
    rw [length_append] at hset hlen
    omega
  have hresized := (hmarks.laid hlaid).refines_resized
    (by rw [hlen, hmarks.storedCount]; exact hmarks.lens h.lens) hold (hmarks.ori.trans h.ori)
    (fun q => by rw [hmarks.stored, hmarks.chunkSize]; exact h.stored q)
    (by rw [hlen, hmarks.chunkSize]; rfl) hsearch hj
    (fun hlt => hrec _ j ix (by omega) (by omega) hlt hsearch hj) hsum
  rw [hlen] at hresized
  refine ⟨_, hrun, hresized, fun q i x hs hlt hq hi hx => ?_, hmarks.search, hmarks.storedCount,
    hmarks.chunkSize, hmarks.length.trans h.length⟩
  rcases getElem?_index_resized hx with ⟨rfl, rfl⟩ | ⟨-, hx'⟩
  · exact hrec q i ix hs hlt hq hi hj
  · exact hrec q i x hs hlt hq hi hx'

end

/-- `set` of bytes that reach beyond the end makes the LOB longer. -/
theorem Refines.set_beyond (h : Refines orig L c a) (hoff : off ≤ a.length)
    (hend : a.length < off + b.length) (behind : ℕ → UInt8) :
    ∃ L' c', c.set off b behind = .ok c' ∧ Refines orig L' c' (overwrite a off b) ∧
      c'.chunkSize = c.chunkSize := by
  set m := off + b.length with hm
  set start := off / c.chunkSize with hstart
  set oldEnd := (a.length - 1) / c.chunkSize with holdEnd
  set newEnd := (m - 1) / c.chunkSize with hnewEnd
  have hpos := h.laid.lt_length h.laid.storedCount_spec.1
  have hpq : start ≤ newEnd := Nat.div_le_div_right (by omega)
  have hold : oldEnd * c.chunkSize < a.length :=
    lt_of_le_of_lt (Nat.div_mul_le_self _ _) (by omega)
  have hal : (if off + b.length > c.dataLength then off + b.length - c.dataLength else 0) =
      m - a.length := by
    rw [h.length]
    exact if_pos (by omega)
  obtain ⟨L1, c1, hmerge, h1, hcs1, hone1⟩ := @Refines.mergeForSet _ _ _ _ start _ h hold
  obtain ⟨L2, c2, I, k, hpush, h2, hlayout, hcs2', hk, hw⟩ := h1.pushAppendChunk hend
  have hcs2 : c2.chunkSize = c.chunkSize := hcs2'.trans hcs1
  have hcount : c1.storedCount = c2.storedCount := by
    rw [ObLobCursor.storedCount, ObLobCursor.storedCount, ObLobCursor.getChunkPos,
      ObLobCursor.getChunkPos, h1.ori, h2.ori, hcs2']
  rw [hcount] at hw
  have hone : InOne L2 c2 start ((m - 1) / c2.chunkSize) k I :=
    h2.inOne hend hk hw hcount hlayout (by rw [hcs2]; exact hone1)
  have hpq2 : start ≤ (m - 1) / c2.chunkSize := by rwa [hcs2]
  obtain ⟨j, hj⟩ := Option.isSome_iff_exists.mp (h2.isSome_searchMap hend hone le_rfl hpq2)
  obtain ⟨k', I', ix, he⟩ := h2.arranged.entry _ j (min_le_right _ _) hj
  obtain rfl : k' = k := by
    refine h2.arranged.disjoint _ _ _ _ _ he.area hk he.within ?_
    have := hone.2.1
    unfold Within at *
    omega
  -- the area gets longer, and the old data is recorded
  set tail := (List.range (m - a.length)).map behind with htail
  have hlen : (a ++ tail).length = m := by
    rw [length_append, htail, length_map, length_range]
    omega
  obtain ⟨c5, hrun, hresized, hrec, hsearch5, hcount5, hcs5, hlen5⟩ :=
    h2.recordForSet hend hlen hk hw hone hpq2
  rw [hcs2, ← hnewEnd] at hrun hrec hone
  replace hcs5 : c5.chunkSize = c.chunkSize := hcs5.trans hcs2
  -- writing
  set c5' : ObLobCursor := { c5 with dataLength := m } with hc5'
  have hcs5' : c5'.chunkSize = c.chunkSize := hcs5
  have hcount5' : c5'.storedCount = c2.storedCount := hcount5
  obtain ⟨k5, I5, ix5, he5⟩ := hresized.laid.entry (min start c2.storedCount) j
    (hcount5' ▸ min_le_right _ _) (by
      show c5.searchMap _ = _
      rw [hsearch5]
      exact hj)
  have hw5 : Within (min (min start c2.storedCount) (c5'.storedCount - 1)) I := by
    have := hone.2.1
    rw [hcount5']
    unfold Within at *
    omega
  obtain ⟨rfl, rfl⟩ := hresized.laid.entry_unique he5 hk hw5
  have hptr := @Entry.ptr L2 c5' j k' off I ix5 (by rw [hcs5', hcount5']; exact he5)
  have hone5 : InOne L2 c5' (off / c5'.chunkSize) ((off + b.length - 1) / c5'.chunkSize) k' I := by
    rw [hcs5', InOne, hcount5']
    exact hone
  obtain ⟨c6, hwrite, h6, hcs6⟩ := @Refines.writeData L2 c5' (a ++ tail) b orig k' off I hresized
    (by omega) (by rw [hlen]) hone5 (by rw [hcs5']; exact hrec)
  rw [overwrite_append hoff (by rw [← length_append, hlen])] at h6
  obtain ⟨hwrite', hlen6⟩ := writeData_dataLength hwrite
  refine ⟨L2, c6, ?_, h6, hcs6.trans hcs5⟩
  have hindex : c2.chunkIndex j = .ok ix := by
    rw [ObLobCursor.chunkIndex, he.index]
  have hindex5 : c5.chunkIndex j = .ok ix5 := by
    rw [ObLobCursor.chunkIndex, show c5.index[j]? = some ix5 from he5.index]
  have hidx := getChunkIdx_of_search h2.arranged.chunkSize_pos h2.arranged.ori_pos hj
  have hgrow : c2.growUpdateBuffer k' tail = _ := h2.growUpdateBuffer hk hw
  rw [← he.dataIdx, hcs2] at hgrow
  rw [set_eq c off b behind hal]
  simp only [ObLobCursor.getChunkPos, h.length, ← hstart, ← holdEnd, ← hm, ← hnewEnd, hmerge, bind,
    Except.bind, if_pos (Nat.sub_pos_of_lt hend), hpush, hidx, hindex, ← htail, hgrow]
  rw [he.dataIdx, hrun]
  simp only [hindex5]
  have hlength : c5.dataLength + (m - a.length) = c6.dataLength := by
    rw [hlen6, hlen5]
    omega
  rw [hptr.1, hptr.2, hwrite']
  show ({ c6 with dataLength := c5.dataLength + (m - a.length) } : ObLobCursor).checkDataLength = _
  rw [hlength]
  exact h6.checkDataLength

/-- `set` from an offset within the LOB or at its end overwrites and appends. -/
theorem Refines.set (h : Refines orig L c a) (hb : 0 < b.length) (hoff : off ≤ a.length)
    (behind : ℕ → UInt8) :
    ∃ L' c', c.set off b behind = .ok c' ∧ Refines orig L' c' (overwrite a off b) ∧
      c'.chunkSize = c.chunkSize := by
  rcases Nat.lt_or_ge a.length (off + b.length) with hlt | hge
  · exact h.set_beyond hoff hlt behind
  · exact h.set_within hb hge behind

end Set

end Andl.Lob
