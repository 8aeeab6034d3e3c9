import Andl.Lob.Equiv.Cursor

/-!
# Merging the data areas of a LOB cursor
-/

namespace Andl.Lob

open List

/-- The areas `ks` hold the chunks from `s` to `e`, one area behind the other. -/
def Tiles (L : List (ℕ × ℕ)) : List ℕ → ℕ → ℕ → Prop
  | [], s, e => s = e
  | k :: ks, s, e => ∃ I, L[k]? = some I ∧ I.1 = s ∧ I.1 < I.2 ∧ Tiles L ks I.2 e

section Tiles

variable {L L' : List (ℕ × ℕ)} {ks : List ℕ} {k s e : ℕ} {I : ℕ × ℕ}

section

variable (h : Tiles L ks s e)
include h

theorem Tiles.mono (hL : ∀ (k : ℕ) I, L[k]? = some I → L'[k]? = some I) : Tiles L' ks s e := by
  induction ks generalizing s with
  | nil => exact h
  | cons k ks ih =>
    obtain ⟨I, hk, hs, hlt, hrest⟩ := h
    exact ⟨I, hL k I hk, hs, hlt, ih hrest⟩

theorem Tiles.append (hk : L[k]? = some I) (hI : I.1 = e) (hlt : I.1 < I.2) :
    Tiles L (ks ++ [k]) s I.2 := by
  induction ks generalizing s with
  | nil =>
    obtain rfl : s = e := h
    exact ⟨I, hk, hI, hlt, rfl⟩
  | cons k' ks ih =>
    obtain ⟨J, hk', hs, hlt', hrest⟩ := h
    exact ⟨J, hk', hs, hlt', ih hrest⟩

theorem Tiles.le : s ≤ e := by
  induction ks generalizing s with
  | nil => exact le_of_eq h
  | cons k ks ih =>
    obtain ⟨I, -, rfl, hlt, hrest⟩ := h
    exact hlt.le.trans (ih hrest)

/-- Every chunk of the interval is in one of the areas. -/
theorem Tiles.exists_within {i : ℕ} (hs : s ≤ i) (he : i < e) :
    ∃ k ∈ ks, ∃ I, L[k]? = some I ∧ Within i I := by
  induction ks generalizing s with
  | nil =>
    obtain rfl : s = e := h
    omega
  | cons k ks ih =>
    obtain ⟨I, hk, rfl, hlt, hrest⟩ := h
    rcases Nat.lt_or_ge i I.2 with hi | hi
    · exact ⟨k, mem_cons_self, I, hk, hs, hi⟩
    · obtain ⟨k', hmem, hk'⟩ := ih hrest hi
      exact ⟨k', mem_cons_of_mem _ hmem, hk'⟩

/-- Every area lies in the interval. -/
theorem Tiles.bounds (hk : k ∈ ks) : ∃ I, L[k]? = some I ∧ s ≤ I.1 ∧ I.1 < I.2 ∧ I.2 ≤ e := by
  induction ks generalizing s with
  | nil => simp at hk
  | cons k' ks ih =>
    obtain ⟨I, hk', rfl, hlt, hrest⟩ := h
    rcases mem_cons.mp hk with rfl | hk
    · exact ⟨I, hk', le_rfl, hlt, hrest.le⟩
    · obtain ⟨J, hJ, hs, hlt', he⟩ := ih hrest hk
      exact ⟨J, hJ, by omega, hlt', he⟩

/-- No area comes twice. -/
theorem Tiles.nodup : ks.Nodup := by
  induction ks generalizing s with
  | nil => exact nodup_nil
  | cons k ks ih =>
    obtain ⟨I, hk, rfl, hlt, hrest⟩ := h
    refine nodup_cons.mpr ⟨fun hmem => ?_, ih hrest⟩
    obtain ⟨J, hJ, hs, -, -⟩ := hrest.bounds hmem
    cases hk.symm.trans hJ
    omega

/-- The area that ends where the interval does is the last one. -/
theorem Tiles.getLast?_of_end (hk : k ∈ ks) (hI : L[k]? = some I)
    (he : e ≤ I.2) : ks.getLast? = some k := by
  induction ks generalizing s with
  | nil => simp at hk
  | cons k' ks ih =>
    obtain ⟨J, hJ, rfl, hlt, hrest⟩ := h
    rcases mem_cons.mp hk with rfl | hk
    · cases hI.symm.trans hJ
      cases ks with
      | nil => rfl
      | cons k'' ks =>
        obtain ⟨J', -, hJ', hlt', hrest'⟩ := hrest
        have := hrest'.le
        omega
    · have hlast := ih hrest hk
      cases ks with
      | nil => simp at hk
      | cons k'' ks => rwa [getLast?_cons_cons]

end

end Tiles

/-! ### Collecting the areas -/

/-- The areas of the chunks from `s` on, up to position `p`. -/
def Collected (L : List (ℕ × ℕ)) (c : ObLobCursor) (ks : List ℕ) (s p : ℕ) : Prop :=
  (ks = [] ∧ p = s ∧ ∃ (k : ℕ) (I : ℕ × ℕ), L[k]? = some I ∧ I.1 = s ∧ s < I.2 ∧
      I.2 ≤ c.storedCount) ∨
    ∃ (k : ℕ) (I : ℕ × ℕ), ks.getLast? = some k ∧ L[k]? = some I ∧ s < p ∧
      Within (min (p - 1) (c.storedCount - 1)) I ∧ Tiles L ks s I.2

section Collect

variable {L L' : List (ℕ × ℕ)} {c c' : ObLobCursor} {a orig : List UInt8} {ks : List ℕ} {p s : ℕ}

theorem Collected.mono (h : Collected L c ks s p) (hgrows : Grows L c L' c') :
    Collected L' c' ks s p := by
  rcases h with ⟨hks, hp, k, I, hk, hI⟩ | ⟨k, I, hlast, hk, hlt, hw, htiles⟩
  · exact .inl ⟨hks, hp, k, I, hgrows.layout k I hk, by rw [hgrows.storedCount]; exact hI⟩
  · exact .inr ⟨k, I, hlast, hgrows.layout k I hk, hlt, by rw [hgrows.storedCount]; exact hw,
      htiles.mono hgrows.layout⟩

/-- One more chunk: its area is the last one, or the one behind it. -/
theorem Collected.step (h : Collected L c ks s p) (hlaid : Laid L c a) {j k : ℕ} {I : ℕ × ℕ}
    {ix : ObLobChunkIndex} (he : Entry L c (min p c.storedCount) j k I ix) :
    Collected L c (if ks.getLast? = some k then ks else ks ++ [k]) s (p + 1) := by
  have hpos := hlaid.storedCount_spec.1
  have hw : Within (min p (c.storedCount - 1)) I := by
    have := he.within
    rwa [min_assoc, min_eq_right (show c.storedCount - 1 ≤ c.storedCount by omega)] at this
  right
  rw [Nat.add_sub_cancel]
  rcases h with ⟨rfl, rfl, k', I', hk', rfl, hlt, hle⟩ | ⟨k', I', hlast, hk', hlt, hw', htiles⟩
  · -- the first area starts with the interval
    rw [min_eq_left (by omega)] at hw
    obtain rfl := hlaid.disjoint _ _ _ _ _ he.area hk' hw ⟨le_rfl, hlt⟩
    cases he.area.symm.trans hk'
    refine ⟨k, I, by simp, he.area, Nat.lt_succ_self _, ?_, ?_⟩
    · rwa [min_eq_left (by omega)]
    · simp only [getLast?_nil, reduceCtorEq, if_false, nil_append]
      exact ⟨I, he.area, rfl, hlt, rfl⟩
  · by_cases hsame : k' = k
    · subst hsame
      cases he.area.symm.trans hk'
      rw [if_pos hlast]
      exact ⟨k', I, hlast, hk', by omega, hw, htiles⟩
    · rw [if_neg (by rw [hlast]; exact fun hc => hsame (Option.some.inj hc))]
      -- the chunk in front of this one is in the last area, this one is not
      have hout (i : ℕ) (hi : Within i I) : ¬ Within i I' := fun hi' =>
        hsame (hlaid.disjoint _ _ _ _ _ hk' he.area hi' hi)
      have hnext := hout _ hw
      have hprev : ¬ Within (min (p - 1) (c.storedCount - 1)) I := fun hi => hout _ hi hw'
      unfold Within at hw hw' hnext hprev
      refine ⟨k, I, by simp, he.area, by omega, hw, htiles.append he.area ?_ ?_⟩ <;> omega

theorem Refines.collectDataIdx (n : ℕ) (h : Refines orig L c a) (hks : Collected L c ks s p)
    (hpos : ∀ q, q < p + n → q * c.chunkSize < a.length) :
    ∃ ks' L' c', ObLobCursor.collectDataIdx c (List.range' p n) ks = .ok (ks', c') ∧
      Refines orig L' c' a ∧ Grows L c L' c' ∧ Collected L' c' ks' s (p + n) := by
  induction n generalizing L c ks p with
  | zero => exact ⟨ks, L, c, rfl, h, .refl L c, hks⟩
  | succ n ih =>
    obtain ⟨j, k, I, ix, L1, c1, hchunk, h1, hgrows, he⟩ := h.getChunk (hpos p (by omega))
    rw [← hgrows.storedCount] at he
    have hstep := (hks.mono hgrows).step h1.laid he
    obtain ⟨ks', L', c', hrest, h', hgrows', hcollected⟩ := ih h1 hstep fun q hq => by
      rw [hgrows.chunkSize]
      exact hpos q (by omega)
    refine ⟨ks', L', c', ?_, h', hgrows.trans hgrows', ?_⟩
    · rw [List.range'_succ, ObLobCursor.collectDataIdx, hchunk]
      simp only [bind, Except.bind, he.dataIdx]
      rw [← hrest]
      split_ifs <;> rfl
    · rwa [show p + (n + 1) = p + 1 + n by omega]

end Collect

/-! ### The new area -/

/-- The layout without the areas `ks`. -/
def clearAreas (L : List (ℕ × ℕ)) (ks : List ℕ) : List (ℕ × ℕ) :=
  ks.foldl (fun L k => L.set k (0, 0)) L

variable {data : List (List UInt8)}

/-- An area that is not read does not matter. -/
theorem map_getD_set {ks : List ℕ} {k : ℕ} (hk : k ∉ ks) :
    (ks.map fun k' => (data.set k []).getD k' []) = ks.map fun k' => data.getD k' [] := by
  refine map_congr_left fun k' hk' => ?_
  have hne : k ≠ k' := fun heq => hk (heq ▸ hk')
  rw [getD_eq_getElem?_getD, getD_eq_getElem?_getD, getElem?_set_ne hne]

theorem copyAreas_eq {ks : List ℕ} (hnodup : ks.Nodup) (hlt : ∀ k ∈ ks, k < data.length) :
    ObLobCursor.copyAreas data ks = .ok ((ks.map fun k => data.getD k []).flatten,
      ks.foldl (fun d k => d.set k []) data) := by
  induction ks generalizing data with
  | nil => rfl
  | cons k ks ih =>
    obtain ⟨hk, hnodup⟩ := nodup_cons.mp hnodup
    have hkd := hlt k mem_cons_self
    have hrest := @ih (data.set k []) hnodup fun k' hk' => by
      rw [length_set]
      exact hlt k' (mem_cons_of_mem _ hk')
    rw [map_getD_set hk] at hrest
    rw [ObLobCursor.copyAreas, getElem?_eq_getElem hkd]
    simp only [bind, Except.bind, hrest, map_cons, flatten_cons, foldl_cons,
      getD_eq_getElem?_getD, getElem?_eq_getElem hkd, Option.getD_some]

theorem foldl_set_map {f : ℕ × ℕ → List UInt8} (hf : f (0, 0) = []) (L : List (ℕ × ℕ))
    (ks : List ℕ) : ks.foldl (fun d k => d.set k []) (L.map f) = (clearAreas L ks).map f := by
  induction ks generalizing L with
  | nil => rfl
  | cons k ks ih =>
    rw [foldl_cons, ← hf, ← map_set, hf, ih]
    rfl

theorem length_clearAreas (L : List (ℕ × ℕ)) (ks : List ℕ) :
    (clearAreas L ks).length = L.length := by
  induction ks generalizing L with
  | nil => rfl
  | cons k ks ih => exact (ih _).trans (length_set ..)

/-- The other areas stay, those of `ks` are empty. -/
theorem getElem?_clearAreas {L : List (ℕ × ℕ)} {ks : List ℕ} {k : ℕ} {I : ℕ × ℕ}
    (hk : (clearAreas L ks)[k]? = some I) : (k ∉ ks ∧ L[k]? = some I) ∨ (k ∈ ks ∧ I = (0, 0)) := by
  induction ks generalizing L with
  | nil => exact .inl ⟨by simp, hk⟩
  | cons k' ks ih =>
    rcases ih hk with ⟨hmem, hset⟩ | ⟨hmem, rfl⟩
    · rw [getElem?_set] at hset
      split_ifs at hset with heq hlt
      · exact .inr ⟨by simp [heq], (Option.some.inj hset).symm⟩
      · exact .inl ⟨by simp [hmem, Ne.symm heq], hset⟩
    · exact .inr ⟨mem_cons_of_mem _ hmem, rfl⟩

theorem getElem?_clearAreas_of_notMem {L : List (ℕ × ℕ)} {ks : List ℕ} {k : ℕ} (hk : k ∉ ks) :
    (clearAreas L ks)[k]? = L[k]? := by
  induction ks generalizing L with
  | nil => rfl
  | cons k' ks ih =>
    rw [mem_cons, not_or] at hk
    exact (ih hk.2).trans (getElem?_set_ne (Ne.symm hk.1))

section Area

variable {L : List (ℕ × ℕ)} {c : ObLobCursor} {a orig : List UInt8} {ks : List ℕ} {s e : ℕ}

theorem Laid.areaBytes_empty (h : Laid L c a) :
    areaBytes c.chunkSize c.storedCount a (0, 0) = [] := by
  have := h.storedCount_spec.1
  rw [areaBytes, endByte, if_neg (by dsimp only; omega)]
  simp

/-- Two intervals, one behind the other. -/
theorem Laid.areaBytes_append (h : Laid L c a) {t : ℕ} (hs : s ≤ t) (ht : t < c.storedCount)
    (he : t < e) (hle : e ≤ c.storedCount) :
    areaBytes c.chunkSize c.storedCount a (s, t) ++ areaBytes c.chunkSize c.storedCount a (t, e) =
      areaBytes c.chunkSize c.storedCount a (s, e) := by
  have hst := Nat.mul_le_mul_right c.chunkSize hs
  have hend := @Laid.lt_endByte L c a t (s, e) h he hle
  unfold areaBytes endByte at *
  dsimp only at *
  rw [if_neg ht.ne]
  have hsplit : (if e = c.storedCount then a.length else e * c.chunkSize) - s * c.chunkSize =
      (t * c.chunkSize - s * c.chunkSize) +
        ((if e = c.storedCount then a.length else e * c.chunkSize) - t * c.chunkSize) := by
    omega
  rw [hsplit, take_add, drop_drop,
    show s * c.chunkSize + (t * c.chunkSize - s * c.chunkSize) = t * c.chunkSize by omega]

/-- The bytes of areas that tile an interval. -/
theorem Tiles.flatten (htiles : Tiles L ks s e) (h : Laid L c a) (hne : ks ≠ [])
    (hle : e ≤ c.storedCount) :
    (ks.map fun k => c.data.getD k []).flatten = areaBytes c.chunkSize c.storedCount a (s, e) := by
  induction ks generalizing s with
  | nil => exact absurd rfl hne
  | cons k ks ih =>
    obtain ⟨I, hk, rfl, hlt, hrest⟩ := htiles
    rw [map_cons, flatten_cons, getD_eq_getElem?_getD, h.getElem?_data hk,
      Option.getD_some]
    cases ks with
    | nil =>
      obtain rfl : I.2 = e := hrest
      simp
    | cons k' ks =>
      obtain ⟨J, -, hJ, hltJ, hrestJ⟩ := id hrest
      have := hrestJ.le
      rw [ih hrest (by simp)]
      exact h.areaBytes_append hlt.le (by omega) (by omega) hle

end Area

/-! ### The new chunk indexes -/

/-- A chunk index of the positions from `s` to `p`, in the new area `k` from `s` on. -/
def relocate (chunkSize s k p : ℕ) (ix : ObLobChunkIndex) : ObLobChunkIndex :=
  if s ≤ ix.offset / chunkSize ∧ ix.offset / chunkSize < p then
    { ix with pos := ix.offset - s * chunkSize, dataIdx := k }
  else ix

theorem getChunkIdx_of_search {c : ObLobCursor} {p j : ℕ} (hcs : 0 < c.chunkSize)
    (hori : 0 < c.oriDataLength) (h : c.searchMap (min p c.storedCount) = some j) :
    c.getChunkIdx p = .ok (j, c) := by
  have happend := @isAppendChunk_iff c p hcs hori
  unfold ObLobCursor.getChunkIdx
  by_cases hadd : c.storedCount ≤ p
  · rw [min_eq_right hadd] at h
    change c.searchMap (c.getChunkPos (c.oriDataLength + c.chunkSize - 1)) = some j at h
    rw [if_pos (happend.mpr hadd), h]
  · rw [min_eq_left (by omega)] at h
    rw [if_neg (mt happend.mp hadd), h]

section Relocate

variable {L : List (ℕ × ℕ)} {c : ObLobCursor} {a orig : List UInt8} {s p j k : ℕ}

/-- The index of position `p` moves to the new area. -/
theorem Laid.set_relocate (h : Laid L c a) (hs : s ≤ p)
    (hj : c.searchMap p = some j) {k' : ℕ} {I : ℕ × ℕ} {ix : ObLobChunkIndex}
    (he : Entry L c p j k' I ix) :
    (c.index.map (relocate c.chunkSize s k p)).set j
        { ix with pos := (p - s) * c.chunkSize, dataIdx := k } =
      c.index.map (relocate c.chunkSize s k (p + 1)) := by
  have hdiv : ix.offset / c.chunkSize = p := by
    rw [he.offset, Nat.mul_div_cancel _ h.chunkSize_pos]
  refine ext_getElem? fun j' => ?_
  by_cases hjj : j = j'
  · subst hjj
    rw [getElem?_set_self (by
        rw [length_map]
        exact (List.getElem?_eq_some_iff.mp he.index).1),
      getElem?_map, he.index, Option.map_some, relocate, if_pos (by rw [hdiv]; omega),
      he.offset, Nat.sub_mul]
  · rw [getElem?_set_ne hjj, getElem?_map, getElem?_map]
    rcases hix' : c.index[j']? with - | ix'
    · rfl
    · have hne : ix'.offset / c.chunkSize ≠ p := fun heq => by
        have := (h.indexed j' ix' hix').1
        rw [heq, hj] at this
        exact hjj (Option.some.inj this)
      simp only [Option.map_some, relocate]
      congr 2
      exact propext ⟨fun hc => ⟨hc.1, by omega⟩, fun hc => ⟨hc.1, by omega⟩⟩

/-- Behind the added chunks there are no more indexes. -/
theorem Laid.relocate_succ (h : Laid L c a) (hp : c.storedCount < p) :
    c.index.map (relocate c.chunkSize s k (p + 1)) = c.index.map (relocate c.chunkSize s k p) := by
  refine map_congr_left fun ix hix => ?_
  obtain ⟨j, hj⟩ := mem_iff_getElem?.mp hix
  have := (h.indexed j ix hj).2
  unfold relocate
  congr 1
  exact propext ⟨fun hc => ⟨hc.1, by omega⟩, fun hc => ⟨hc.1, by omega⟩⟩

/-- **The loop over the chunk indexes**, on a cursor whose data areas do not matter. -/
theorem Refines.updateChunkIndexes_eq (h : Refines orig L c a) (data : List (List UInt8)) (n : ℕ)
    {pos : ℕ} (hs : s ≤ p) (hpos : 0 < n → p ≤ c.storedCount → pos = (p - s) * c.chunkSize)
    (hloaded : ∀ q, p ≤ q → q < p + n →
      q * c.chunkSize < a.length ∧ (c.searchMap (min q c.storedCount)).isSome) :
    ObLobCursor.updateChunkIndexes k
        { c with data := data, index := c.index.map (relocate c.chunkSize s k p) }
        (List.range' p n) pos (decide (c.storedCount < p)) =
      .ok { c with data := data, index := c.index.map (relocate c.chunkSize s k (p + n)) } := by
  induction n generalizing p pos with
  | zero => rfl
  | succ n ih =>
    obtain ⟨hlt, hsome⟩ := hloaded p le_rfl (by omega)
    obtain ⟨j, hj⟩ := Option.isSome_iff_exists.mp hsome
    obtain ⟨k', I, ix, he⟩ := h.laid.entry _ j (min_le_right _ _) hj
    have hdiv : ix.offset / c.chunkSize = min p c.storedCount := by
      rw [he.offset, Nat.mul_div_cancel _ h.laid.chunkSize_pos]
    have hidx : ObLobCursor.getChunkIdx
        { c with data := data, index := c.index.map (relocate c.chunkSize s k p) } p =
        .ok (j, { c with data := data, index := c.index.map (relocate c.chunkSize s k p) }) :=
      getChunkIdx_of_search h.laid.chunkSize_pos h.laid.ori_pos hj
    have hix : ObLobCursor.chunkIndex
        { c with data := data, index := c.index.map (relocate c.chunkSize s k p) } j =
        .ok (relocate c.chunkSize s k p ix) := by
      rw [ObLobCursor.chunkIndex, getElem?_map, he.index]
      rfl
    rw [List.range'_succ, ObLobCursor.updateChunkIndexes, hidx]
    simp only [bind, Except.bind, hix]
    rw [show p + (n + 1) = p + 1 + n by omega]
    have hloaded' : ∀ q, p + 1 ≤ q → q < p + 1 + n →
        q * c.chunkSize < a.length ∧ (c.searchMap (min q c.storedCount)).isSome :=
      fun q hq hq' => hloaded q (by omega) (by omega)
    by_cases hadd : p ≤ c.storedCount
    · -- an index that is not moved yet
      rw [min_eq_left hadd] at hdiv hj he
      have hsame : relocate c.chunkSize s k p ix = ix := if_neg (by rw [hdiv]; omega)
      have hnext : (decide (c.storedCount < p) || ix.isAdd) = decide (c.storedCount < p + 1) := by
        rw [he.isAdd, ← Bool.decide_or]
        exact decide_eq_decide.mpr ⟨fun _ => by omega, fun _ => by omega⟩
      have hset := h.laid.set_relocate (k := k) hs hj he
      rw [hsame, if_neg fun hc => by have := of_decide_eq_true hc.1; omega, hnext]
      rw [← @ih (p + 1) (pos + ix.byteLen) (by omega) (fun hn hle => ?_) hloaded']
      · rw [← hset, hpos (by omega) hadd]
        rfl
      · have hlen := h.lens p j ix hadd (by simp) hj he.index
        have hfull := (hloaded (p + 1) (by omega) (by omega)).1
        rw [Nat.succ_mul] at hfull
        rw [hlen, ObLobCursor.chunkLen, if_pos (by omega), hpos (by omega) hadd,
          show p + 1 - s = p - s + 1 by omega, Nat.succ_mul]
        omega
    · -- the index of the added chunks is moved already
      rw [min_eq_right (by omega)] at he
      have hisAdd : (relocate c.chunkSize s k p ix).isAdd = true := by
        have : ix.isAdd = true := by rw [he.isAdd, decide_eq_true rfl]
        unfold relocate
        split_ifs <;> exact this
      rw [if_pos ⟨decide_eq_true (by omega), hisAdd⟩]
      have hset := @Laid.relocate_succ _ _ _ s p k h.laid (by omega)
      rw [← hset, ← @ih (p + 1) pos (by omega) (fun _ hle => absurd hle (by omega)) hloaded',
        decide_eq_true (show c.storedCount < p by omega),
        decide_eq_true (show c.storedCount < p + 1 by omega)]

end Relocate

/-! ### The merged cursor -/

theorem sum_foldl_set {ks : List ℕ} (hnodup : ks.Nodup) (hlt : ∀ k ∈ ks, k < data.length) :
    ((ks.foldl (fun d k => d.set k []) data).map List.length).sum +
        (ks.map fun k => data.getD k []).flatten.length = (data.map List.length).sum := by
  induction ks generalizing data with
  | nil => simp
  | cons k ks ih =>
    obtain ⟨hk, hnodup⟩ := nodup_cons.mp hnodup
    have hkd := getElem?_eq_getElem (hlt k mem_cons_self)
    have hset := sum_map_set List.length hkd []
    have hrest := @ih (data.set k []) hnodup fun k' hk' => by
      rw [length_set]
      exact hlt k' (mem_cons_of_mem _ hk')
    rw [map_getD_set hk] at hrest
    rw [foldl_cons, map_cons, flatten_cons, length_append,
      getD_eq_getElem?_getD, hkd, Option.getD_some]
    rw [length_nil] at hset
    omega

section Merge

variable {L : List (ℕ × ℕ)} {c : ObLobCursor} {a orig : List UInt8} {ks : List ℕ}
  {s e k₀ : ℕ}

/-- The layout after merging. -/
def mergedLayout (L : List (ℕ × ℕ)) (ks : List ℕ) (k₀ s e : ℕ) : List (ℕ × ℕ) :=
  (clearAreas L ks).set k₀ (s, e)

/-- The cursor after merging; `p` is behind the last position of the merged area. -/
def merged (c : ObLobCursor) (a : List UInt8) (ks : List ℕ) (k₀ s e p : ℕ) : ObLobCursor :=
  { c with
    index := c.index.map (relocate c.chunkSize s k₀ p)
    data := (ks.foldl (fun d k => d.set k []) c.data).set k₀
      (areaBytes c.chunkSize c.storedCount a (s, e))
    updateBuffer := if c.updateBuffer = ks.getLast? then some k₀ else c.updateBuffer }

theorem getElem?_mergedLayout {k i : ℕ} {I : ℕ × ℕ} (hk : (mergedLayout L ks k₀ s e)[k]? = some I)
    (hi : Within i I) : (k = k₀ ∧ I = (s, e)) ∨ (k ∉ ks ∧ L[k]? = some I) := by
  rw [mergedLayout, getElem?_set] at hk
  split_ifs at hk with heq hlt
  · exact .inl ⟨heq.symm, (Option.some.inj hk).symm⟩
  · rcases getElem?_clearAreas hk with hkeep | ⟨-, rfl⟩
    · exact .inr hkeep
    · exact absurd hi.2 (Nat.not_lt_zero i)

theorem getElem?_mergedLayout_of_notMem {k : ℕ} (hk0 : k₀ ∈ ks) (hk : k ∉ ks) :
    (mergedLayout L ks k₀ s e)[k]? = L[k]? := by
  have hne : k₀ ≠ k := fun heq => hk (heq ▸ hk0)
  rw [mergedLayout, getElem?_set_ne hne, getElem?_clearAreas_of_notMem hk]

theorem getElem?_mergedLayout_self (htiles : Tiles L ks s e) (hk0 : k₀ ∈ ks) :
    (mergedLayout L ks k₀ s e)[k₀]? = some (s, e) := by
  obtain ⟨I, hI, -⟩ := htiles.bounds hk0
  rw [mergedLayout, getElem?_set_self]
  rw [length_clearAreas]
  exact (List.getElem?_eq_some_iff.mp hI).1

/-- A chunk of the interval is in no other area. -/
theorem Laid.mem_of_within (h : Laid L c a) (htiles : Tiles L ks s e) {i k : ℕ} {I : ℕ × ℕ}
    (hk : L[k]? = some I) (hi : Within i I) (hs : s ≤ i) (he : i < e) : k ∈ ks := by
  obtain ⟨k', hmem, J, hJ, hiJ⟩ := htiles.exists_within hs he
  exact h.disjoint _ _ _ _ _ hk hJ hi hiJ ▸ hmem

/-- The positions of the merged area. -/
theorem Laid.le_lastPos (h : Laid L c a) (hle : e ≤ c.storedCount) (hlt : s < e) {p : ℕ} :
    p ≤ (endByte c.chunkSize c.storedCount a.length (s, e) - 1) / c.chunkSize ↔
      p * c.chunkSize < endByte c.chunkSize c.storedCount a.length (s, e) := by
  have := @Laid.lt_endByte L c a s (s, e) h hlt hle
  rw [Nat.le_div_iff_mul_le h.chunkSize_pos]
  omega

theorem lt_of_lt_endByte {p : ℕ} (hp : p < c.storedCount)
    (hend : p * c.chunkSize < endByte c.chunkSize c.storedCount a.length (s, e)) : p < e := by
  unfold endByte at hend
  dsimp only at hend
  split_ifs at hend with hlast
  · omega
  · exact Nat.lt_of_mul_lt_mul_right hend

/-- The indexes that move are those of the merged areas. -/
theorem Laid.position_iff (h : Laid L c a) (htiles : Tiles L ks s e) (hlt : s < e)
    (hle : e ≤ c.storedCount) {p j k : ℕ} {I : ℕ × ℕ} {ix : ObLobChunkIndex}
    (hent : Entry L c p j k I ix) (hp : p ≤ c.storedCount) :
    (s ≤ p ∧ p < (endByte c.chunkSize c.storedCount a.length (s, e) - 1) / c.chunkSize + 1) ↔
      k ∈ ks := by
  rw [Nat.lt_succ_iff, h.le_lastPos hle hlt]
  have hpos := h.storedCount_spec.1
  have hw := hent.within
  constructor
  · rintro ⟨hs, hend⟩
    rcases Nat.lt_or_ge p c.storedCount with hp' | hp'
    · rw [min_eq_left (by omega)] at hw
      exact h.mem_of_within htiles hent.area hw hs (lt_of_lt_endByte hp' hend)
    · obtain rfl : p = c.storedCount := le_antisymm hp hp'
      rw [min_eq_right (by omega)] at hw
      have hlast : e = c.storedCount := by
        by_contra hne
        rw [endByte, if_neg hne] at hend
        exact absurd (Nat.lt_of_mul_lt_mul_right hend) (by dsimp only; omega)
      exact h.mem_of_within htiles hent.area hw (by omega) (by omega)
  · intro hk
    obtain ⟨J, hJ, hs, hJlt, hJe⟩ := htiles.bounds hk
    cases hent.area.symm.trans hJ
    have hw1 := hw.1
    have hw2 := hw.2
    refine ⟨by omega, ?_⟩
    rcases Nat.lt_or_ge p c.storedCount with hp' | hp'
    · exact h.lt_endByte (show p < (s, e).2 by dsimp only; omega) hle
    · obtain rfl : p = c.storedCount := le_antisymm hp hp'
      rw [endByte, if_pos (by dsimp only; omega)]
      exact h.appended.mp (by rw [hent.search]; rfl)

theorem Laid.entry_merged (h : Laid L c a) (htiles : Tiles L ks s e) (hk0 : k₀ ∈ ks) (hlt : s < e)
    (hle : e ≤ c.storedCount) {p q j k : ℕ} {I : ℕ × ℕ} {ix : ObLobChunkIndex}
    (hq : q = (endByte c.chunkSize c.storedCount a.length (s, e) - 1) / c.chunkSize + 1)
    (hent : Entry L c p j k I ix) (hp : p ≤ c.storedCount) :
    ∃ k' I', Entry (mergedLayout L ks k₀ s e) (merged c a ks k₀ s e q) p j k' I'
      (relocate c.chunkSize s k₀ q ix) := by
  have hiff := h.position_iff htiles hlt hle hent hp
  have hdiv : ix.offset / c.chunkSize = p := by
    rw [hent.offset, Nat.mul_div_cancel _ h.chunkSize_pos]
  have hindex : (merged c a ks k₀ s e q).index[j]? = some (relocate c.chunkSize s k₀ q ix) := by
    show (c.index.map _)[j]? = _
    rw [getElem?_map, hent.index]
    rfl
  rw [← hq] at hiff
  by_cases hk : k ∈ ks
  · obtain ⟨J, hJ, hs, -, hJe⟩ := htiles.bounds hk
    cases hent.area.symm.trans hJ
    have hmove : relocate c.chunkSize s k₀ q ix =
        { ix with pos := ix.offset - s * c.chunkSize, dataIdx := k₀ } :=
      if_pos (by rw [hdiv]; exact hiff.mpr hk)
    refine ⟨k₀, (s, e), hent.search, getElem?_mergedLayout_self htiles hk0,
      ⟨hs.trans hent.within.1, lt_of_lt_of_le hent.within.2 hJe⟩, hindex, ?_, ?_, ?_, ?_, ?_⟩ <;>
      rw [hmove]
    · exact hent.offset
    · show ix.offset - s * c.chunkSize = (p - s) * c.chunkSize
      rw [hent.offset, Nat.sub_mul]
    · exact hent.isAdd
    · exact hent.seqId
  · have hstay : relocate c.chunkSize s k₀ q ix = ix := if_neg (by rw [hdiv]; exact mt hiff.mp hk)
    rw [hstay] at hindex ⊢
    exact ⟨k, I, hent.search, (getElem?_mergedLayout_of_notMem hk0 hk).trans hent.area,
      hent.within, hindex, hent.offset, hent.pos, hent.dataIdx, hent.isAdd, hent.seqId⟩

theorem Laid.merged (h : Laid L c a) (htiles : Tiles L ks s e) (hk0 : k₀ ∈ ks) (hlt : s < e)
    (hle : e ≤ c.storedCount) {q : ℕ}
    (hq : q = (endByte c.chunkSize c.storedCount a.length (s, e) - 1) / c.chunkSize + 1) :
    Laid (mergedLayout L ks k₀ s e) (merged c a ks k₀ s e q) a where
  chunkSize_pos := h.chunkSize_pos
  ori_pos := h.ori_pos
  ori_le := h.ori_le
  data := by
    show (ks.foldl (fun d k => d.set k []) c.data).set k₀
      (areaBytes c.chunkSize c.storedCount a (s, e)) = _
    rw [h.data, foldl_set_map h.areaBytes_empty, ← map_set]
    rfl
  bounds k I hk := by
    show (I = (0, 0) ∨ I.1 < I.2) ∧ I.2 ≤ c.storedCount
    rw [mergedLayout, getElem?_set] at hk
    split_ifs at hk with heq hlen
    · cases hk
      exact ⟨.inr hlt, hle⟩
    · rcases getElem?_clearAreas hk with ⟨-, hk⟩ | ⟨-, rfl⟩
      · exact h.bounds k I hk
      · exact ⟨.inl rfl, Nat.zero_le _⟩
  disjoint k k' I I' i hk hk' hi hi' := by
    rcases getElem?_mergedLayout hk hi with ⟨rfl, rfl⟩ | ⟨hmem, hk1⟩ <;>
      rcases getElem?_mergedLayout hk' hi' with ⟨rfl, rfl⟩ | ⟨hmem', hk2⟩
    · rfl
    · exact absurd (h.mem_of_within htiles hk2 hi' hi.1 hi.2) hmem'
    · exact absurd (h.mem_of_within htiles hk1 hi hi'.1 hi'.2) hmem
    · exact h.disjoint _ _ _ _ _ hk1 hk2 hi hi'
  entry p j hp hsearch := by
    obtain ⟨k, I, ix, hent⟩ := h.entry p j hp hsearch
    obtain ⟨k', I', hent'⟩ := h.entry_merged htiles hk0 hlt hle hq hent hp
    exact ⟨k', I', _, hent'⟩
  free p hp hnone k I hk hw := by
    rcases getElem?_mergedLayout hk hw with ⟨-, rfl⟩ | ⟨-, hk⟩
    · obtain ⟨k', -, J, hJ, hwJ⟩ := htiles.exists_within hw.1 hw.2
      exact h.free p hp hnone k' J hJ hwJ
    · exact h.free p hp hnone k I hk hw
  appended := h.appended
  indexed j ix hj := by
    change (c.index.map _)[j]? = some ix at hj
    rw [getElem?_map] at hj
    obtain ⟨ix', hix', rfl⟩ := Option.map_eq_some_iff.mp hj
    have hoffset : (relocate c.chunkSize s k₀ q ix').offset = ix'.offset := by
      unfold relocate
      split_ifs <;> rfl
    rw [hoffset]
    exact h.indexed j ix' hix'
  buffer k hk := by
    change (if c.updateBuffer = ks.getLast? then some k₀ else c.updateBuffer) = some k at hk
    show ∃ I, _ ∧ Within (c.storedCount - 1) I
    split_ifs at hk with huse
    · cases hk
      rcases hlast : ks.getLast? with - | k'
      · rw [getLast?_eq_none_iff.mp hlast] at hk0
        cases hk0
      · obtain ⟨I, hI, hw⟩ := h.buffer k' (huse.trans hlast)
        obtain ⟨J, hJ, hs, -, hJe⟩ := htiles.bounds (mem_of_getLast? hlast)
        cases hI.symm.trans hJ
        exact ⟨(s, e), getElem?_mergedLayout_self htiles hk0, hs.trans hw.1,
          lt_of_lt_of_le hw.2 hJe⟩
    · obtain ⟨I, hI, hw⟩ := h.buffer k hk
      refine ⟨I, (getElem?_mergedLayout_of_notMem hk0 fun hmem => huse ?_).trans hI, hw⟩
      -- among the merged areas, only the last one can reach to the end
      obtain ⟨J, hJ, -, -, hJe⟩ := htiles.bounds hmem
      cases hI.symm.trans hJ
      have hw2 := hw.2
      rw [hk, htiles.getLast?_of_end hmem hI (by omega)]

theorem relocate_byteLen (chunkSize s k p : ℕ) (ix : ObLobChunkIndex) :
    (relocate chunkSize s k p ix).byteLen = ix.byteLen := by
  unfold relocate
  split_ifs <;> rfl

theorem Refines.merged (h : Refines orig L c a) (htiles : Tiles L ks s e) (hk0 : k₀ ∈ ks)
    (hlt : s < e) (hle : e ≤ c.storedCount) {q : ℕ}
    (hq : q = (endByte c.chunkSize c.storedCount a.length (s, e) - 1) / c.chunkSize + 1) :
    Refines orig (mergedLayout L ks k₀ s e) (merged c a ks k₀ s e q) a := by
  have hlaid := h.laid.merged htiles hk0 hlt hle hq
  have hne : ks ≠ [] := ne_nil_of_mem hk0
  have hlens : Lens (Lob.merged c a ks k₀ s e q) a.length none := by
    intro p j ix hp hne' hsearch hj
    obtain ⟨k, I, ix', hent⟩ := h.laid.entry p j hp hsearch
    obtain ⟨k', I', hent'⟩ := h.laid.entry_merged htiles hk0 hlt hle hq hent hp
    cases hent'.index.symm.trans hj
    rw [relocate_byteLen]
    exact h.lens p j ix' hp hne' hsearch hent.index
  refine ⟨hlaid, hlens, ⟨fun p j ix hp hsearch hj => ?_, h.old.unfetched⟩, h.ori, h.length, ?_,
    h.stored⟩
  · obtain ⟨k, I, ix', hent⟩ := h.laid.entry p j (Nat.le_of_lt hp) hsearch
    obtain ⟨k', I', hent'⟩ := h.laid.entry_merged htiles hk0 hlt hle hq hent (Nat.le_of_lt hp)
    cases hent'.index.symm.trans hj
    have hold := h.old.entry p j ix' hp hsearch hent.index
    have hread := h.laid.readData_entry hent hp (h.lens p j ix' hp.le (by simp) hsearch hent.index)
    have hread' := hlaid.readData_entry hent' hp (hlens p j _ hp.le (by simp) hsearch hj)
    have holdIdx : (relocate c.chunkSize s k₀ q ix').oldDataIdx = ix'.oldDataIdx := by
      unfold relocate
      split_ifs <;> rfl
    have hmod : (relocate c.chunkSize s k₀ q ix').isModified = ix'.isModified := by
      unfold relocate
      split_ifs <;> rfl
    unfold OldEntry at hold ⊢
    rw [holdIdx, hmod, hread']
    rw [hread] at hold
    exact hold
  · -- the areas have the same number of bytes as before
    have hvalid : ∀ k ∈ ks, k < c.data.length := fun k hk => by
      obtain ⟨I, hI, -⟩ := htiles.bounds hk
      rw [h.laid.data, length_map]
      exact (List.getElem?_eq_some_iff.mp hI).1
    have hcleared := sum_foldl_set htiles.nodup hvalid
    have hempty : (ks.foldl (fun d k => d.set k []) c.data)[k₀]? = some [] := by
      rw [h.laid.data, foldl_set_map h.laid.areaBytes_empty, getElem?_map]
      rcases hk : (clearAreas L ks)[k₀]? with - | I
      · have hlen := hvalid k₀ hk0
        rw [h.laid.data, length_map] at hlen
        rw [List.getElem?_eq_none_iff, length_clearAreas] at hk
        omega
      · rcases getElem?_clearAreas hk with ⟨hmem, -⟩ | ⟨-, rfl⟩
        · exact absurd hk0 hmem
        · rw [Option.map_some, h.laid.areaBytes_empty]
    have hset := sum_map_set List.length hempty (areaBytes c.chunkSize c.storedCount a (s, e))
    have hindex : (c.index.map (relocate c.chunkSize s k₀ q)).map ObLobChunkIndex.byteLen =
        c.index.map ObLobChunkIndex.byteLen := by
      rw [map_map]
      exact map_congr_left fun ix _ => relocate_byteLen _ _ _ _ ix
    show ((List.set _ k₀ _).map List.length).sum = ((c.index.map _).map _).sum
    rw [hindex, ← h.sum, ← hcleared, htiles.flatten h.laid hne hle]
    rw [length_nil] at hset
    omega

/-- Areas that tile a range of stored chunks are merged into the first of them. -/
theorem Refines.mergeAreas (h : Refines orig L c a) (htiles : Tiles L (k₀ :: ks) s e)
    (hle : e ≤ c.storedCount) :
    c.mergeAreas s ((endByte c.chunkSize c.storedCount a.length (s, e) - 1) / c.chunkSize)
        (k₀ :: ks) =
      .ok (Lob.merged c a (k₀ :: ks) k₀ s e
        ((endByte c.chunkSize c.storedCount a.length (s, e) - 1) / c.chunkSize + 1)) := by
  have hk0 : k₀ ∈ k₀ :: ks := mem_cons_self
  have hlt : s < e := by
    obtain ⟨I, -, hs, hI, hrest⟩ := id htiles
    have := hrest.le
    omega
  have hvalid : ∀ k ∈ k₀ :: ks, k < c.data.length := fun k hk => by
    obtain ⟨I, hI, -⟩ := htiles.bounds hk
    rw [h.laid.data, length_map]
    exact (List.getElem?_eq_some_iff.mp hI).1
  -- the update buffer is not in front of another area
  have huse : c.useUpdateBuffer (k₀ :: ks) =
      .ok (decide (c.updateBuffer = (k₀ :: ks).getLast?)) := by
    unfold ObLobCursor.useUpdateBuffer
    rcases hbuf : c.updateBuffer with - | k
    · simp [getLast?_cons]
    · dsimp only
      rw [if_neg fun hmem => ?_]
      · exact congrArg Except.ok (decide_eq_decide.mpr eq_comm)
      · obtain ⟨I, hI, hw⟩ := h.laid.buffer k hbuf
        have hmem' := dropLast_subset _ hmem
        obtain ⟨J, hJ, -, -, hJe⟩ := htiles.bounds hmem'
        cases hI.symm.trans hJ
        have hw2 := hw.2
        have hlast := htiles.getLast?_of_end hmem' hI (by omega)
        have hnodup := htiles.nodup
        rw [← dropLast_append_getLast? k hlast] at hnodup
        exact (disjoint_of_nodup_append hnodup) hmem (mem_singleton_self k)
  have hcopy := copyAreas_eq htiles.nodup hvalid
  have hbytes := htiles.flatten h.laid (cons_ne_nil _ _) hle
  have hloop := h.updateChunkIndexes_eq (k := k₀) (p := s)
    ((k₀ :: ks).foldl (fun d k => d.set k []) c.data)
    ((endByte c.chunkSize c.storedCount a.length (s, e) - 1) / c.chunkSize + 1 - s) le_rfl
    (fun _ _ => by rw [Nat.sub_self, Nat.zero_mul]) fun q hs hq => ?_
  · have hstart : c.index.map (relocate c.chunkSize s k₀ s) = c.index := by
      refine (map_congr_left fun ix _ => ?_).trans (map_id _)
      exact if_neg (by omega)
    have hs : s ≤ (endByte c.chunkSize c.storedCount a.length (s, e) - 1) / c.chunkSize + 1 :=
      ((h.laid.le_lastPos hle hlt).mpr
        (h.laid.lt_endByte (show s < (s, e).2 from hlt) hle)).trans (Nat.le_succ _)
    have hcount : ¬ c.storedCount < s := by omega
    have hsum := (h.merged htiles hk0 hlt hle rfl).sum
    rw [hstart, decide_eq_false hcount, show s + (_ + 1 - s) = _ + 1 from Nat.add_sub_cancel' hs]
      at hloop
    unfold ObLobCursor.mergeAreas
    rw [huse]
    simp only [bind, Except.bind, hcopy]
    rw [if_neg (by
      rw [ne_eq, not_not, length_flatten, map_map]
      rfl)]
    rw [hloop]
    dsimp only
    rw [hbytes]
    simp only [ObLobCursor.checkDataLength, decide_eq_true_eq]
    rw [if_neg (by rw [ne_eq, not_not]; exact hsum)]
    rfl
  · have hend := (h.laid.le_lastPos hle hlt).mp (show q ≤ _ by omega)
    have hlen := h.laid.endByte_le (show (s, e).2 ≤ c.storedCount from hle)
    refine ⟨lt_of_lt_of_le hend hlen, ?_⟩
    rcases Nat.lt_or_ge q c.storedCount with hq' | hq'
    · rw [min_eq_left (by omega)]
      by_contra hnone
      obtain ⟨k, -, I, hI, hw⟩ := htiles.exists_within hs (lt_of_lt_endByte hq' hend)
      exact h.laid.free q hq' (Option.not_isSome_iff_eq_none.mp hnone) k I hI hw
    · rw [min_eq_right hq']
      have := Nat.mul_le_mul_right c.chunkSize hq'
      exact h.laid.appended.mpr (by omega)

end Merge

/-! ### `merge_chunk_data` -/

section MergeChunkData

variable {L : List (ℕ × ℕ)} {c : ObLobCursor} {a orig : List UInt8} {p q j k : ℕ} {I : ℕ × ℕ}
  {ix : ObLobChunkIndex}

theorem Entry.offset_sub_pos (hent : Entry L c p j k I ix) :
    ix.offset - ix.pos = I.1 * c.chunkSize := by
  have hle := Nat.mul_le_mul_right c.chunkSize (hent.within.1.trans (min_le_left _ _))
  rw [hent.offset, hent.pos, Nat.sub_mul]
  omega

/-- A position lies in front of the end of its area. -/
theorem Laid.lt_endByte_entry (h : Laid L c a) (hlen : p * c.chunkSize < a.length)
    (hent : Entry L c (min p c.storedCount) j k I ix) :
    p * c.chunkSize < endByte c.chunkSize c.storedCount a.length I := by
  have hbounds := h.bounds k I hent.area
  have hw := hent.within.2
  rcases Nat.lt_or_ge p c.storedCount with hp | hp
  · exact h.lt_endByte (by omega) hbounds.2
  · rw [endByte, if_pos (by omega)]
    exact hlen

/-- The last position of an area lies in it. -/
theorem Laid.within_lastPos (h : Laid L c a) (hle : I.2 ≤ c.storedCount) (hlt : I.1 < I.2) :
    Within (min ((endByte c.chunkSize c.storedCount a.length I - 1) / c.chunkSize)
      (c.storedCount - 1)) I := by
  have hpos := h.storedCount_spec.1
  have hlast (r : ℕ) := @Laid.le_lastPos L c a I.1 I.2 h hle hlt r
  have hstart := (hlast I.1).mpr (h.lt_endByte hlt hle)
  have hend := (hlast (I.2 - 1)).mpr (h.lt_endByte (by omega) hle)
  have hbehind : I.2 < c.storedCount →
      ¬ I.2 ≤ (endByte c.chunkSize c.storedCount a.length I - 1) / c.chunkSize := by
    intro hlt' hc
    have := (hlast I.2).mp hc
    rw [endByte, if_neg (by dsimp only; omega)] at this
    exact lt_irrefl _ this
  unfold Within
  change I.1 ≤ (endByte c.chunkSize c.storedCount a.length I - 1) / c.chunkSize at hstart
  change I.2 - 1 ≤ (endByte c.chunkSize c.storedCount a.length I - 1) / c.chunkSize at hend
  omega

/-- After `merge_chunk_data` the first and the last chunk of the range lie in one area. -/
theorem Refines.mergeChunkData (h : Refines orig L c a) (hpq : p ≤ q)
    (hq : q * c.chunkSize < a.length) :
    ∃ L' c' I, ∃ k : ℕ, c.mergeChunkData p q = .ok c' ∧ Refines orig L' c' a ∧
      c'.chunkSize = c.chunkSize ∧ L'[k]? = some I ∧
      Within (min p (c.storedCount - 1)) I ∧ Within (min q (c.storedCount - 1)) I := by
  have hp : p * c.chunkSize < a.length :=
    lt_of_le_of_lt (Nat.mul_le_mul_right _ hpq) hq
  obtain ⟨j1, k1, I1, ix1, L1, c1, hchunk1, h₁, hgrows1, hent1⟩ := h.getChunk hp
  have hcs1 := hgrows1.chunkSize
  have hcount1 := hgrows1.storedCount
  obtain ⟨j2, k2, I2, ix2, L2, c2, hchunk2, h₂, hgrows2, hent2⟩ :=
    h₁.getChunk (by rw [hcs1]; exact hq)
  have hcs2 : c2.chunkSize = c.chunkSize := hgrows2.chunkSize.trans hcs1
  have hcount2 : c2.storedCount = c.storedCount := hgrows2.storedCount.trans hcount1
  have hent1' := hgrows2.entry hent1
  rw [← hcount2] at hent1'
  rw [hcount1, ← hcount2] at hent2
  have hbounds1 := h₂.laid.bounds _ _ hent1'.area
  have hbounds2 := h₂.laid.bounds _ _ hent2.area
  have hlt1 : I1.1 < I1.2 := lt_of_le_of_lt hent1'.within.1 hent1'.within.2
  have hlt2 : I2.1 < I2.2 := lt_of_le_of_lt hent2.within.1 hent2.within.2
  set E := (endByte c2.chunkSize c2.storedCount a.length I2 - 1) / c2.chunkSize with hE
  have hlast (r : ℕ) : r ≤ E ↔ r * c2.chunkSize < endByte c2.chunkSize c2.storedCount a.length I2 :=
    @Laid.le_lastPos L2 c2 a I2.1 I2.2 h₂.laid hbounds2.2 hlt2 r
  have hqE : q ≤ E := (hlast q).mpr (h₂.laid.lt_endByte_entry (by rw [hcs2]; exact hq) hent2)
  have hsp : I1.1 ≤ p := hent1'.within.1.trans ((min_le_left _ _).trans (min_le_left _ _))
  -- the first and the last position
  have hstartPos : c.getChunkDataStartPos p = .ok (I1.1, c1) := by
    simp only [ObLobCursor.getChunkDataStartPos, hchunk1, bind, Except.bind,
      ObLobCursor.getChunkPos, hent1.offset_sub_pos,
      Nat.mul_div_cancel _ h₁.laid.chunkSize_pos]
  have hendPos : c1.getChunkDataEndPos q = .ok (E, c2) := by
    have hlen := h₂.laid.length_areaBytes hbounds2.2
    rw [← hgrows2.chunkSize, ← hgrows2.storedCount] at hchunk2
    simp only [ObLobCursor.getChunkDataEndPos, hchunk2, bind, Except.bind, ObLobCursor.getChunkPos,
      hent2.offset_sub_pos, hlen]
    rw [hE, Nat.add_sub_cancel' (h₂.laid.lt_endByte hlt2 hbounds2.2).le]
  have hnone : Collected L2 c2 [] I1.1 I1.1 :=
    .inl ⟨rfl, rfl, k1, I1, hent1'.area, rfl, hlt1, hbounds1.2⟩
  obtain ⟨ks, L', c', hcollect, h', hgrows', hcollected⟩ :=
    h₂.collectDataIdx (E + 1 - I1.1) hnone fun r hr =>
      lt_of_lt_of_le ((hlast r).mp (by omega)) (h₂.laid.endByte_le hbounds2.2)
  rw [Nat.add_sub_cancel' (by omega)] at hcollected
  rcases hcollected with ⟨-, hc, -⟩ | ⟨k3, I3, hlast3, hk3, -, hw3, htiles⟩
  · omega
  have hcs' := hgrows'.chunkSize
  have hcount' := hgrows'.storedCount
  rw [Nat.add_sub_cancel, hcount'] at hw3
  -- the last collected area is the one of the last position
  have hw2 := h₂.laid.within_lastPos hbounds2.2 hlt2
  have hk2 := hgrows'.layout _ _ hent2.area
  obtain rfl := h'.laid.disjoint _ _ _ _ _ hk3 hk2 hw3 hw2
  cases hk3.symm.trans hk2
  have hrun : c.mergeChunkData p q =
      if ks.length ≠ 1 then c'.mergeAreas I1.1 E ks else .ok c' := by
    simp only [ObLobCursor.mergeChunkData, hstartPos, hendPos, hcollect, bind, Except.bind]
  have hwp : Within (min p (c.storedCount - 1)) (I1.1, I2.2) ∧
      Within (min q (c.storedCount - 1)) (I1.1, I2.2) := by
    have h1 := hent1'.within
    have h2 := hent2.within
    have hpos := h₂.laid.storedCount_spec.1
    rw [hcount2] at h1 h2 hpos
    unfold Within at *
    dsimp only
    omega
  obtain ⟨k₀, rest, rfl⟩ : ∃ k₀ rest, ks = k₀ :: rest :=
    exists_cons_of_ne_nil fun hnil => by simp [hnil] at hlast3
  by_cases hone : (k₀ :: rest).length ≠ 1
  · have hle : I2.2 ≤ c'.storedCount := hcount' ▸ hbounds2.2
    have hlt : I1.1 < I2.2 := lt_of_le_of_lt hwp.1.1 hwp.1.2
    have hmerge := h'.mergeAreas htiles hle
    rw [hcs', hcount'] at hmerge
    refine ⟨_, _, (I1.1, I2.2), k₀, ?_, h'.merged htiles mem_cons_self hlt hle rfl,
      hcs'.trans hcs2, getElem?_mergedLayout_self htiles mem_cons_self, hwp⟩
    rw [hrun, if_pos hone, hcs', hcount']
    exact hmerge
  · obtain rfl : rest = [] := by simpa using hone
    obtain ⟨J, hJ, hs, -, hend⟩ := htiles
    refine ⟨L', c', J, k₀, by rw [hrun, if_neg hone], h', hcs'.trans hcs2, hJ, ?_⟩
    rw [show J = (I1.1, I2.2) from Prod.ext hs hend]
    exact hwp

end MergeChunkData

end Andl.Lob
