import Andl.Lob.Equiv.CursorSet

/-!
# The cursor of a LOB refines a byte array
-/

namespace Andl.Lob

open List

/-! ### Chunks -/

theorem flatten_map_chunkAt (cs : ℕ) (a : List UInt8) (n : ℕ) :
    ((List.range n).map (chunkAt cs a)).flatten = a.take (n * cs) := by
  induction n with
  | zero => simp
  | succ n ih =>
    rw [range_succ, map_append, flatten_append, ih, map_singleton,
      flatten_singleton, Nat.succ_mul, take_add, chunkAt]

theorem flatten_chunks {cs : ℕ} (hcs : 0 < cs) (a : List UInt8) : (chunks cs a).flatten = a := by
  have hle : a.length ≤ (a.length + cs - 1) / cs * cs := by
    have := Nat.lt_div_mul_add (a := a.length + cs - 1) hcs
    omega
  exact (flatten_map_chunkAt cs a _).trans (take_of_length_le hle)

theorem chunks_nil (cs : ℕ) : chunks cs [] = [] := by
  rw [chunks, length_nil, Nat.zero_add, map_eq_nil_iff, range_eq_nil]
  rcases Nat.eq_zero_or_pos cs with rfl | hcs
  · rfl
  · exact Nat.div_eq_of_lt (by omega)

theorem length_chunks (cs : ℕ) (a : List UInt8) :
    (chunks cs a).length = (a.length + cs - 1) / cs := by
  rw [chunks, length_map, length_range]

/-! ### The rows of the update -/

/-- The rows that update chunks to those of `a`, or add all bytes behind the first `count` ones. -/
def RowFor (cs count : ℕ) (a : List UInt8) : UpdateRow → Prop
  | .update seqId _ newData => ∃ p, seqId = some p ∧ p < count ∧ newData = chunkAt cs a p
  | .add offset newData => offset = count * cs ∧ newData = a.drop (count * cs)

/-- Applying the rows replaces the chunks that are not right yet. -/
theorem foldl_apply {cs count : ℕ} {a : List UInt8} (hcs : 0 < cs) {rows : List UpdateRow}
    {stored : List (List UInt8)} (hrows : ∀ row ∈ rows, RowFor cs count a row)
    (hlen : count ≤ stored.length)
    (hset : ∀ p, p < count → stored[p]? = some (chunkAt cs a p) ∨
      ∃ old, UpdateRow.update (some p) old (chunkAt cs a p) ∈ rows)
    (htail : stored.drop count = chunks cs (a.drop (count * cs)) ∨
      ∃ offset newData, UpdateRow.add offset newData ∈ rows) :
    rows.foldl (UpdateRow.apply cs) stored =
      (List.range count).map (chunkAt cs a) ++ chunks cs (a.drop (count * cs)) := by
  induction rows generalizing stored with
  | nil =>
    have htake : stored.take count = (List.range count).map (chunkAt cs a) := by
      refine ext_getElem? fun p => ?_
      rw [getElem?_take, getElem?_map]
      split_ifs with hp
      · rw [(hset p hp).resolve_right (by simp), getElem?_range hp]
        rfl
      · rw [getElem?_eq_none (by rw [length_range]; omega)]
        rfl
    rw [foldl_nil, ← take_append_drop count stored, htake,
      htail.resolve_right (by simp)]
  | cons row rows ih =>
    rw [foldl_cons]
    have hrow := hrows row mem_cons_self
    have hrest := fun r hr => hrows r (mem_cons_of_mem row hr)
    cases row with
    | update seqId old newData =>
      obtain ⟨q, rfl, hq, rfl⟩ := hrow
      refine ih hrest (by rw [UpdateRow.apply, length_set]; exact hlen) (fun p hp => ?_) ?_
      · rw [UpdateRow.apply, getElem?_set]
        split_ifs with heq hlt
        · exact .inl (by rw [heq])
        · omega
        · refine (hset p hp).imp_right fun ⟨old', hmem⟩ => ⟨old', ?_⟩
          refine (mem_cons.mp hmem).resolve_left fun h => heq ?_
          cases h
          rfl
      · refine htail.imp (fun h => ?_) fun ⟨offset, newData, hmem⟩ => ⟨offset, newData, ?_⟩
        · rw [UpdateRow.apply, drop_set_of_lt hq, h]
        · exact (mem_cons.mp hmem).resolve_left (by simp)
    | add offset newData =>
      obtain ⟨rfl, rfl⟩ := hrow
      have happly : UpdateRow.apply cs stored (.add (count * cs) (a.drop (count * cs))) =
          stored.take count ++ chunks cs (a.drop (count * cs)) := by
        rw [UpdateRow.apply, Nat.mul_div_cancel _ hcs]
      have htake : (stored.take count).length = count := by
        rw [length_take]
        omega
      rw [happly]
      refine ih hrest (by rw [length_append]; omega) (fun p hp => ?_) (.inl ?_)
      · rw [getElem?_append_left (by omega), getElem?_take_of_lt hp]
        refine (hset p hp).imp_right fun ⟨old', hmem⟩ => ⟨old', ?_⟩
        exact (mem_cons.mp hmem).resolve_left (by simp)
      · rw [drop_append_of_le_length (by omega), drop_of_length_le (by omega),
          nil_append]

section Rows

variable {L : List (ℕ × ℕ)} {c : ObLobCursor} {a orig : List UInt8} {p j : ℕ}
  {ix : ObLobChunkIndex}

/-- The added bytes, read from their area. -/
theorem Refines.readData_added (h : Refines orig L c a) {k : ℕ} {I : ℕ × ℕ}
    (he : Entry L c c.storedCount j k I ix) :
    c.readData ix.dataIdx ix.pos ix.byteLen = .ok (a.drop (c.storedCount * c.chunkSize)) := by
  have hlen := h.lens _ j ix le_rfl (by simp) he.search he.index
  rw [ObLobCursor.chunkLen, if_neg (lt_irrefl _)] at hlen
  have hw := he.within
  rw [min_eq_right (Nat.sub_le _ _)] at hw
  have hend : I.2 = c.storedCount := by
    have := (h.laid.bounds k I he.area).2
    have := hw.2
    omega
  have hadd := h.laid.appended.mp (Option.isSome_iff_exists.mpr ⟨j, he.search⟩)
  have hstart := Nat.mul_le_mul_right c.chunkSize (hw.1.trans (Nat.sub_le c.storedCount 1))
  have hread := @Laid.readData L c a k I h.laid he.area (c.storedCount * c.chunkSize) ix.byteLen
    hstart (by rw [endByte, if_pos hend]; omega)
  rw [he.dataIdx, he.pos, Nat.sub_mul, hread, hlen]
  exact congrArg Except.ok (take_of_length_le (by rw [length_drop]))

/-- The row of a chunk index: none, or one that brings the chunk to its bytes. -/
theorem Refines.rowOf (h : Refines orig L c a) (hj : c.index[j]? = some ix) :
    ∃ row, c.rowOf ix = .ok row ∧ (∀ r, row = some r → RowFor c.chunkSize c.storedCount a r) ∧
      (∀ p, p < c.storedCount → c.searchMap p = some j →
        chunkAt c.chunkSize a p = chunkAt c.chunkSize orig p ∨
          ∃ old, row = some (.update (some p) old (chunkAt c.chunkSize a p))) ∧
      (c.searchMap c.storedCount = some j →
        ∃ offset newData, row = some (.add offset newData)) := by
  obtain ⟨hsearch, hle⟩ := h.laid.indexed j ix hj
  set p := ix.offset / c.chunkSize
  obtain ⟨k, I, ix', he⟩ := h.laid.entry p j hle hsearch
  cases he.index.symm.trans hj
  have hinj (q : ℕ) (hq : q ≤ c.storedCount) (hqj : c.searchMap q = some j) : q = p :=
    h.laid.toArranged.search_inj hq hle hqj hsearch
  unfold ObLobCursor.rowOf
  rcases Nat.lt_or_ge p c.storedCount with hlt | hge
  · have hnotAdd : ix.isAdd = false := by
      rw [he.isAdd]
      exact decide_eq_false (by omega)
    have hseq : ix.seqId = some p := he.seqId.trans (if_neg (by omega))
    have hread := h.laid.readData_entry he hlt (h.lens p j ix hle (by simp) hsearch hj)
    have hold := h.old.entry p j ix hlt hsearch hj
    unfold OldEntry at hold
    rcases ho : ix.oldDataIdx with - | o <;> rw [ho] at hold
    · refine ⟨none, ?_, by simp, fun q hq hqj => .inl ?_, fun hA => ?_⟩
      · rw [if_neg (by simp [hold.1, hnotAdd])]
      · obtain rfl := hinj q hq.le hqj
        exact Except.ok.inj (hread.symm.trans hold.2)
      · have := hinj _ le_rfl hA
        omega
    · refine ⟨some (.update (some p) (chunkAt c.chunkSize orig p) (chunkAt c.chunkSize a p)), ?_,
        fun r hr => ?_, fun q hq hqj => .inr ?_, fun hA => ?_⟩
      · rw [if_pos (.inl hold.1)]
        simp only [hread, bind, Except.bind, hnotAdd, hold.2, hseq]
        rfl
      · cases hr
        exact ⟨p, rfl, hlt, rfl⟩
      · obtain rfl := hinj q hq.le hqj
        exact ⟨_, rfl⟩
      · have := hinj _ le_rfl hA
        omega
  · have hpA : p = c.storedCount := by omega
    rw [hpA] at he
    have hisAdd : ix.isAdd = true := by rw [he.isAdd, decide_eq_true rfl]
    refine ⟨some (.add ix.offset (a.drop (c.storedCount * c.chunkSize))), ?_, fun r hr => ?_,
      fun q hq hqj => ?_, fun _ => ⟨_, _, rfl⟩⟩
    · rw [if_pos (.inr hisAdd)]
      simp only [h.readData_added he, bind, Except.bind, hisAdd]
      rfl
    · cases hr
      exact ⟨he.offset, rfl⟩
    · have := hinj q hq.le hqj
      omega

theorem mapM_rowOf {l : List ObLobChunkIndex} (hl : ∀ ix ∈ l, ∃ row, c.rowOf ix = .ok row) :
    ∃ rows, l.mapM c.rowOf = .ok rows ∧
      ∀ row, row ∈ rows ↔ ∃ ix ∈ l, c.rowOf ix = .ok row := by
  induction l with
  | nil => exact ⟨[], rfl, by simp⟩
  | cons x l ih =>
    obtain ⟨row, hrow⟩ := hl x mem_cons_self
    obtain ⟨rows, hrows, hmem⟩ := ih fun ix hix => hl ix (mem_cons_of_mem x hix)
    refine ⟨row :: rows, ?_, fun r => ?_⟩
    · rw [mapM_cons, hrow, hrows]
      rfl
    · rw [mem_cons, hmem]
      constructor
      · rintro (rfl | ⟨ix, hix, hr⟩)
        · exact ⟨x, mem_cons_self, hrow⟩
        · exact ⟨ix, mem_cons_of_mem x hix, hr⟩
      · rintro ⟨ix, hix, hr⟩
        rcases mem_cons.mp hix with rfl | hix
        · exact .inl (Except.ok.inj (hr.symm.trans hrow))
        · exact .inr ⟨ix, hix, hr⟩

/-- The rows of the update, applied to the stored chunks, make the bytes of the cursor. -/
theorem Refines.updateRows (h : Refines orig L c a) :
    ∃ rows, c.updateRows = .ok rows ∧
      (rows.foldl (UpdateRow.apply c.chunkSize) (chunks c.chunkSize orig)).flatten = a := by
  have hcs := h.laid.chunkSize_pos
  have hcount : (chunks c.chunkSize orig).length = c.storedCount := by
    rw [length_chunks, ObLobCursor.storedCount, ObLobCursor.getChunkPos, h.ori]
  have hmemIndex (ix : ObLobChunkIndex) :
      ix ∈ c.index.mergeSort (fun x y => x.offset ≤ y.offset) ↔ ix ∈ c.index :=
    (mergeSort_perm c.index _).mem_iff
  obtain ⟨rows, hrows, hmem⟩ := @mapM_rowOf c
    (c.index.mergeSort fun x y => x.offset ≤ y.offset) fun ix hix => by
      obtain ⟨j, hj⟩ := getElem?_of_mem ((hmemIndex ix).mp hix)
      obtain ⟨row, hrow, -⟩ := h.rowOf hj
      exact ⟨row, hrow⟩
  refine ⟨rows.filterMap id, by rw [ObLobCursor.updateRows, hrows]; rfl, ?_⟩
  -- the row of a chunk index is among the rows
  have hin {j : ℕ} {ix : ObLobChunkIndex} {r : UpdateRow} (hj : c.index[j]? = some ix)
      (hr : c.rowOf ix = .ok (some r)) : r ∈ rows.filterMap id := by
    rw [mem_filterMap]
    exact ⟨some r, (hmem _).mpr ⟨ix, (hmemIndex ix).mpr (mem_of_getElem? hj), hr⟩, rfl⟩
  have hfor (r : UpdateRow) (hr : r ∈ rows.filterMap id) :
      RowFor c.chunkSize c.storedCount a r := by
    rw [mem_filterMap] at hr
    obtain ⟨row, hrow, hid⟩ := hr
    obtain ⟨ix, hix, hrow⟩ := (hmem row).mp hrow
    obtain ⟨j, hj⟩ := getElem?_of_mem ((hmemIndex ix).mp hix)
    obtain ⟨row', hrow', hfor, -⟩ := h.rowOf hj
    cases hrow'.symm.trans hrow
    exact hfor r hid
  have hset (p : ℕ) (hp : p < c.storedCount) :
      (chunks c.chunkSize orig)[p]? = some (chunkAt c.chunkSize a p) ∨
        ∃ old, .update (some p) old (chunkAt c.chunkSize a p) ∈ rows.filterMap id := by
    have hstored : (chunks c.chunkSize orig)[p]? = some (chunkAt c.chunkSize orig p) :=
      getElem?_chunks (by rw [← length_chunks, hcount]; exact hp)
    rw [hstored]
    rcases hsearch : c.searchMap p with - | j
    · exact .inl (congrArg some (h.old.unfetched p hp hsearch).symm)
    · obtain ⟨k, I, ix, he⟩ := h.laid.entry p j hp.le hsearch
      obtain ⟨row, hrow, -, hupdate, -⟩ := h.rowOf he.index
      rcases hupdate p hp hsearch with heq | ⟨old, rfl⟩
      · exact .inl (congrArg some heq.symm)
      · exact .inr ⟨old, hin he.index hrow⟩
  have htail : (chunks c.chunkSize orig).drop c.storedCount =
      chunks c.chunkSize (a.drop (c.storedCount * c.chunkSize)) ∨
        ∃ offset newData, .add offset newData ∈ rows.filterMap id := by
    rcases hsearch : c.searchMap c.storedCount with - | j
    · have hle : ¬ c.storedCount * c.chunkSize < a.length := by
        rw [← h.laid.appended, hsearch]
        exact Bool.false_ne_true
      refine .inl ?_
      rw [drop_of_length_le hcount.le, drop_of_length_le (by omega), chunks_nil]
    · obtain ⟨k, I, ix, he⟩ := h.laid.entry _ j le_rfl hsearch
      obtain ⟨row, hrow, -, -, hadd⟩ := h.rowOf he.index
      obtain ⟨offset, newData, rfl⟩ := hadd hsearch
      exact .inr ⟨offset, newData, hin he.index hrow⟩
  rw [foldl_apply hcs hfor hcount.ge hset htail, flatten_append, flatten_map_chunkAt,
    flatten_chunks hcs, take_append_drop]

/-- A chunk index of a stored chunk has its bytes, or them as its old data. -/
theorem Refines.oldData (h : Refines orig L c a) (hix : ix ∈ c.index) {i : ℕ}
    (hseq : ix.seqId = some i) :
    ∃ bytes, (chunks c.chunkSize orig)[i]? = some bytes ∧
      (ix.isModified = true → ∃ o, ix.oldDataIdx = some o ∧ c.oldData[o]? = some bytes) ∧
      (ix.isModified = false → c.readData ix.dataIdx ix.pos ix.byteLen = .ok bytes) := by
  obtain ⟨j, hj⟩ := getElem?_of_mem hix
  obtain ⟨hsearch, hle⟩ := h.laid.indexed j ix hj
  obtain ⟨k, I, ix', he⟩ := h.laid.entry _ j hle hsearch
  cases he.index.symm.trans hj
  have hcase := he.seqId
  rw [hseq] at hcase
  split_ifs at hcase with hA
  obtain rfl := Option.some.inj hcase
  have hlt : ix.offset / c.chunkSize < c.storedCount := lt_of_le_of_ne hle hA
  refine ⟨chunkAt c.chunkSize orig _, getElem?_chunks ?_, ?_, ?_⟩
  · rw [← h.ori]
    exact hlt
  all_goals
    have hold := h.old.entry _ j ix hlt hsearch hj
    unfold OldEntry at hold
    intro hmod
    rcases ho : ix.oldDataIdx with - | o <;> rw [ho] at hold
  · exact absurd (hmod.symm.trans hold.1) (by decide)
  · exact ⟨o, rfl, hold.2⟩
  · exact hold.2
  · exact absurd (hmod.symm.trans hold.1) (by decide)

end Rows

/-! ### Opening -/

section Open

variable {cs : ℕ} {a : List UInt8}

/-- **A cursor in partial mode starts with the stored bytes**, and nothing is fetched. -/
theorem refines_openPartial (hcs : 0 < cs) (ha : 0 < a.length) :
    Refines a [] (.openPartial cs a) a where
  laid :=
    { chunkSize_pos := hcs
      ori_pos := ha
      bounds := by simp
      disjoint := by simp
      entry := by
        intro p j hp h
        cases h
      free := by simp
      indexed := by
        intro j ix h
        cases h
      buffer := by
        intro k h
        cases h
      ori_le := le_rfl
      data := rfl
      appended := by
        obtain ⟨-, -, hle⟩ := @storedCount_spec (.openPartial cs a) hcs ha
        exact iff_of_false Bool.false_ne_true (Nat.not_lt.mpr hle) }
  lens := by
    intro p j ix hp hne h
    cases h
  old :=
    { entry := by
        intro p j ix hp h
        cases h
      unfetched := fun _ _ _ => rfl }
  ori := rfl
  length := rfl
  sum := rfl
  stored _ := rfl

/-- The chunk index of a chunk in the area of the whole LOB. -/
def fullIndex (cs : ℕ) (a : List UInt8) (i : ℕ) : ObLobChunkIndex :=
  { seqId := some i, offset := i * cs, pos := i * cs,
    byteLen := min a.length (i * cs + cs) - i * cs, dataIdx := 0 }

/-- A cursor with all the data, of which the first `n` chunks are indexed. -/
def loaded (cs : ℕ) (a : List UInt8) (n : ℕ) : ObLobCursor :=
  { ObLobCursor.openPartial cs a with
    data := [a], updateBuffer := some 0,
    index := (List.range n).map (fullIndex cs a),
    searchMap := fun p => if p < n then some p else none }

theorem loadIndexes_loaded (hcs : 0 < cs) (n k : ℕ) :
    loadIndexes a (loaded cs a n) (List.range' n k) = .ok (loaded cs a (n + k)) := by
  induction k generalizing n with
  | zero => rfl
  | succ k ih =>
    have hpush : (loaded cs a n).pushChunkIndex (fullIndex cs a n) = .ok (loaded cs a (n + 1)) := by
      have hpos : (fullIndex cs a n).offset / (loaded cs a n).chunkSize = n :=
        Nat.mul_div_cancel n hcs
      have hnone : (loaded cs a n).searchMap n = none := if_neg (lt_irrefl n)
      unfold ObLobCursor.pushChunkIndex
      rw [hpos, hnone]
      refine congrArg Except.ok ?_
      unfold loaded
      congr 1
      · funext p
        simp only [Function.update_apply, length_map, length_range]
        split_ifs <;> first | rfl | omega | (congr 1; omega)
      · rw [range_succ, map_append]
        rfl
    rw [List.range'_succ, loadIndexes]
    show (loaded cs a n).pushChunkIndex (fullIndex cs a n) >>= _ = _
    rw [hpush]
    show loadIndexes a (loaded cs a (n + 1)) (List.range' (n + 1) k) = _
    rw [ih, show n + 1 + k = n + (k + 1) by omega]

theorem openFull_eq (hcs : 0 < cs) :
    ObLobCursor.openFull cs a = .ok (loaded cs a ((a.length + cs - 1) / cs)) := by
  have hrun := @loadIndexes_loaded cs a hcs 0 ((a.length + cs - 1) / cs)
  rw [Nat.zero_add, ← List.range_eq_range'] at hrun
  exact hrun

theorem searchMap_loaded {n p j : ℕ} (h : (loaded cs a n).searchMap p = some j) :
    p = j ∧ p < n := by
  change (if p < n then some p else none) = some j at h
  split_ifs at h with hlt
  exact ⟨Option.some.inj h, hlt⟩

theorem getElem?_index_loaded {n j : ℕ} {ix : ObLobChunkIndex}
    (h : (loaded cs a n).index[j]? = some ix) : j < n ∧ ix = fullIndex cs a j := by
  change ((List.range n).map (fullIndex cs a))[j]? = some ix at h
  rw [getElem?_map] at h
  obtain ⟨i, hi, rfl⟩ := Option.map_eq_some_iff.mp h
  obtain ⟨hlt, rfl⟩ := List.getElem?_eq_some_iff.mp hi
  rw [length_range] at hlt
  rw [getElem_range]
  exact ⟨hlt, rfl⟩

/-- The lengths of the chunks are those of the whole LOB. -/
theorem sum_byteLen_fullIndex (cs : ℕ) (a : List UInt8) (n : ℕ) :
    (((List.range n).map (fullIndex cs a)).map ObLobChunkIndex.byteLen).sum =
      min a.length (n * cs) := by
  induction n with
  | zero => simp
  | succ n ih =>
    rw [range_succ, map_append, map_append, sum_append, ih, Nat.succ_mul]
    simp only [map_singleton, sum_singleton, fullIndex]
    omega

/-- **A cursor in full mode starts with the stored bytes**, all in the update buffer. -/
theorem refines_loaded (hcs : 0 < cs) (ha : 0 < a.length) :
    Refines a [(0, (a.length + cs - 1) / cs)] (loaded cs a ((a.length + cs - 1) / cs)) a := by
  set n := (a.length + cs - 1) / cs
  have hcount : (loaded cs a n).storedCount = n := rfl
  obtain ⟨hpos, hlast, hle⟩ := @storedCount_spec (loaded cs a n) hcs ha
  rw [hcount] at hpos hlast hle
  change (n - 1) * cs < a.length at hlast
  change a.length ≤ n * cs at hle
  have harea (k : ℕ) (I : ℕ × ℕ) (hk : [(0, n)][k]? = some I) : k = 0 ∧ I = (0, n) := by
    rw [getElem?_singleton] at hk
    split_ifs at hk with hzero
    exact ⟨hzero, (Option.some.inj hk).symm⟩
  have hentry (p : ℕ) (hp : p < n) : Entry [(0, n)] (loaded cs a n) p p 0 (0, n)
      (fullIndex cs a p) := by
    have hne : p ≠ (loaded cs a n).storedCount := by
      rw [hcount]
      omega
    refine ⟨if_pos hp, rfl, ?_, ?_, rfl, rfl, rfl, (decide_eq_false hne).symm, (if_neg hne).symm⟩
    · rw [hcount]
      exact ⟨Nat.zero_le _, by show min p (n - 1) < n; omega⟩
    · show ((List.range n).map (fullIndex cs a))[p]? = _
      rw [getElem?_map, getElem?_range hp]
      rfl
  have hlaid : Laid [(0, n)] (loaded cs a n) a :=
    { chunkSize_pos := hcs
      ori_pos := ha
      bounds := fun k I hk => by
        obtain ⟨-, rfl⟩ := harea k I hk
        exact ⟨.inr hpos, le_rfl⟩
      disjoint := fun k k' I I' i hk hk' _ _ =>
        (harea k I hk).1.trans (harea k' I' hk').1.symm
      entry := fun p j _ hj => by
        obtain ⟨rfl, hlt⟩ := searchMap_loaded hj
        exact ⟨_, _, _, hentry p hlt⟩
      free := fun p hp hnone => by
        have := (hentry p hp).search
        rw [hnone] at this
        cases this
      indexed := fun j ix hj => by
        obtain ⟨hlt, rfl⟩ := getElem?_index_loaded hj
        have hdiv : (fullIndex cs a j).offset / (loaded cs a n).chunkSize = j :=
          Nat.mul_div_cancel j hcs
        rw [hdiv]
        exact ⟨(hentry j hlt).search, hlt.le⟩
      buffer := fun k hk => by
        cases hk
        exact ⟨(0, n), rfl, Nat.zero_le _, by rw [hcount]; omega⟩
      ori_le := le_rfl
      data := by
        show [a] = [areaBytes cs n a (0, n)]
        rw [areaBytes, endByte, if_pos rfl, zero_mul, drop_zero, Nat.sub_zero,
          take_length]
      appended := by
        have hnone : (loaded cs a n).searchMap n = none := if_neg (lt_irrefl n)
        rw [hcount, hnone]
        exact iff_of_false Bool.false_ne_true (Nat.not_lt.mpr hle) }
  have hlens : Lens (loaded cs a n) a.length none := by
    intro p j ix _ _ hj hix
    obtain ⟨rfl, hlt⟩ := searchMap_loaded hj
    obtain ⟨-, rfl⟩ := getElem?_index_loaded hix
    rw [ObLobCursor.chunkLen, if_pos (by rw [hcount]; exact hlt)]
    show min a.length (p * cs + cs) - p * cs = min cs (a.length - p * cs)
    omega
  refine ⟨hlaid, hlens, ⟨fun p j ix hp hj hix => ?_, fun _ _ _ => rfl⟩, rfl, rfl, ?_,
    fun _ => rfl⟩
  · obtain ⟨rfl, hlt⟩ := searchMap_loaded hj
    obtain ⟨-, rfl⟩ := getElem?_index_loaded hix
    exact ⟨rfl, hlaid.readData_entry (hentry p hlt) hp (hlens p p _ hp.le (by simp) hj hix)⟩
  · show ([a].map List.length).sum = _
    rw [show (loaded cs a n).index = (List.range n).map (fullIndex cs a) from rfl,
      sum_byteLen_fullIndex, min_eq_left hle]
    exact Nat.add_zero _

/-- A cursor starts with the stored bytes, in either mode. -/
theorem refines_openCursor (hcs : 0 < cs) (ha : 0 < a.length) (isFullMode : Bool) :
    ∃ L c, openCursor isFullMode cs a = .ok c ∧ Refines a L c a ∧ c.chunkSize = cs := by
  cases isFullMode with
  | false => exact ⟨_, _, rfl, refines_openPartial hcs ha, rfl⟩
  | true => exact ⟨_, _, openFull_eq hcs, refines_loaded hcs ha, rfl⟩

end Open

/-! ### Runs -/

namespace CursorCall

/-- What a call reads from and writes to a byte array. -/
def onArray (a : List UInt8) : CursorCall → Option (List UInt8) × List UInt8
  | .get offset len => (some ((a.drop offset).take len), a)
  | .write offset buf => (none, overwrite a offset buf)
  | .set offset buf _ => (none, overwrite a offset buf)
  | .append buf _ => (none, a ++ buf)

/-- The calls that are allowed when the LOB has `length` bytes. -/
def Valid (length : ℕ) : CursorCall → Prop
  | .get offset len => 1 ≤ len ∧ offset + len ≤ length
  | .write offset buf => 1 ≤ buf.length ∧ offset + buf.length ≤ length
  | .set offset buf _ => 1 ≤ buf.length ∧ offset ≤ length
  | .append buf _ => 1 ≤ buf.length

instance (length : ℕ) : DecidablePred (Valid length) := fun call => by
  cases call <;> unfold Valid <;> infer_instance

/-- What a sequence of calls reads from a byte array, and the array it leaves. -/
def onArrayAll : List UInt8 → List CursorCall → List (Option (List UInt8)) × List UInt8
  | a, [] => ([], a)
  | a, call :: rest =>
    let (bytes, a) := call.onArray a
    let (reads, a) := onArrayAll a rest
    (bytes :: reads, a)

/-- Each call is allowed when it is made. -/
def ValidAll : List UInt8 → List CursorCall → Prop
  | _, [] => True
  | a, call :: rest => call.Valid a.length ∧ ValidAll (call.onArray a).2 rest

/-- A valid call answers as on a byte array, and the cursor goes on refining it. -/
theorem refines_run {L : List (ℕ × ℕ)} {c : ObLobCursor} {a orig : List UInt8} {call : CursorCall}
    (h : Refines orig L c a) (hvalid : call.Valid a.length) :
    ∃ L' c', call.run c = .ok ((call.onArray a).1, c') ∧ Refines orig L' c' (call.onArray a).2 ∧
      c'.chunkSize = c.chunkSize := by
  cases call with
  | get offset len =>
    obtain ⟨L', c', hget, h', hcs⟩ := h.get hvalid.1 hvalid.2
    exact ⟨L', c', by simp only [run, hget, bind, Except.bind, onArray], h', hcs⟩
  | write offset buf =>
    obtain ⟨L', c', hwrite, h', hcs⟩ := h.write hvalid.1 hvalid.2
    exact ⟨L', c', by simp only [run, hwrite, bind, Except.bind, onArray], h', hcs⟩
  | set offset buf behind =>
    obtain ⟨L', c', hset, h', hcs⟩ := h.set hvalid.1 hvalid.2 behind
    exact ⟨L', c', by simp only [run, hset, bind, Except.bind, onArray], h', hcs⟩
  | append buf behind =>
    obtain ⟨L', c', hset, h', hcs⟩ := h.set hvalid le_rfl behind
    have hend : overwrite a a.length buf = a ++ buf := by
      rw [overwrite, take_length, drop_of_length_le (Nat.le_add_right _ _),
        append_nil]
    rw [hend] at h'
    refine ⟨L', c', ?_, h', hcs⟩
    simp only [run, ObLobCursor.append, h.length, hset, bind, Except.bind, onArray]

theorem refines_runAll {L : List (ℕ × ℕ)} {c : ObLobCursor} {a orig : List UInt8}
    (calls : List CursorCall) (h : Refines orig L c a) (hvalid : ValidAll a calls) :
    ∃ L' c', runAll c calls = .ok ((onArrayAll a calls).1, c') ∧
      Refines orig L' c' (onArrayAll a calls).2 ∧ c'.chunkSize = c.chunkSize := by
  induction calls generalizing L c a with
  | nil => exact ⟨L, c, rfl, h, rfl⟩
  | cons call rest ih =>
    obtain ⟨L1, c1, hrun, h1, hcs1⟩ := refines_run h hvalid.1
    obtain ⟨L', c', hrest, h', hcs⟩ := ih h1 hvalid.2
    refine ⟨L', c', ?_, h', hcs.trans hcs1⟩
    simp only [runAll, hrun, hrest, bind, Except.bind, onArrayAll]

end CursorCall

/-- A cursor opened on a LOB answers every run of valid calls as a byte array does; the old data it
records are the stored chunks, and its update rows make the final bytes. -/
theorem cursor_refines_array (chunkSize : ℕ) (bytes : List UInt8) (isFullMode : Bool)
    (calls : List CursorCall) (hchunk : 1 ≤ chunkSize) (hbytes : 1 ≤ bytes.length)
    (hvalid : CursorCall.ValidAll bytes calls) :
    ∃ c c' rows, openCursor isFullMode chunkSize bytes = .ok c ∧
      CursorCall.runAll c calls = .ok ((CursorCall.onArrayAll bytes calls).1, c') ∧
      (∀ ix ∈ c'.index, ∀ i, ix.seqId = some i →
        ∃ original, (chunks chunkSize bytes)[i]? = some original ∧
          (ix.isModified = true →
            ∃ o, ix.oldDataIdx = some o ∧ c'.oldData[o]? = some original) ∧
          (ix.isModified = false →
            c'.readData ix.dataIdx ix.pos ix.byteLen = .ok original)) ∧
      c'.updateRows = .ok rows ∧
      (rows.foldl (UpdateRow.apply chunkSize) (chunks chunkSize bytes)).flatten =
        (CursorCall.onArrayAll bytes calls).2 := by
  obtain ⟨L, c, hopen, h, hcs⟩ := refines_openCursor hchunk hbytes isFullMode
  obtain ⟨L', c', hrun, h', hcs'⟩ := CursorCall.refines_runAll calls h hvalid
  have hsize : c'.chunkSize = chunkSize := hcs'.trans hcs
  obtain ⟨rows, hrows, happly⟩ := h'.updateRows
  rw [hsize] at happly
  refine ⟨c, c', rows, hopen, hrun, fun ix hix i hseq => ?_, hrows, happly⟩
  have hold := h'.oldData hix hseq
  rwa [hsize] at hold

theorem cursor_refines_array_five :
    ∃ c c' rows, openCursor false 2 [1, 2, 3, 4, 5] = .ok c ∧
      CursorCall.runAll c [.get 3 2, .write 0 [9], .set 4 [6, 7, 8] fun _ => 0] =
        .ok ([some [4, 5], none, none], c') ∧
      (∀ ix ∈ c'.index, ∀ i, ix.seqId = some i →
        ∃ original, (chunks 2 [1, 2, 3, 4, 5])[i]? = some original ∧
          (ix.isModified = true →
            ∃ o, ix.oldDataIdx = some o ∧ c'.oldData[o]? = some original) ∧
          (ix.isModified = false →
            c'.readData ix.dataIdx ix.pos ix.byteLen = .ok original)) ∧
      c'.updateRows = .ok rows ∧
      (rows.foldl (UpdateRow.apply 2) (chunks 2 [1, 2, 3, 4, 5])).flatten =
        [9, 2, 3, 4, 6, 7, 8] :=
  cursor_refines_array 2 [1, 2, 3, 4, 5] false
    [.get 3 2, .write 0 [9], .set 4 [6, 7, 8] fun _ => 0] (by decide) (by decide)
    ⟨by decide, by decide, by decide, trivial⟩

end Andl.Lob
