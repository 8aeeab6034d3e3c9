import Andl.Palf.Equiv.LsnAllocator

/-!
# The shape of the group logs
-/

namespace Andl.Palf.LSNAllocator

open List

/-- The end of a log leaves room for a padding entry in its block, or it is the end of a block. -/
def RoomForPadding (lsnVal : Nat) : Prop :=
  lsnVal % palfBlockSize = 0 ∨
    clogFileTailPaddingTrigger ≤ palfBlockSize - lsnVal % palfBlockSize

instance : DecidablePred RoomForPadding := fun _ => inferInstanceAs (Decidable (_ ∨ _))

/-- Where the 2 MB of the block end that a position lies in; the last ones are cut off by the end of
the block. -/
def segmentEnd (lsnVal : Nat) : Nat :=
  lsnVal / palfBlockSize * palfBlockSize +
    min ((lsnVal % palfBlockSize / logCutTrigger + 1) * logCutTrigger) palfBlockSize

/-! ### Calls -/

/-- The entries of an allocation, if it succeeds. -/
def allocEvents (baseScn : SCN) (size : Int) : ObResult Allocated → List Event
  | .ok r => (submitEntries baseScn size.toNat r).map Event.entry
  | .error _ => []

/-- The allocator after a call that may fail, which then changes nothing. -/
def orUnchanged (a : LSNAllocator) : ObResult LSNAllocator → LSNAllocator
  | .ok a' => a'
  | .error _ => a

/-- One call, whether it succeeds or not, and the entries it hands out. -/
inductive Call : LSNAllocator → List Event → LSNAllocator → Prop
  | alloc {a : LSNAllocator} {baseScn : SCN} {size : Int} {logIdUpperBound : Int}
      {lsnUpperBound : LSN} (hsize : size ≤ logEntryHeaderSize + maxLogBodySize) :
      Call a
        (allocEvents baseScn size
          (a.allocLsnScn baseScn size logIdUpperBound lsnUpperBound).1)
        (a.allocLsnScn baseScn size logIdUpperBound lsnUpperBound).2
  | tryFreeze {a : LSNAllocator} : Call a [] (a.orUnchanged a.tryFreeze)
  | incUpdateScnBase {a : LSNAllocator} {refScn : SCN} :
      Call a [] (a.orUnchanged (a.incUpdateScnBase refScn))

/-! ### One allocation -/

/-- The shape of the last log. -/
structure Shape (m : LSNTsMeta) : Prop where
  lt : m.lsnVal < 2 ^ 64
  room : RoomForPadding m.lsnVal
  cut : m.isNeedCut = false → m.lsnVal % palfBlockSize % logCutTrigger ≠ 0

/-- The end of the entries handed out for a log, and what their places are relative to the 2 MB of
the last one. -/
structure Placed (last : LSNTsMeta) (size : Nat) (pos : NextPos) (lsnVal : Nat) : Prop where
  shape : Shape ⟨pos.isNextNeedCut, 0, 0, lsnVal⟩
  padding : pos.needGenPaddingEntry = true → clogFileTailPaddingTrigger ≤ pos.paddingLen
  /-- An entry that is aggregated stays in the 2 MB of the last log. -/
  append : pos.isNewGroupLog = false →
    last.isNeedCut = false ∧ last.lsnVal + size ≤ segmentEnd last.lsnVal
  /-- If the next log may be aggregated, all is in the same 2 MB. -/
  aggregate : pos.isNextNeedCut = false →
    segmentEnd lsnVal =
      segmentEnd (if pos.needGenPaddingEntry then last.lsnVal + pos.paddingLen else last.lsnVal) ∧
    (pos.needGenPaddingEntry = true → last.lsnVal + pos.paddingLen < 2 ^ 64)

theorem Shape.groupPos {m : LSNTsMeta} (h : Shape m) (size : Nat) :
    ∃ isNew off cut, groupPos m.isNeedCut (m.lsnVal % palfBlockSize) size = .ok (isNew, off, cut) ∧
      off = m.lsnVal % palfBlockSize + (if isNew then size + logGroupEntryHeaderSize else size) ∧
      (cut = false ↔ m.lsnVal % palfBlockSize % logCutTrigger +
        (if isNew then size + logGroupEntryHeaderSize else size) < logCutTrigger) ∧
      (isNew = false → m.isNeedCut = false ∧
        m.lsnVal % palfBlockSize % logCutTrigger + size ≤ logCutTrigger) := by
  unfold LSNAllocator.groupPos reachesCutTrigger
  cases hcut : m.isNeedCut with
  | true => exact ⟨true, _, _, rfl, rfl, by simp, by simp⟩
  | false =>
    have hne := h.cut hcut
    have hpos : m.lsnVal % palfBlockSize > 0 := Nat.pos_of_ne_zero fun h0 => hne (by rw [h0]; rfl)
    simp only [Bool.false_eq_true, if_false, hpos, decide_true, Bool.true_and, beq_iff_eq, hne,
      decide_eq_true_eq]
    split_ifs with hbig
    · exact ⟨true, _, _, rfl, rfl, by simp, by simp⟩
    · exact ⟨false, _, _, rfl, rfl, by simp, fun _ => ⟨trivial, Nat.not_lt.mp hbig⟩⟩

/-- A position below `2 ^ 64` in block `q`. -/
theorem position_of_lt {q off : Nat} (hoff : off < palfBlockSize)
    (hlt : q * palfBlockSize + off < 2 ^ 64) :
    (q * palfBlockSize + off) % 2 ^ 64 = q * palfBlockSize + off ∧
      (q * palfBlockSize + off) / palfBlockSize = q ∧
      (q * palfBlockSize + off) % palfBlockSize = off := by
  have hB : 0 < palfBlockSize := by decide
  refine ⟨Nat.mod_eq_of_lt hlt, ?_, ?_⟩
  · rw [Nat.mul_comm, Nat.mul_add_div hB, Nat.div_eq_of_lt hoff, Nat.add_zero]
  · rw [Nat.mul_comm, Nat.mul_add_mod, Nat.mod_eq_of_lt hoff]

/-- `2 ^ 64` lies two times 2 MB behind the beginning of its block. -/
theorem two_pow_eq : 2 ^ 64 = 2 ^ 64 / palfBlockSize * palfBlockSize + 2 * logCutTrigger := by
  decide

/-- The block of a position, and where the positions end in the last one. -/
theorem block_cases {lsnVal : Nat} (h : lsnVal < 2 ^ 64) :
    lsnVal / palfBlockSize < 2 ^ 64 / palfBlockSize ∨
      (lsnVal / palfBlockSize = 2 ^ 64 / palfBlockSize ∧
        lsnVal % palfBlockSize < 2 * logCutTrigger) := by
  have hdiv := Nat.div_add_mod lsnVal palfBlockSize
  rcases Nat.lt_or_ge (lsnVal / palfBlockSize) (2 ^ 64 / palfBlockSize) with hlt | hge
  · exact .inl hlt
  · have hle := Nat.div_le_div_right (c := palfBlockSize) h.le
    refine .inr ⟨le_antisymm hle hge, ?_⟩
    have heq := le_antisymm hle hge
    rw [heq, Nat.mul_comm] at hdiv
    have := two_pow_eq
    omega

/-- Nothing is crossed if the bytes fit into the 2 MB. -/
theorem add_in_segment {o len : Nat} (h : o % logCutTrigger + len < logCutTrigger) :
    (o + len) / logCutTrigger = o / logCutTrigger ∧
      (o + len) % logCutTrigger = o % logCutTrigger + len := by
  unfold logCutTrigger at *
  omega

theorem segmentEnd_of_lt {q off : Nat} (hoff : off < palfBlockSize)
    (hlt : q * palfBlockSize + off < 2 ^ 64) :
    segmentEnd (q * palfBlockSize + off) =
      q * palfBlockSize + min ((off / logCutTrigger + 1) * logCutTrigger) palfBlockSize := by
  obtain ⟨-, hdiv, hmod⟩ := position_of_lt hoff hlt
  rw [segmentEnd, hdiv, hmod]

/-- What is aggregated up to a 2 MB boundary of the block or its end. -/
theorem add_le_segmentEnd {lsnVal size : Nat}
    (hcut : lsnVal % palfBlockSize % logCutTrigger + size ≤ logCutTrigger)
    (hend : lsnVal % palfBlockSize + size ≤ palfBlockSize) : lsnVal + size ≤ segmentEnd lsnVal := by
  have hdiv := Nat.div_add_mod lsnVal palfBlockSize
  have hseg : lsnVal % palfBlockSize + size ≤
      (lsnVal % palfBlockSize / logCutTrigger + 1) * logCutTrigger := by
    generalize lsnVal % palfBlockSize = o at hcut
    unfold logCutTrigger at *
    omega
  rw [Nat.mul_comm] at hdiv
  unfold segmentEnd
  omega

section Place

variable {m : LSNTsMeta} {size len off : Nat} {isNew cut : Bool}

/-- The log stays in its block. -/
theorem Shape.placed_inside (h : Shape m) (hoff : off = m.lsnVal % palfBlockSize + len)
    (hpos : 0 < len) (hlen : len < 2 * logCutTrigger) (hsize : size ≤ len)
    (hroom : off + clogFileTailPaddingTrigger ≤ palfBlockSize)
    (hcut : cut = false ↔ m.lsnVal % palfBlockSize % logCutTrigger + len < logCutTrigger)
    (happend : isNew = false → m.isNeedCut = false ∧
      m.lsnVal % palfBlockSize % logCutTrigger + size ≤ logCutTrigger) :
    Placed m size ⟨m.lsnVal / palfBlockSize, off, isNew, false, 0, cut⟩
      ((m.lsnVal / palfBlockSize * palfBlockSize + off) % 2 ^ 64) := by
  have hdiv := Nat.div_add_mod m.lsnVal palfBlockSize
  rw [Nat.mul_comm] at hdiv
  have hT : clogFileTailPaddingTrigger = 4096 := rfl
  have hfits : isNew = false → m.isNeedCut = false ∧ m.lsnVal + size ≤ segmentEnd m.lsnVal :=
    fun hnew => ⟨(happend hnew).1, add_le_segmentEnd (happend hnew).2 (by omega)⟩
  rcases Nat.lt_or_ge (m.lsnVal / palfBlockSize * palfBlockSize + off) (2 ^ 64) with hlt | hge
  · obtain ⟨hmod, hq, ho⟩ := position_of_lt (show off < palfBlockSize by omega) hlt
    rw [hmod]
    refine ⟨⟨hlt, .inr (by rw [ho]; omega), fun hc => ?_⟩, nofun, hfits, fun hc => ⟨?_, nofun⟩⟩
    · rw [ho, hoff, (add_in_segment (hcut.mp hc)).2]
      omega
    · show segmentEnd _ = segmentEnd m.lsnVal
      rw [segmentEnd, hq, ho, segmentEnd, hoff, (add_in_segment (hcut.mp hc)).1]
  · -- the position wraps around, behind a 2 MB boundary
    have hblock : m.lsnVal / palfBlockSize = 2 ^ 64 / palfBlockSize ∧
        m.lsnVal % palfBlockSize < 2 * logCutTrigger := by
      refine (block_cases h.lt).resolve_left fun hlt => ?_
      have := Nat.mul_le_mul_right palfBlockSize (Nat.succ_le_of_lt hlt)
      rw [Nat.succ_mul] at this
      have := two_pow_eq
      omega
    have htwo := two_pow_eq
    rw [hblock.1] at hge ⊢
    have hnotcut : cut = true := by
      rw [← Bool.not_eq_false, hcut]
      intro hlt
      have := (add_in_segment hlt).1
      have hle : 2 * logCutTrigger ≤ m.lsnVal % palfBlockSize + len := by omega
      have := (Nat.le_div_iff_mul_le (show 0 < logCutTrigger by decide)).mpr hle
      have := (Nat.div_lt_iff_lt_mul (show 0 < logCutTrigger by decide)).mpr hblock.2
      omega
    have hval : (2 ^ 64 / palfBlockSize * palfBlockSize + off) % 2 ^ 64 =
        off - 2 * logCutTrigger := by
      rw [Nat.mod_eq_sub_mod hge, Nat.mod_eq_of_lt] <;> omega
    rw [hval]
    have hB : palfBlockSize < 2 ^ 64 := by decide
    refine ⟨⟨?_, .inr ?_, by simp [hnotcut]⟩, nofun, hfits, by simp [hnotcut]⟩
    · show off - 2 * logCutTrigger < 2 ^ 64
      omega
    show clogFileTailPaddingTrigger ≤ palfBlockSize - (off - 2 * logCutTrigger) % palfBlockSize
    rw [Nat.mod_eq_of_lt] <;> omega

/-- The log ends at the end of the block. -/
theorem Shape.placed_end (h : Shape m) (hoff : m.lsnVal % palfBlockSize + len = palfBlockSize)
    (hlen : len < 2 * logCutTrigger) (hsize : size ≤ len)
    (happend : isNew = false → m.isNeedCut = false ∧
      m.lsnVal % palfBlockSize % logCutTrigger + size ≤ logCutTrigger) :
    Placed m size ⟨m.lsnVal / palfBlockSize + 1, 0, isNew, false, 0, true⟩
      (((m.lsnVal / palfBlockSize + 1) * palfBlockSize + 0) % 2 ^ 64) := by
  have hT : 4 * logCutTrigger < palfBlockSize := by decide
  have hblock : m.lsnVal / palfBlockSize < 2 ^ 64 / palfBlockSize :=
    (block_cases h.lt).resolve_right fun ⟨_, hlt⟩ => by omega
  have hle : (m.lsnVal / palfBlockSize + 1) * palfBlockSize ≤
      2 ^ 64 / palfBlockSize * palfBlockSize := Nat.mul_le_mul_right _ hblock
  have htwo := two_pow_eq
  have hlt : (m.lsnVal / palfBlockSize + 1) * palfBlockSize + 0 < 2 ^ 64 := by
    have : 0 < logCutTrigger := by decide
    omega
  obtain ⟨hmod, -, ho⟩ := position_of_lt (show 0 < palfBlockSize by decide) hlt
  rw [hmod]
  exact ⟨⟨hlt, .inl ho, nofun⟩, nofun,
    fun hnew => ⟨(happend hnew).1, add_le_segmentEnd (happend hnew).2 (by omega)⟩, nofun⟩

/-- The log is behind a padding entry, at the beginning of the next block. -/
theorem Shape.placed_next (h : Shape m) (hpos : 0 < size)
    (hsize : size + logGroupEntryHeaderSize < 2 * logCutTrigger)
    (hover : palfBlockSize < m.lsnVal % palfBlockSize + 2 * logCutTrigger +
      clogFileTailPaddingTrigger) :
    Placed m size (nextBlockPos (m.lsnVal / palfBlockSize) (m.lsnVal % palfBlockSize) size)
      (((m.lsnVal / palfBlockSize + 1) * palfBlockSize + (size + logGroupEntryHeaderSize)) %
        2 ^ 64) := by
  have hT : 4 * logCutTrigger + clogFileTailPaddingTrigger < palfBlockSize := by decide
  have hblock : m.lsnVal / palfBlockSize < 2 ^ 64 / palfBlockSize :=
    (block_cases h.lt).resolve_right fun ⟨_, hlt⟩ => by omega
  have hle : (m.lsnVal / palfBlockSize + 1) * palfBlockSize ≤
      2 ^ 64 / palfBlockSize * palfBlockSize := Nat.mul_le_mul_right _ hblock
  have htwo := two_pow_eq
  have hlt : (m.lsnVal / palfBlockSize + 1) * palfBlockSize + (size + logGroupEntryHeaderSize) <
      2 ^ 64 := by
    omega
  have hdiv := Nat.div_add_mod m.lsnVal palfBlockSize
  have hmodlt := Nat.mod_lt m.lsnVal (show palfBlockSize > 0 by decide)
  rw [Nat.mul_comm] at hdiv
  have hstart : m.lsnVal + (palfBlockSize - m.lsnVal % palfBlockSize) =
      (m.lsnVal / palfBlockSize + 1) * palfBlockSize + 0 := by
    rw [Nat.succ_mul]
    omega
  obtain ⟨hmod, -, ho⟩ := position_of_lt (by omega) hlt
  have hroom := h.room
  unfold RoomForPadding at hroom
  have hcutOf : (nextBlockPos (m.lsnVal / palfBlockSize) (m.lsnVal % palfBlockSize)
      size).isNextNeedCut = false → 0 % logCutTrigger + (size + logGroupEntryHeaderSize) <
        logCutTrigger := by
    intro hc
    rw [Nat.zero_mod, Nat.zero_add]
    exact Nat.not_le.mp (of_decide_eq_false hc)
  rw [hmod]
  refine ⟨⟨hlt, .inr ?_, fun hc => ?_⟩, fun _ => ?_, nofun, fun hc => ⟨?_, fun _ => ?_⟩⟩
  · rw [ho]
    omega
  · have := (add_in_segment (hcutOf hc)).2
    rw [Nat.zero_mod, Nat.zero_add] at this
    rw [ho, this]
    omega
  · show clogFileTailPaddingTrigger ≤ palfBlockSize - m.lsnVal % palfBlockSize
    rcases hroom with hzero | hroom
    · rw [hzero]
      decide
    · exact hroom
  · have hdivs := (add_in_segment (hcutOf hc)).1
    rw [Nat.zero_add] at hdivs
    show segmentEnd _ = segmentEnd (m.lsnVal + (palfBlockSize - m.lsnVal % palfBlockSize))
    rw [hstart, segmentEnd_of_lt (by omega) hlt, segmentEnd_of_lt (by decide) (by omega), hdivs]
  · show m.lsnVal + (palfBlockSize - m.lsnVal % palfBlockSize) < 2 ^ 64
    omega

/-- **Every path keeps the shape.** The 64-bit position wraps around at a multiple of 2 MB inside of
its block, so the shape survives that, too. -/
theorem Shape.nextPos (h : Shape m) (hpos : 0 < size)
    (hsize : size ≤ logEntryHeaderSize + maxLogBodySize) :
    ∃ pos, nextPos m size = .ok pos ∧
      Placed m size pos ((pos.blockId * palfBlockSize + pos.blockOffset) % 2 ^ 64) := by
  obtain ⟨isNew, off, cut, hg, hoff, hcut, happend⟩ := h.groupPos size
  have hlen : size ≤ (if isNew then size + logGroupEntryHeaderSize else size) ∧
      (if isNew then size + logGroupEntryHeaderSize else size) ≤
        size + logGroupEntryHeaderSize := by
    split_ifs <;> omega
  have hsmall : size + logGroupEntryHeaderSize < 2 * logCutTrigger := by
    unfold logGroupEntryHeaderSize logCutTrigger
    unfold logEntryHeaderSize maxLogBodySize at hsize
    omega
  generalize (if isNew then size + logGroupEntryHeaderSize else size) = len at *
  have hrun : LSNAllocator.nextPos m size =
      if off < palfBlockSize then
        if palfBlockSize - off < clogFileTailPaddingTrigger then
          .ok (nextBlockPos (m.lsnVal / palfBlockSize) (m.lsnVal % palfBlockSize) size)
        else .ok ⟨m.lsnVal / palfBlockSize, off, isNew, false, 0, cut⟩
      else if off = palfBlockSize then
        .ok ⟨m.lsnVal / palfBlockSize + 1, 0, isNew, false, 0, true⟩
      else .ok (nextBlockPos (m.lsnVal / palfBlockSize) (m.lsnVal % palfBlockSize) size) := by
    simp only [LSNAllocator.nextPos, hg]
    rfl
  rw [hrun]
  split_ifs with hlt htail heq
  · exact ⟨_, rfl, h.placed_next hpos hsmall (by omega)⟩
  · exact ⟨_, rfl, h.placed_inside hoff (by omega) (by omega) hlen.1 (by omega) hcut happend⟩
  · exact ⟨_, rfl, h.placed_end (by omega) (by omega) hlen.1 happend⟩
  · exact ⟨_, rfl, h.placed_next hpos hsmall (by omega)⟩

end Place

/-! ### Runs -/

/-- What holds after the events of a run. -/
structure GroupInv (es : List Event) (a : LSNAllocator) : Prop where
  shape : Shape a.lsnTsMeta
  delta : a.lsnTsMeta.logIdDelta < 2 ^ 28
  ids : ∀ e ∈ entries es, e.logId ≤ a.lastLogId
  current : a.lsnTsMeta.isNeedCut = false → ∀ e ∈ entries es, e.logId = a.lastLogId →
    segmentEnd e.lsn.val = segmentEnd a.lsnTsMeta.lsnVal
  padding : ∀ e ∈ entries es, e.kind = .padding → clogFileTailPaddingTrigger ≤ e.len
  groups : (entries es).Pairwise fun e f =>
    e.logId = f.logId → f.lsn.val + f.len ≤ segmentEnd e.lsn.val

theorem entries_append (es es' : List Event) : entries (es ++ es') = entries es ++ entries es' :=
  filterMap_append

theorem entries_map_entry (E : List Entry) : entries (E.map Event.entry) = E := by
  rw [entries, filterMap_map]
  exact filterMap_some

section Runs

variable {es : List Event} {a : LSNAllocator}

variable {a' : LSNAllocator}

/-- The counters go on: a group log that may be aggregated stays in its 2 MB. -/
structure Advances (a a' : LSNAllocator) : Prop where
  shape : Shape a'.lsnTsMeta
  delta : a'.lsnTsMeta.logIdDelta < 2 ^ 28
  id_le : a.lastLogId ≤ a'.lastLogId
  same : a'.lsnTsMeta.isNeedCut = false → a'.lastLogId = a.lastLogId →
    a.lsnTsMeta.isNeedCut = false ∧
      segmentEnd a'.lsnTsMeta.lsnVal = segmentEnd a.lsnTsMeta.lsnVal

/-- Entries that fit between two values of the counters. -/
structure Fits (a a' : LSNAllocator) (E : List Entry) : Prop where
  ids : ∀ e ∈ E, a.lastLogId ≤ e.logId ∧ e.logId ≤ a'.lastLogId
  current : a'.lsnTsMeta.isNeedCut = false → ∀ e ∈ E, e.logId = a'.lastLogId →
    segmentEnd e.lsn.val = segmentEnd a'.lsnTsMeta.lsnVal
  padding : ∀ e ∈ E, e.kind = .padding → clogFileTailPaddingTrigger ≤ e.len
  groups : E.Pairwise fun e f => e.logId ≠ f.logId
  append : ∀ f ∈ E, f.logId = a.lastLogId →
    a.lsnTsMeta.isNeedCut = false ∧ f.lsn.val + f.len ≤ segmentEnd a.lsnTsMeta.lsnVal

theorem GroupInv.extend (hi : GroupInv es a) {E : List Entry} (hnext : Advances a a')
    (hfits : Fits a a' E) : GroupInv (es ++ E.map Event.entry) a' := by
  have hentries : entries (es ++ E.map Event.entry) = entries es ++ E := by
    rw [entries_append, entries_map_entry]
  refine ⟨hnext.shape, hnext.delta, ?_, ?_, ?_, ?_⟩ <;> rw [hentries]
  · intro e he
    rcases mem_append.mp he with he | he
    · exact (hi.ids e he).trans hnext.id_le
    · exact (hfits.ids e he).2
  · intro hcut e he heq
    rcases mem_append.mp he with he | he
    · -- an older entry of the group log: it was not cut before, either
      have hle := hi.ids e he
      have hnext_le := hnext.id_le
      obtain ⟨hcut', hseg⟩ := hnext.same hcut (by omega)
      rw [hseg]
      exact hi.current hcut' e he (by omega)
    · exact hfits.current hcut e he heq
  · intro e he hkind
    rcases mem_append.mp he with he | he
    · exact hi.padding e he hkind
    · exact hfits.padding e he hkind
  · refine pairwise_append.mpr ⟨hi.groups, hfits.groups.imp fun hne heq => absurd heq hne, ?_⟩
    intro e he f hf heq
    have hle := hi.ids e he
    have hge := (hfits.ids f hf).1
    obtain ⟨hcut, hend⟩ := hfits.append f hf (by omega)
    rw [hi.current hcut e he (by omega)]
    exact hend

/-- The log id after a log at `pos`. -/
theorem lastLogId_nextMeta {pos : NextPos} {baseScn : SCN}
    (hdelta : a.lsnTsMeta.logIdDelta + 2 < 2 ^ 28) :
    ({ a with lsnTsMeta := a.nextMeta baseScn pos } : LSNAllocator).lastLogId =
      a.lastLogId + pos.groupCount + pos.paddingCount := by
  have hg : pos.groupCount ≤ 1 := by unfold NextPos.groupCount; split_ifs <;> omega
  have hp : pos.paddingCount ≤ 1 := by unfold NextPos.paddingCount; split_ifs <;> omega
  simp only [lastLogId, nextMeta, LSNTsMeta.pack]
  rw [Nat.mod_eq_of_lt (by omega)]
  push_cast
  omega

theorem fits_nil : Fits a a' [] :=
  ⟨by simp, by simp, by simp, .nil, by simp⟩

theorem fits_single {e : Entry} (hid : a.lastLogId ≤ e.logId ∧ e.logId ≤ a'.lastLogId)
    (hcurrent : a'.lsnTsMeta.isNeedCut = false →
      segmentEnd e.lsn.val = segmentEnd a'.lsnTsMeta.lsnVal)
    (hkind : e.kind ≠ .padding)
    (happend : e.logId = a.lastLogId →
      a.lsnTsMeta.isNeedCut = false ∧ e.lsn.val + e.len ≤ segmentEnd a.lsnTsMeta.lsnVal) :
    Fits a a' [e] := by
  refine ⟨?_, ?_, ?_, pairwise_singleton _ _, ?_⟩ <;> simp only [mem_singleton, forall_eq]
  · exact hid
  · exact fun hcut _ => hcurrent hcut
  · exact fun h => absurd h hkind
  · exact happend

/-- A padding entry is followed by a new group log. -/
theorem isNewGroupLog_of_padding {last : LSNTsMeta} {size : Nat} {pos : NextPos}
    (hpos : nextPos last size = .ok pos) (hpad : pos.needGenPaddingEntry = true) :
    pos.isNewGroupLog = true := by
  rcases nextPos_ok hpos with ⟨-, h, -⟩ | ⟨h, -⟩
  · exact h
  · rw [h] at hpad
    cases hpad

section Swap

variable (hdelta : a.lsnTsMeta.logIdDelta + 2 < 2 ^ 28) {size : Nat} {pos : NextPos}
  {baseScn : SCN} (hpos : nextPos a.lsnTsMeta size = .ok pos)
  (hplaced : Placed a.lsnTsMeta size pos
    ((pos.blockId * palfBlockSize + pos.blockOffset) % 2 ^ 64))
include hdelta hpos hplaced

theorem advances_nextMeta : Advances a { a with lsnTsMeta := a.nextMeta baseScn pos } := by
  have hid := @lastLogId_nextMeta a pos baseScn hdelta
  refine ⟨⟨hplaced.shape.lt, hplaced.shape.room, hplaced.shape.cut⟩, Nat.mod_lt _ (by decide),
    by omega, fun hcut heq => ?_⟩
  have hold : pos.isNewGroupLog = false := by
    cases hn : pos.isNewGroupLog with
    | false => rfl
    | true =>
      simp only [NextPos.groupCount, hn, if_true] at hid
      omega
  have hpad : pos.needGenPaddingEntry = false := by
    cases hp : pos.needGenPaddingEntry with
    | false => rfl
    | true => rw [isNewGroupLog_of_padding hpos hp] at hold; cases hold
  have hseg := (hplaced.aggregate hcut).1
  rw [hpad, if_neg Bool.false_ne_true] at hseg
  exact ⟨(hplaced.append hold).1, hseg⟩

/-- The padding entry ends the last block, and the group log behind it has the next id. -/
theorem fits_padding (hlt : a.lsnTsMeta.lsnVal < 2 ^ 64) (scn : SCN)
    (hp : pos.needGenPaddingEntry = true) :
    Fits a { a with lsnTsMeta := a.nextMeta baseScn pos }
      (submitEntries baseScn size ⟨LSN.ofNat a.lsnTsMeta.lsnVal, a.lastLogId + pos.groupCount,
        scn, pos.isNewGroupLog, pos.needGenPaddingEntry, pos.paddingLen⟩) := by
  have hlsn : (LSN.ofNat a.lsnTsMeta.lsnVal).val = a.lsnTsMeta.lsnVal := Nat.mod_eq_of_lt hlt
  have hid := @lastLogId_nextMeta a pos baseScn hdelta
  have hn := isNewGroupLog_of_padding hpos hp
  unfold submitEntries
  simp only [NextPos.groupCount, NextPos.paddingCount, hn, hp, if_true] at hid ⊢
  refine ⟨?_, ?_, ?_, ?_, ?_⟩
  · simp only [mem_cons, not_mem_nil, or_false]
    rintro e (rfl | rfl) <;> dsimp only <;> omega
  · simp only [mem_cons, not_mem_nil, or_false]
    rintro hc e (rfl | rfl) heq
    · dsimp only at heq
      omega
    · obtain ⟨hseg, hend⟩ := hplaced.aggregate hc
      rw [hp, if_pos rfl] at hseg
      have hadd : (LSN.add (LSN.ofNat a.lsnTsMeta.lsnVal) pos.paddingLen).val =
          a.lsnTsMeta.lsnVal + pos.paddingLen := by
        rw [LSN.val_add (by rw [hlsn]; exact hend hp), hlsn]
      dsimp only
      rw [hadd]
      exact hseg.symm
  · simp only [mem_cons, not_mem_nil, or_false]
    rintro e (rfl | rfl) hkind
    · exact hplaced.padding hp
    · cases hkind
  · rw [pairwise_pair]
    dsimp only
    omega
  · simp only [mem_cons, not_mem_nil, or_false]
    rintro e (rfl | rfl) heq <;> dsimp only at heq <;> omega

theorem fits_submitEntries (hlt : a.lsnTsMeta.lsnVal < 2 ^ 64) (scn : SCN) :
    Fits a { a with lsnTsMeta := a.nextMeta baseScn pos }
      (submitEntries baseScn size ⟨LSN.ofNat a.lsnTsMeta.lsnVal, a.lastLogId + pos.groupCount,
        scn, pos.isNewGroupLog, pos.needGenPaddingEntry, pos.paddingLen⟩) := by
  by_cases hp : pos.needGenPaddingEntry = true
  · exact fits_padding hdelta hpos hplaced hlt scn hp
  have hlsn : (LSN.ofNat a.lsnTsMeta.lsnVal).val = a.lsnTsMeta.lsnVal := Nat.mod_eq_of_lt hlt
  have hid := @lastLogId_nextMeta a pos baseScn hdelta
  have hseg (hc : pos.isNextNeedCut = false) := (hplaced.aggregate hc).1.symm
  simp only [hp, Bool.false_eq_true, if_false] at hseg
  unfold submitEntries
  simp only [NextPos.paddingCount, hp, Bool.false_eq_true, if_false] at hid ⊢
  cases hn : pos.isNewGroupLog with
  | true =>
    simp only [NextPos.groupCount, hn, if_true] at hid ⊢
    refine fits_single (by dsimp only; omega) (fun hc => ?_) (by simp) fun heq => ?_
    · rw [hlsn]
      exact hseg hc
    · dsimp only at heq
      omega
  | false =>
    simp only [NextPos.groupCount, hn, Bool.false_eq_true, if_false] at hid ⊢
    refine fits_single (by dsimp only; omega) (fun hc => ?_) (by simp) fun _ => ?_
    · rw [hlsn]
      exact hseg hc
    · dsimp only
      rw [hlsn]
      exact hplaced.append hn

theorem GroupInv.swap (hi : GroupInv es a) (scn : SCN) :
    GroupInv es { a with lsnTsMeta := a.nextMeta baseScn pos } ∧
    GroupInv (es ++ (submitEntries baseScn size ⟨LSN.ofNat a.lsnTsMeta.lsnVal,
      a.lastLogId + pos.groupCount, scn, pos.isNewGroupLog, pos.needGenPaddingEntry,
      pos.paddingLen⟩).map Event.entry) { a with lsnTsMeta := a.nextMeta baseScn pos } := by
  have hnext : Advances a { a with lsnTsMeta := a.nextMeta baseScn pos } :=
    advances_nextMeta hdelta hpos hplaced
  refine ⟨?_, hi.extend hnext (fits_submitEntries hdelta hpos hplaced hi.shape.lt scn)⟩
  have := hi.extend hnext fits_nil
  rwa [map_nil, append_nil] at this

end Swap

section

variable (hi : GroupInv es a)
include hi

theorem GroupInv.rebase (hlsn : a'.lsnTsMeta.lsnVal = a.lsnTsMeta.lsnVal)
    (hid : a'.lastLogId = a.lastLogId) (hdelta : a'.lsnTsMeta.logIdDelta < 2 ^ 28)
    (hcut : a'.lsnTsMeta.isNeedCut = false → a.lsnTsMeta.isNeedCut = false) : GroupInv es a' where
  shape := by
    obtain ⟨hlt, hroom, hc⟩ := hi.shape
    rw [← hlsn] at hlt hroom hc
    exact ⟨hlt, hroom, fun h => hc (hcut h)⟩
  delta := hdelta
  ids := hid ▸ hi.ids
  current h := by
    rw [hlsn, hid]
    exact hi.current (hcut h)
  padding := hi.padding
  groups := hi.groups

theorem GroupInv.lsnVal_pack (cut : Bool) (d s : Nat) :
    (LSNTsMeta.pack cut d s a.lsnTsMeta.lsnVal).lsnVal = a.lsnTsMeta.lsnVal :=
  Nat.mod_eq_of_lt hi.shape.lt

theorem GroupInv.freeze : GroupInv es a.freeze := by
  refine hi.rebase (hi.lsnVal_pack ..) ?_ (Nat.mod_lt _ (by decide)) nofun
  simp only [lastLogId, LSNAllocator.freeze, LSNTsMeta.pack, Nat.mod_eq_of_lt hi.delta]

theorem GroupInv.tryFreeze : GroupInv es (a.orUnchanged a.tryFreeze) := by
  unfold LSNAllocator.tryFreeze
  split_ifs
  · exact hi
  · exact hi
  · exact hi.freeze

theorem GroupInv.incUpdateScnBase (refScn : SCN) :
    GroupInv es (a.orUnchanged (a.incUpdateScnBase refScn)) := by
  unfold LSNAllocator.incUpdateScnBase
  split_ifs
  · exact hi
  · exact hi
  · exact hi
  · refine hi.rebase (hi.lsnVal_pack ..) ?_ (Nat.mod_lt _ (by decide)) nofun
    simp only [orUnchanged, lastLogId, LSNTsMeta.pack, Nat.mod_eq_of_lt hi.delta]

theorem GroupInv.updateBase (baseScn : SCN) : GroupInv es (a.updateBase baseScn) := by
  refine hi.rebase (hi.lsnVal_pack ..) ?_ (Nat.mod_lt _ (by decide)) id
  simp [lastLogId, LSNAllocator.updateBase, LSNTsMeta.pack]

/-- One round of the allocation loop, whether it succeeds or not. -/
theorem GroupInv.allocRound (hdelta : a.lsnTsMeta.logIdDelta + 2 < 2 ^ 28)
    {size : Int} (hpos : 0 < size) (hsize : size ≤ logEntryHeaderSize + maxLogBodySize)
    (baseScn : SCN) (ub : Int) (lb : LSN) :
    GroupInv (es ++ allocEvents baseScn size (a.allocRound baseScn size.toNat ub lb).1)
      (a.allocRound baseScn size.toNat ub lb).2 ∧
      (a.allocRound baseScn size.toNat ub lb).1 ≠ .error .errUnexpected := by
  obtain ⟨pos, hnext, hplaced⟩ := @Shape.nextPos a.lsnTsMeta size.toNat hi.shape (by omega)
    (by unfold logEntryHeaderSize maxLogBodySize at *; omega)
  unfold LSNAllocator.allocRound
  rw [hnext]
  dsimp only
  split_ifs with hbound
  · exact ⟨by rwa [allocEvents, append_nil], fun heq => by cases heq⟩
  · by_cases hscn : a.tmpNextScn baseScn ≤ SCN.obMaxScnTsNs
    · rw [SCN.convertForLogservice, dif_pos hscn]
      exact ⟨(GroupInv.swap hdelta hnext hplaced hi _).2, fun heq => by cases heq⟩
    · rw [SCN.convertForLogservice, dif_neg hscn]
      refine ⟨?_, fun heq => by cases heq⟩
      rw [allocEvents, append_nil]
      exact (GroupInv.swap hdelta hnext hplaced hi SCN.invalid).1

end

/-- The log id delta has room for two more where the bases need no update. -/
theorem delta_of_needUpdateBase {baseScn : SCN} (h : a.needUpdateBase baseScn = false) :
    a.lsnTsMeta.logIdDelta + 2 < 2 ^ 28 := by
  unfold needUpdateBase logIdDeltaUpperBound at h
  simp only [Bool.or_eq_false_iff, decide_eq_false_iff_not] at h
  omega

theorem GroupInv.allocLsnScn (hi : GroupInv es a) {size : Int}
    (hsize : size ≤ logEntryHeaderSize + maxLogBodySize) (baseScn : SCN) (ub : Int) (lb : LSN) :
    GroupInv (es ++ allocEvents baseScn size (a.allocLsnScn baseScn size ub lb).1)
      (a.allocLsnScn baseScn size ub lb).2 ∧
      (a.allocLsnScn baseScn size ub lb).1 ≠ .error .errUnexpected := by
  have hsame (e : ObError) : GroupInv (es ++ allocEvents baseScn size (.error e)) a := by
    rwa [allocEvents, append_nil]
  unfold LSNAllocator.allocLsnScn
  split_ifs with hinit hargs hupd
  · exact ⟨hsame _, nofun⟩
  · exact ⟨hsame _, nofun⟩
  · have hdelta : (a.updateBase baseScn).lsnTsMeta.logIdDelta + 2 < 2 ^ 28 := by
      show 0 % 2 ^ 28 + 2 < 2 ^ 28
      decide
    exact (hi.updateBase baseScn).allocRound hdelta (by omega) hsize baseScn ub lb
  · exact hi.allocRound (delta_of_needUpdateBase (by simpa using hupd)) (by omega) hsize baseScn
      ub lb

/-- Every call keeps the invariant of the group logs. -/
theorem GroupInv.call (hi : GroupInv es a) {es' : List Event} (h : Call a es' a') :
    GroupInv (es ++ es') a' := by
  cases h with
  | alloc hsize => exact (hi.allocLsnScn hsize _ _ _).1
  | tryFreeze =>
    rw [append_nil]
    exact hi.tryFreeze
  | incUpdateScnBase =>
    rw [append_nil]
    exact hi.incUpdateScnBase _

theorem groupInv_init {logId : Int} {scn : SCN} {startLsn : LSN}
    (hinit : reset.init logId scn startLsn = .ok a) (hstart : RoomForPadding startLsn.val) :
    GroupInv [] a := by
  unfold init at hinit
  split_ifs at hinit
  cases hinit
  have hlsn : startLsn.val % 2 ^ 64 = startLsn.val := Nat.mod_eq_of_lt startLsn.isLt
  refine ⟨⟨Nat.mod_lt _ (by decide), ?_, nofun⟩, Nat.mod_lt _ (by decide), by simp [entries],
    by simp [entries], by simp [entries], by simp [entries]⟩
  show RoomForPadding (startLsn.val % 2 ^ 64)
  rwa [hlsn]

end Runs

/-- From a start with room for padding, no allocation of a legal size is unexpected, paddings reach
the trigger length and a group log stays in its segment. -/
theorem group_shape {logId : Int} {scn : SCN} {startLsn : LSN} {a₀ a : LSNAllocator}
    {es : List Event} (hinit : reset.init logId scn startLsn = .ok a₀)
    (hstart : RoomForPadding startLsn.val) (hrun : Run Call a₀ es a) :
    RoomForPadding a.getCurrEndLsn.val ∧
    (∀ baseScn size ub lb, size ≤ (logEntryHeaderSize + maxLogBodySize : Nat) →
      (a.allocLsnScn baseScn size ub lb).1 ≠ .error .errUnexpected) ∧
    (∀ e ∈ entries es, e.kind = .padding → clogFileTailPaddingTrigger ≤ e.len) ∧
    (entries es).Pairwise fun e f =>
      e.logId = f.logId → f.lsn.val + f.len ≤ segmentEnd e.lsn.val := by
  have hi := hrun.invariant GroupInv (fun _ _ _ _ hi h => hi.call h) (groupInv_init hinit hstart)
  refine ⟨?_, fun baseScn size ub lb hsize => ?_, hi.padding, hi.groups⟩
  · show RoomForPadding (a.lsnTsMeta.lsnVal % 2 ^ 64)
    rw [Nat.mod_eq_of_lt hi.shape.lt]
    exact hi.shape.room
  · exact (hi.allocLsnScn (by exact_mod_cast hsize) baseScn ub lb).2

theorem group_shape_two_logs :
    ∃ es a, Run Call (fresh 5 0) es a ∧ a.getCurrEndLsn.val = 256 ∧
      (entries es).map Entry.kind = [.group, .append] ∧ RoomForPadding a.getCurrEndLsn.val ∧
      (entries es).Pairwise fun e f =>
        e.logId = f.logId → f.lsn.val + f.len ≤ segmentEnd e.lsn.val := by
  have hstep₁ := @Call.alloc (fresh 5 0) ⟨10, by decide⟩ 100 10 (LSN.ofNat 1000) (by decide)
  have hstep₂ := @Call.alloc
    ((fresh 5 0).allocLsnScn ⟨10, by decide⟩ 100 10 (LSN.ofNat 1000)).2
    ⟨10, by decide⟩ 100 10 (LSN.ofNat 1000) (by decide)
  have hrun := Run.snoc (Run.single hstep₁) hstep₂
  have hinit : reset.init 0 ⟨5, by decide⟩ LSN.initial = .ok (fresh 5 0) := rfl
  obtain ⟨hroom, -, -, hgroups⟩ := group_shape hinit (by decide) hrun
  exact ⟨_, _, hrun, by decide, by decide, hroom, hgroups⟩

/-- From a start too near the end of a block, a padding is shorter than the trigger. -/
theorem startLsn_matters :
    reset.init 0 ⟨1, by decide⟩ (LSN.ofNat (palfBlockSize - 100)) =
        .ok (fresh 1 (palfBlockSize - 100)) ∧
      ¬ RoomForPadding (fresh 1 (palfBlockSize - 100)).getCurrEndLsn.val ∧
      ∃ r, ((fresh 1 (palfBlockSize - 100)).allocLsnScn ⟨10, by decide⟩ 100 10
          (LSN.ofNat (2 ^ 40))).1 = .ok r ∧
        r.needGenPaddingEntry = true ∧ r.paddingLen < clogFileTailPaddingTrigger :=
  ⟨rfl, by decide, _, rfl, rfl, by decide⟩

end Andl.Palf.LSNAllocator
