import Andl.Lib.Run
import Andl.Palf.LsnAllocator

/-!
# The allocator hands out a gap-free, ordered log
-/

namespace Andl.Palf.LSNAllocator

open List

/-! ### The tape -/

/-- What a run of the allocator produces. -/
inductive Event where
  | entry (e : Entry)
  /-- an scn installed by `inc_update_scn_base` -/
  | refScn (s : SCN)

/-- The end of a tape, and the log id and scn reached. -/
structure Tape where
  endPos : Nat
  logId : Int
  scn : Nat

/-- The entry lies inside one block. -/
def Entry.InBlock (e : Entry) : Prop :=
  e.lsn.val / palfBlockSize = (e.lsn.val + e.len - 1) / palfBlockSize

/-- Group and padding entries take a new log id. -/
def EntryKind.newIds (k : EntryKind) : Int := if k = .append then 0 else 1

/-- Writing entries one after the other. -/
def tape : Machine Tape Event where
  ok t
    | .entry e =>
      e.lsn.val = t.endPos ∧ 0 < e.len ∧ e.InBlock ∧ e.logId = t.logId + e.kind.newIds ∧
      t.scn < e.scn.val ∧ e.baseScn.val ≤ e.scn.val ∧ e.scn.isValid = true
    | .refScn _ => True
  next t
    | .entry e => ⟨e.lsn.val + e.len, e.logId, e.scn.val⟩
    | .refScn s => { t with scn := max t.scn s.val }

/-- The entries among the events. -/
def entries (es : List Event) : List Entry :=
  es.filterMap fun
    | .entry e => some e
    | .refScn _ => none

@[simp] theorem entries_nil : entries [] = [] := rfl

@[simp] theorem entries_entry (e : Entry) (es : List Event) :
    entries (.entry e :: es) = e :: entries es := rfl

@[simp] theorem entries_refScn (s : SCN) (es : List Event) :
    entries (.refScn s :: es) = entries es := rfl

variable {es : List Event}

theorem tape_endPos_le : ∀ {t : Tape}, tape.Accepts t es → t.endPos ≤ (tape.run t es).endPos := by
  induction es with
  | nil => intro t _; exact le_refl _
  | cons ev es ih =>
    intro t h
    have htail := ih h.2
    cases ev with
    | entry e =>
      obtain ⟨hpos, hlen, -⟩ := h.1
      have hnext : (tape.next t (.entry e)).endPos = e.lsn.val + e.len := rfl
      rw [Machine.run_cons]
      omega
    | refScn s => exact htail

/-- The entries of a tape cover exactly the positions between its ends. -/
theorem tape_covers :
    ∀ {t : Tape}, tape.Accepts t es → ∀ x,
      (t.endPos ≤ x ∧ x < (tape.run t es).endPos ↔
        ∃ e ∈ entries es, e.lsn.val ≤ x ∧ x < e.lsn.val + e.len) := by
  induction es with
  | nil =>
    intro t _ x
    simp
  | cons ev es ih =>
    intro t h x
    have htail := ih h.2 x
    have hle := tape_endPos_le h.2
    cases ev with
    | entry e =>
      obtain ⟨hpos, -⟩ := h.1
      have hnext : (tape.next t (.entry e)).endPos = e.lsn.val + e.len := rfl
      rw [hnext] at htail hle
      rw [Machine.run_cons, entries_entry]
      simp only [mem_cons, exists_eq_or_imp, ← htail]
      omega
    | refScn s => exact htail

/-- What holds of every entry wherever it is written holds of all entries. -/
theorem tape_forall {P : Entry → Prop} (hP : ∀ {t : Tape} {e}, tape.ok t (.entry e) → P e) :
    ∀ {t : Tape}, tape.Accepts t es → ∀ e ∈ entries es, P e := by
  induction es with
  | nil => intro t _ e he; exact absurd he not_mem_nil
  | cons ev es ih =>
    intro t h e he
    cases ev with
    | entry e' =>
      rcases mem_cons.mp he with rfl | he
      · exact hP h.1
      · exact ih h.2 e he
    | refScn s => exact ih h.2 e he

/-- Every entry of a tape starts at its beginning or later. -/
theorem tape_le_lsn {t : Tape} (h : tape.Accepts t es) {e : Entry} (he : e ∈ entries es) :
    t.endPos ≤ e.lsn.val := by
  have hlen : 0 < e.len := tape_forall (fun hok => hok.2.1) h e he
  exact ((tape_covers h e.lsn.val).mpr ⟨e, he, le_refl _, by omega⟩).1

theorem tape_lt_scn : ∀ {t : Tape}, tape.Accepts t es → ∀ e ∈ entries es, t.scn < e.scn.val := by
  induction es with
  | nil => intro t _ e he; exact absurd he not_mem_nil
  | cons ev es ih =>
    intro t h e he
    cases ev with
    | entry e' =>
      have hlt : t.scn < e'.scn.val := h.1.2.2.2.2.1
      rcases mem_cons.mp he with rfl | he
      · exact hlt
      · exact hlt.trans (ih h.2 e he)
    | refScn s =>
      have hle : t.scn ≤ (tape.next t (.refScn s)).scn := le_max_left _ _
      exact lt_of_le_of_lt hle (ih h.2 e he)

/-- The entries of a tape do not overlap, and their scns grow. -/
theorem tape_pairwise :
    ∀ {t : Tape}, tape.Accepts t es →
      (entries es).Pairwise fun e f => e.lsn.val + e.len ≤ f.lsn.val ∧ e.scn.val < f.scn.val := by
  induction es with
  | nil => intro t _; exact List.Pairwise.nil
  | cons ev es ih =>
    intro t h
    cases ev with
    | entry e =>
      rw [entries_entry, pairwise_cons]
      exact ⟨fun f hf => ⟨tape_le_lsn h.2 hf, tape_lt_scn h.2 f hf⟩, ih h.2⟩
    | refScn s => exact ih h.2

/-- The log ids grow from `logId` by one with every group and padding entry. -/
def LogIdsGrow : Int → List Entry → Prop
  | _, [] => True
  | logId, e :: es => e.logId = logId + e.kind.newIds ∧ LogIdsGrow e.logId es

theorem tape_logIdsGrow : ∀ {t : Tape}, tape.Accepts t es → LogIdsGrow t.logId (entries es) := by
  induction es with
  | nil => intro t _; trivial
  | cons ev es ih =>
    intro t h
    cases ev with
    | entry e => exact ⟨h.1.2.2.2.1, ih h.2⟩
    | refScn s =>
      have htail := ih h.2
      exact htail

/-- The log id of the last entry, or the one before all entries. -/
def lastLogIdOf (logId : Int) (es : List Entry) : Int := es.foldl (fun _ e => e.logId) logId

/-- The scn of the last entry or of an scn installed since, whichever is greater. -/
def lastScnOf (scn : Nat) (es : List Event) : Nat :=
  es.foldl
    (fun acc ev => match ev with
      | .entry e => e.scn.val
      | .refScn s => max acc s.val) scn

theorem tape_run_logId (es : List Event) :
    ∀ t : Tape, (tape.run t es).logId = lastLogIdOf t.logId (entries es) := by
  induction es with
  | nil => intro t; rfl
  | cons ev es ih =>
    intro t
    rw [Machine.run_cons, ih]
    cases ev with
    | entry e => rfl
    | refScn s => rfl

theorem tape_run_scn (es : List Event) : ∀ t : Tape, (tape.run t es).scn = lastScnOf t.scn es := by
  induction es with
  | nil => intro t; rfl
  | cons ev es ih =>
    intro t
    rw [Machine.run_cons, ih]
    cases ev with
    | entry e => rfl
    | refScn s => rfl

/-! ### Where a log goes -/

/-- The next position is either behind a padding to the end of the block or within the block. -/
theorem nextPos_ok {last : LSNTsMeta} {size : Nat} {pos : NextPos}
    (h : nextPos last size = .ok pos) :
    (pos.needGenPaddingEntry = true ∧ pos.isNewGroupLog = true ∧
      pos.paddingLen = palfBlockSize - last.lsnVal % palfBlockSize ∧
      pos.blockId = last.lsnVal / palfBlockSize + 1 ∧
      pos.blockOffset = logGroupEntryHeaderSize + size) ∨
    (pos.needGenPaddingEntry = false ∧
      ∃ len, len = (if pos.isNewGroupLog then logGroupEntryHeaderSize + size else size) ∧
        last.lsnVal % palfBlockSize + len ≤ palfBlockSize ∧
        pos.blockId * palfBlockSize + pos.blockOffset = last.lsnVal + len) := by
  obtain ⟨⟨isNew, off, cut⟩, hg, h⟩ := ObResult.bind_eq_ok.mp h
  -- the first half only decides whether the header is counted
  have hoff : off = last.lsnVal % palfBlockSize +
      (if isNew then logGroupEntryHeaderSize + size else size) := by
    simp only [groupPos] at hg
    split_ifs at hg <;> cases hg <;> simp only [if_true, if_false, Bool.false_eq_true] <;> omega
  have hdiv := Nat.div_add_mod last.lsnVal palfBlockSize
  rw [Nat.mul_comm] at hdiv
  dsimp only at h
  split_ifs at h with hlt htail heq
  · left
    cases ObResult.pure_eq_ok.mp h
    exact ⟨rfl, rfl, rfl, rfl, Nat.add_comm _ _⟩
  · right
    cases ObResult.pure_eq_ok.mp h
    refine ⟨rfl, _, rfl, ?_, ?_⟩
    · dsimp only; omega
    · dsimp only; omega
  · right
    cases ObResult.pure_eq_ok.mp h
    refine ⟨rfl, _, rfl, ?_, ?_⟩
    · dsimp only; omega
    · dsimp only
      rw [Nat.add_mul]
      omega
  · left
    cases ObResult.pure_eq_ok.mp h
    exact ⟨rfl, rfl, rfl, rfl, Nat.add_comm _ _⟩

/-! ### Every step writes on the tape -/

/-- The tape an allocator stands for. -/
def abs (a : LSNAllocator) : Tape := ⟨a.lsnTsMeta.lsnVal, a.lastLogId, a.lastScn⟩

/-- The allocator is initialised and its numbers are inside their formats. -/
structure Inv (a : LSNAllocator) : Prop where
  isInited : a.isInited = true
  lsnVal_lt : a.lsnTsMeta.lsnVal < 2 ^ 64
  logIdDelta_lt : a.lsnTsMeta.logIdDelta < 2 ^ 28
  scnDelta_lt : a.lsnTsMeta.scnDelta < 2 ^ 35
  scn_le : a.scnBase + a.lsnTsMeta.scnDelta ≤ SCN.obMaxScnTsNs

/-- The next allocation stays inside the number formats: the log ends in a block with a valid id,
and there are two scns left above both the last one and the requested one. -/
def InRange (a : LSNAllocator) (baseScn : SCN) : Prop :=
  isValidBlockId (a.lsnTsMeta.lsnVal / palfBlockSize) = true ∧
  a.lastScn + 2 ≤ SCN.obMaxScnTsNs ∧ baseScn.val + 2 ≤ SCN.obMaxScnTsNs

/-- One successful call, and the events it produces. -/
inductive Step (R : LSNAllocator → SCN → Prop) : LSNAllocator → List Event → LSNAllocator → Prop
  | alloc {a a' : LSNAllocator} {baseScn : SCN} {size : Int} {logIdUpperBound : Int}
      {lsnUpperBound : LSN} {r : Allocated} (hR : R a baseScn)
      (hsize : size ≤ logEntryHeaderSize + maxLogBodySize)
      (h : a.allocLsnScn baseScn size logIdUpperBound lsnUpperBound = (.ok r, a')) :
      Step R a ((submitEntries baseScn size.toNat r).map Event.entry) a'
  | tryFreeze {a a' : LSNAllocator} (h : a.tryFreeze = .ok a') : Step R a [] a'
  | tryFreezeByTime {a a' : LSNAllocator} (h : a.tryFreezeByTime = .ok a') : Step R a [] a'
  | incUpdateScnBase {a a' : LSNAllocator} {refScn : SCN}
      (h : a.incUpdateScnBase refScn = .ok a') : Step R a [.refScn refScn] a'

section Steps

variable {a a' : LSNAllocator} {baseScn : SCN} {size : Nat}

theorem Inv.lastScn_eq (hi : a.Inv) : a.lastScn = a.scnBase + a.lsnTsMeta.scnDelta := by
  have := hi.scn_le
  unfold SCN.obMaxScnTsNs at this
  exact Nat.mod_eq_of_lt (by omega)

theorem Inv.tmpNextScn_eq (hi : a.Inv) :
    a.tmpNextScn baseScn = max baseScn.val (a.lastScn + 1) := by
  have := hi.scn_le
  have hlast := hi.lastScn_eq
  unfold SCN.obMaxScnTsNs at this
  rw [tmpNextScn, Nat.mod_eq_of_lt (by omega)]

/-- With room left the deltas fit their fields. -/
theorem Inv.not_needUpdateBase (hi : a.Inv) (hb : baseScn.isValid = true)
    (h : a.needUpdateBase baseScn = false) :
    a.tmpNextScn baseScn + 1 < a.scnBase + logTsDeltaUpperBound ∧
      a.lsnTsMeta.logIdDelta + 2 < logIdDeltaUpperBound := by
  have hnext := @Inv.tmpNextScn_eq a baseScn hi
  have hlast := hi.lastScn_eq
  have hle := hi.scn_le
  have hbv := (SCN.isValid_iff baseScn).mp hb
  simp only [needUpdateBase, Bool.or_eq_false_iff, decide_eq_false_iff_not, not_le] at h
  unfold SCN.obMaxScnTsNs at hle hbv
  refine ⟨?_, h.2⟩
  have h1 := h.1
  have hsub : 2 ^ 64 + a.tmpNextScn baseScn + 1 - a.scnBase =
      2 ^ 64 + (a.tmpNextScn baseScn + 1 - a.scnBase) := by omega
  rw [hsub, Nat.add_mod_left, Nat.mod_eq_of_lt (by omega)] at h1
  omega

theorem Inv.updateBase (hi : a.Inv) (hb : baseScn.isValid = true) :
    (a.updateBase baseScn).Inv ∧
    (a.updateBase baseScn).lsnTsMeta.lsnVal = a.lsnTsMeta.lsnVal ∧
    (a.updateBase baseScn).lastLogId = a.lastLogId ∧
    (a.updateBase baseScn).lastScn = max baseScn.val a.lastScn := by
  have hle := hi.scn_le
  have hlast := hi.lastScn_eq
  have hbv := (SCN.isValid_iff baseScn).mp hb
  unfold SCN.obMaxScnTsNs at hle hbv
  have hlsn : (a.updateBase baseScn).lsnTsMeta.lsnVal = a.lsnTsMeta.lsnVal :=
    Nat.mod_eq_of_lt hi.lsnVal_lt
  have hscn : (a.updateBase baseScn).lastScn = max baseScn.val a.lastScn :=
    Nat.mod_eq_of_lt (by
      show max baseScn.val a.lastScn + 0 % 2 ^ 35 < 2 ^ 64
      omega)
  refine ⟨⟨hi.isInited, ?_, ?_, ?_, ?_⟩, hlsn, ?_, hscn⟩
  · rw [hlsn]
    exact hi.lsnVal_lt
  · show 0 % 2 ^ 28 < 2 ^ 28
    omega
  · show 0 % 2 ^ 35 < 2 ^ 35
    omega
  · show max baseScn.val a.lastScn + 0 % 2 ^ 35 ≤ SCN.obMaxScnTsNs
    unfold SCN.obMaxScnTsNs
    omega
  · show a.lastLogId + ((0 % 2 ^ 28 : Nat) : Int) = a.lastLogId
    simp

/-- After one update of the bases there is room again. -/
theorem Inv.needUpdateBase_updateBase (hi : a.Inv) (hb : baseScn.isValid = true) :
    (a.updateBase baseScn).needUpdateBase baseScn = false := by
  obtain ⟨hi', -, -, hscn⟩ := hi.updateBase hb
  have hnext := @Inv.tmpNextScn_eq _ baseScn hi'
  have hbase : (a.updateBase baseScn).scnBase = max baseScn.val a.lastScn := rfl
  have hid : (a.updateBase baseScn).lsnTsMeta.logIdDelta = 0 := rfl
  rw [hscn] at hnext
  simp only [needUpdateBase, Bool.or_eq_false_iff, decide_eq_false_iff_not, not_le, hnext, hbase,
    hid, logTsDeltaUpperBound, logIdDeltaUpperBound]
  omega

variable {ub : Int} {lb : LSN} {r : Allocated}

/-- What a successful round hands out, and the word it leaves behind. -/
theorem allocRound_ok (h : a.allocRound baseScn size ub lb = (.ok r, a')) :
    ∃ pos, nextPos a.lsnTsMeta size = .ok pos ∧
      a' = { a with lsnTsMeta := a.nextMeta baseScn pos } ∧
      r.scn.val = a.tmpNextScn baseScn ∧ r.scn.isValid = true ∧
      r = ⟨LSN.ofNat a.lsnTsMeta.lsnVal, a.lastLogId + pos.groupCount, r.scn,
        pos.isNewGroupLog, pos.needGenPaddingEntry, pos.paddingLen⟩ := by
  unfold allocRound at h
  cases hpos : nextPos a.lsnTsMeta size with
  | error e =>
    rw [hpos] at h
    cases h
  | ok pos =>
    rw [hpos] at h
    dsimp only at h
    split_ifs at h with hub
    · cases h
    · by_cases hscn : a.tmpNextScn baseScn ≤ SCN.obMaxScnTsNs
      · rw [SCN.convertForLogservice, dif_pos hscn] at h
        cases h
        exact ⟨pos, rfl, rfl, rfl, (SCN.isValid_iff _).mpr hscn, rfl⟩
      · rw [SCN.convertForLogservice, dif_neg hscn] at h
        cases h

/-- The fields of the next word, none of which overflows. -/
theorem Inv.nextMeta (hi : a.Inv) (hb : baseScn.isValid = true)
    (hn : a.needUpdateBase baseScn = false) (pos : NextPos) :
    (a.nextMeta baseScn pos).logIdDelta =
      a.lsnTsMeta.logIdDelta + pos.groupCount + pos.paddingCount ∧
    a.scnBase + (a.nextMeta baseScn pos).scnDelta =
      a.tmpNextScn baseScn + pos.paddingCount := by
  obtain ⟨hscn, hid⟩ := hi.not_needUpdateBase hb hn
  have hnext := @Inv.tmpNextScn_eq a baseScn hi
  have hlast := hi.lastScn_eq
  have hle := hi.scn_le
  unfold SCN.obMaxScnTsNs at hle
  unfold logTsDeltaUpperBound at hscn
  unfold logIdDeltaUpperBound at hid
  have hsub : (2 ^ 64 + a.tmpNextScn baseScn - a.scnBase) % 2 ^ 64 =
      a.tmpNextScn baseScn - a.scnBase := by
    have : 2 ^ 64 + a.tmpNextScn baseScn - a.scnBase =
        2 ^ 64 + (a.tmpNextScn baseScn - a.scnBase) := by omega
    rw [this, Nat.add_mod_left, Nat.mod_eq_of_lt (by omega)]
  have hg : pos.groupCount ≤ 1 := by unfold NextPos.groupCount; split_ifs <;> omega
  have hp : pos.paddingCount ≤ 1 := by unfold NextPos.paddingCount; split_ifs <;> omega
  simp only [LSNAllocator.nextMeta, LSNTsMeta.pack, hsub]
  constructor
  · rw [Nat.mod_eq_of_lt (by omega)]
  · rw [Nat.mod_eq_of_lt (by omega)]
    omega

/-- The position after the next log, which is not cut off. -/
theorem nextMeta_lsnVal {pos : NextPos}
    (hblk : isValidBlockId (a.lsnTsMeta.lsnVal / palfBlockSize) = true)
    (hsize : size ≤ logEntryHeaderSize + maxLogBodySize)
    (hpos : nextPos a.lsnTsMeta size = .ok pos) :
    (a.nextMeta baseScn pos).lsnVal = pos.blockId * palfBlockSize + pos.blockOffset := by
  refine Nat.mod_eq_of_lt ?_
  have hlt : a.lsnTsMeta.lsnVal / palfBlockSize < logMaxBlockId := by
    simpa [isValidBlockId] using hblk
  unfold logEntryHeaderSize maxLogBodySize at hsize
  rcases nextPos_ok hpos with ⟨-, -, -, hid, hoff⟩ | ⟨-, len, -, hlen, heq⟩
  · rw [hid, hoff]
    unfold logMaxBlockId palfBlockSize logGroupEntryHeaderSize at *
    omega
  · rw [heq]
    unfold logMaxBlockId palfBlockSize at *
    omega

/-- The allocator after a round, and the tape it stands for. -/
theorem Inv.allocRound_abs (hi : a.Inv) (hb : baseScn.isValid = true)
    (hn : a.needUpdateBase baseScn = false)
    (hblk : isValidBlockId (a.lsnTsMeta.lsnVal / palfBlockSize) = true)
    (hmax : a.tmpNextScn baseScn + 1 ≤ SCN.obMaxScnTsNs)
    (hsize : size ≤ logEntryHeaderSize + maxLogBodySize) {pos : NextPos}
    (hpos : nextPos a.lsnTsMeta size = .ok pos) :
    ({ a with lsnTsMeta := a.nextMeta baseScn pos } : LSNAllocator).Inv ∧
    ({ a with lsnTsMeta := a.nextMeta baseScn pos } : LSNAllocator).abs =
      ⟨pos.blockId * palfBlockSize + pos.blockOffset,
        a.lastLogId + pos.groupCount + pos.paddingCount,
        a.tmpNextScn baseScn + pos.paddingCount⟩ := by
  obtain ⟨hmid, hms⟩ := hi.nextMeta hb hn pos
  have hmlsn := @nextMeta_lsnVal a baseScn size pos hblk hsize hpos
  have hp : pos.paddingCount ≤ 1 := by unfold NextPos.paddingCount; split_ifs <;> omega
  have hle : a.scnBase + (a.nextMeta baseScn pos).scnDelta ≤ SCN.obMaxScnTsNs := by omega
  have hi' : ({ a with lsnTsMeta := a.nextMeta baseScn pos } : LSNAllocator).Inv :=
    ⟨hi.isInited, Nat.mod_lt _ (by decide), Nat.mod_lt _ (by decide), Nat.mod_lt _ (by decide),
      hle⟩
  refine ⟨hi', ?_⟩
  rw [abs, hi'.lastScn_eq]
  simp only [lastLogId, hmlsn, hmid, hms, Int.natCast_add, Tape.mk.injEq, true_and, and_true]
  omega

/-- **One round writes on the tape**, one entry or two. -/
theorem Inv.allocRound_tape (hi : a.Inv) (hb : baseScn.isValid = true)
    (hn : a.needUpdateBase baseScn = false)
    (hblk : isValidBlockId (a.lsnTsMeta.lsnVal / palfBlockSize) = true)
    (hmax : a.tmpNextScn baseScn + 1 ≤ SCN.obMaxScnTsNs) (hpos : 0 < size)
    (hsize : size ≤ logEntryHeaderSize + maxLogBodySize)
    (h : a.allocRound baseScn size ub lb = (.ok r, a')) :
    a'.Inv ∧ tape.Accepts a.abs ((submitEntries baseScn size r).map Event.entry) ∧
      a'.abs = tape.run a.abs ((submitEntries baseScn size r).map Event.entry) := by
  obtain ⟨pos, hnp, rfl, hscn, hvalid, hr⟩ := allocRound_ok h
  obtain ⟨hi', habs⟩ := hi.allocRound_abs hb hn hblk hmax hsize hnp
  have hnext := @Inv.tmpNextScn_eq a baseScn hi
  have hlsn : (LSN.ofNat a.lsnTsMeta.lsnVal).val = a.lsnTsMeta.lsnVal :=
    Nat.mod_eq_of_lt hi.lsnVal_lt
  have hlt : a.lsnTsMeta.lsnVal / palfBlockSize < logMaxBlockId := by
    simpa [isValidBlockId] using hblk
  refine ⟨hi', ?_⟩
  rw [habs, hr]
  unfold logEntryHeaderSize maxLogBodySize at hsize
  rcases nextPos_ok hnp with ⟨hpad, hnew, hplen, hid, hoff⟩ | ⟨hpad, len, hlen, hfit, heq⟩
  · -- a padding entry to the end of the block, and the log at the start of the next one
    have hgc : pos.groupCount = 1 := by simp [NextPos.groupCount, hnew]
    have hpc : pos.paddingCount = 1 := by simp [NextPos.paddingCount, hpad]
    have hplus : (r.scn.plus 1).val = r.scn.val + 1 := (SCN.plus_one_of_lt (by omega)).1
    have hplusv : (r.scn.plus 1).isValid = true := (SCN.isValid_iff _).mpr (by omega)
    have hmid : a.lsnTsMeta.lsnVal + pos.paddingLen =
        (a.lsnTsMeta.lsnVal / palfBlockSize + 1) * palfBlockSize := by
      rw [hplen]
      unfold palfBlockSize
      omega
    have hadd : ((LSN.ofNat a.lsnTsMeta.lsnVal).add pos.paddingLen).val =
        a.lsnTsMeta.lsnVal + pos.paddingLen := by
      show ((LSN.ofNat a.lsnTsMeta.lsnVal).val + pos.paddingLen) % 2 ^ 64 = _
      rw [hlsn, hmid]
      refine Nat.mod_eq_of_lt ?_
      unfold logMaxBlockId palfBlockSize at *
      omega
    simp only [submitEntries, hpad, hnew, hgc, hpc, hid, hoff, if_true, map_cons,
      map_nil, Machine.Accepts, Machine.run_cons, Machine.run_nil, tape, Entry.InBlock,
      EntryKind.newIds, reduceCtorEq, if_false, hplus, hplusv, hvalid, hadd, hmid, hlsn, abs,
      Tape.mk.injEq, and_true, true_and]
    unfold palfBlockSize logGroupEntryHeaderSize at *
    and_intros <;> omega
  · -- the log fits into the block
    have hpc : pos.paddingCount = 0 := by simp [NextPos.paddingCount, hpad]
    cases hnew : pos.isNewGroupLog with
    | true =>
      have hgc : pos.groupCount = 1 := by simp [NextPos.groupCount, hnew]
      rw [hnew, if_pos rfl] at hlen
      simp only [submitEntries, hpad, hgc, hpc, heq, hlen, if_true, map_cons,
        map_nil, Machine.Accepts, Machine.run_cons, Machine.run_nil, tape, Entry.InBlock,
        EntryKind.newIds, reduceCtorEq, if_false, hvalid, hlsn, abs, Tape.mk.injEq, and_true,
        true_and, Bool.false_eq_true]
      unfold palfBlockSize logGroupEntryHeaderSize at *
      and_intros <;> omega
    | false =>
      have hgc : pos.groupCount = 0 := by simp [NextPos.groupCount, hnew]
      rw [hnew, if_neg Bool.false_ne_true] at hlen
      simp only [submitEntries, hpad, hgc, hpc, heq, hlen, if_true, map_cons,
        map_nil, Machine.Accepts, Machine.run_cons, Machine.run_nil, tape, Entry.InBlock,
        EntryKind.newIds, if_false, hvalid, hlsn, abs, Tape.mk.injEq, and_true,
        true_and, Bool.false_eq_true]
      unfold palfBlockSize at *
      and_intros <;> omega

/-- A tape with a smaller scn takes the same entries. -/
theorem tape_lower {t : Tape} {n : Nat} (hn : n ≤ t.scn) {e : Entry} {es : List Event}
    (h : tape.Accepts t (.entry e :: es)) :
    tape.Accepts { t with scn := n } (.entry e :: es) ∧
      tape.run { t with scn := n } (.entry e :: es) = tape.run t (.entry e :: es) := by
  obtain ⟨⟨hpos, hlen, hblk, hid, hscn, hbase, hv⟩, htail⟩ := h
  exact ⟨⟨⟨hpos, hlen, hblk, hid, lt_of_le_of_lt hn hscn, hbase, hv⟩, htail⟩, rfl⟩

theorem exists_submitEntries_cons (baseScn : SCN) (size : Nat) (r : Allocated) :
    ∃ e es, submitEntries baseScn size r = e :: es := by
  unfold submitEntries
  split_ifs
  · exact ⟨_, _, rfl⟩
  · exact ⟨_, _, rfl⟩
  · exact ⟨_, _, rfl⟩

/-- **An allocation writes on the tape**, whether or not it moves the bases first. -/
theorem Inv.allocLsnScn_tape (hi : a.Inv) (hR : a.InRange baseScn) {size : Int}
    (hsize : size ≤ logEntryHeaderSize + maxLogBodySize)
    (h : a.allocLsnScn baseScn size ub lb = (.ok r, a')) :
    a'.Inv ∧ tape.Accepts a.abs ((submitEntries baseScn size.toNat r).map Event.entry) ∧
      a'.abs = tape.run a.abs ((submitEntries baseScn size.toNat r).map Event.entry) := by
  obtain ⟨hblk, hlast, hbase⟩ := hR
  unfold allocLsnScn at h
  rw [if_neg (by simp [hi.isInited])] at h
  split_ifs at h with hargs hupd
  · cases h
  · -- the bases move: the second round starts from the requested scn, if it is greater
    push Not at hargs
    have hb : baseScn.isValid = true := by simpa using hargs.2.1
    obtain ⟨hi', hlsn, hid, hscn⟩ := hi.updateBase hb
    have hnext := @Inv.tmpNextScn_eq _ baseScn hi'
    obtain ⟨hinv, hacc, hrun⟩ := hi'.allocRound_tape hb (hi.needUpdateBase_updateBase hb)
      (by rw [hlsn]; exact hblk) (by omega) (by omega) (by omega) h
    obtain ⟨e, es, he⟩ := exists_submitEntries_cons baseScn size.toNat r
    rw [he, map_cons] at hacc hrun ⊢
    have habs : a.abs = { (a.updateBase baseScn).abs with scn := a.lastScn } := by
      simp only [abs, hlsn, hid]
    have hle : a.lastScn ≤ (a.updateBase baseScn).abs.scn := by
      show a.lastScn ≤ (a.updateBase baseScn).lastScn
      omega
    rw [habs]
    obtain ⟨hacc', hrun'⟩ := tape_lower hle hacc
    exact ⟨hinv, hacc', by rw [hrun, hrun']⟩
  · push Not at hargs
    have hb : baseScn.isValid = true := by simpa using hargs.2.1
    have hnext := @Inv.tmpNextScn_eq a baseScn hi
    exact hi.allocRound_tape hb (by simpa using hupd) hblk (by omega) (by omega) (by omega) h

/-- Cutting the next log changes nothing the tape shows. -/
theorem Inv.freeze (hi : a.Inv) : a.freeze.Inv ∧ a.freeze.abs = a.abs := by
  have hmeta : a.freeze = { a with lsnTsMeta := { a.lsnTsMeta with isNeedCut := true } } := by
    simp only [LSNAllocator.freeze, LSNTsMeta.pack, Nat.mod_eq_of_lt hi.lsnVal_lt,
      Nat.mod_eq_of_lt hi.logIdDelta_lt, Nat.mod_eq_of_lt hi.scnDelta_lt]
  rw [hmeta]
  exact ⟨⟨hi.isInited, hi.lsnVal_lt, hi.logIdDelta_lt, hi.scnDelta_lt, hi.scn_le⟩, rfl⟩

/-- Installing an scn raises the scn of the tape to it. -/
theorem Inv.incUpdateScnBase_tape (hi : a.Inv) {refScn : SCN}
    (h : a.incUpdateScnBase refScn = .ok a') :
    a'.Inv ∧ a'.abs = tape.run a.abs [.refScn refScn] := by
  have hlast := hi.lastScn_eq
  unfold incUpdateScnBase at h
  split_ifs at h with hinit hv hgt
  · cases h
    refine ⟨hi, ?_⟩
    show a.abs = { a.abs with scn := max a.lastScn refScn.val }
    rw [max_eq_left (by omega)]
    rfl
  · cases h
    have hrv : refScn.val ≤ SCN.obMaxScnTsNs := (SCN.isValid_iff refScn).mp (by simpa using hv)
    have hlsn : a.lsnTsMeta.lsnVal % 2 ^ 64 = a.lsnTsMeta.lsnVal := Nat.mod_eq_of_lt hi.lsnVal_lt
    have hid : a.lsnTsMeta.logIdDelta % 2 ^ 28 = a.lsnTsMeta.logIdDelta :=
      Nat.mod_eq_of_lt hi.logIdDelta_lt
    have hmax : max a.lastScn refScn.val = refScn.val := max_eq_right (by omega)
    refine ⟨⟨hi.isInited, Nat.mod_lt _ (by decide), Nat.mod_lt _ (by decide),
      Nat.mod_lt _ (by decide), ?_⟩, ?_⟩
    · show refScn.val + 0 % 2 ^ 35 ≤ _
      omega
    · have hmod : (refScn.val + 0 % 2 ^ 35) % 2 ^ 64 = refScn.val := by
        have := refScn.isLt
        omega
      simp only [abs, lastLogId, lastScn, LSNTsMeta.pack, hlsn, hid, hmod, Machine.run_cons,
        Machine.run_nil, tape, Tape.mk.injEq, true_and]
      exact hmax.symm

end Steps

/-- Every step in range keeps the invariant and writes its entries on the tape. -/
theorem step_tape {a a' : LSNAllocator} (hi : a.Inv) (h : Step InRange a es a') :
    a'.Inv ∧ tape.Accepts a.abs es ∧ a'.abs = tape.run a.abs es := by
  cases h with
  | alloc hR hsize h => exact hi.allocLsnScn_tape hR hsize h
  | tryFreeze h =>
    unfold tryFreeze at h
    split_ifs at h
    · cases h
      exact ⟨hi, trivial, rfl⟩
    · cases h
      exact ⟨hi.freeze.1, trivial, hi.freeze.2⟩
  | tryFreezeByTime h =>
    unfold tryFreezeByTime at h
    split_ifs at h
    cases h
    exact ⟨hi.freeze.1, trivial, hi.freeze.2⟩
  | incUpdateScnBase h =>
    obtain ⟨hi', habs⟩ := hi.incUpdateScnBase_tape h
    exact ⟨hi', ⟨trivial, trivial⟩, habs⟩

/-- A new allocator stands for the empty tape at its arguments. -/
theorem init_tape {logId : Int} {scn : SCN} {startLsn : LSN} {a : LSNAllocator}
    (h : reset.init logId scn startLsn = .ok a) :
    a.Inv ∧ a.abs = ⟨startLsn.val, logId, scn.val⟩ := by
  unfold init at h
  split_ifs at h with h1 h2
  push Not at h2
  cases h
  have hscn : scn.val ≤ SCN.obMaxScnTsNs := (SCN.isValid_iff scn).mp (by simpa using h2.2.1)
  have hlsn : startLsn.val % 2 ^ 64 = startLsn.val := Nat.mod_eq_of_lt startLsn.isLt
  have hmod : (scn.val + 0 % 2 ^ 35) % 2 ^ 64 = scn.val := by
    have := scn.isLt
    omega
  refine ⟨⟨rfl, Nat.mod_lt _ (by decide), Nat.mod_lt _ (by decide), Nat.mod_lt _ (by decide),
    ?_⟩, ?_⟩
  · show scn.val + 0 % 2 ^ 35 ≤ _
    omega
  · simp only [abs, lastLogId, lastScn, LSNTsMeta.pack, hlsn, hmod, Tape.mk.injEq, true_and,
      and_true]
    simp

/-! ### The log handed out -/

/-- The entries of a run cover the LSNs from the start without gap or overlap, each within a block,
with growing scns and log ids. -/
theorem allocated_log_gap_free {logId : Int} {scn : SCN} {startLsn : LSN}
    {a₀ a : LSNAllocator} {es : List Event} (hinit : reset.init logId scn startLsn = .ok a₀)
    (hrun : Run (Step InRange) a₀ es a) :
    (∀ x, startLsn.val ≤ x ∧ x < a.getCurrEndLsn.val ↔
      ∃ e ∈ entries es, e.lsn.val ≤ x ∧ x < e.lsn.val + e.len) ∧
    ((entries es).Pairwise fun e f =>
      e.lsn.val + e.len ≤ f.lsn.val ∧ e.scn.val < f.scn.val) ∧
    (∀ e ∈ entries es, 0 < e.len ∧ e.InBlock ∧ e.scn.isValid = true ∧ scn.val < e.scn.val ∧
      e.baseScn.val ≤ e.scn.val) ∧
    LogIdsGrow logId (entries es) ∧
    a.getMaxLogId = lastLogIdOf logId (entries es) ∧
    a.getMaxScn.val = lastScnOf scn.val es := by
  obtain ⟨hi₀, habs₀⟩ := init_tape hinit
  obtain ⟨hi, hacc, habs⟩ := hrun.refines tape Inv abs (fun _ _ _ => step_tape) hi₀
  rw [habs₀] at hacc habs
  have hend : a.getCurrEndLsn.val = (tape.run ⟨startLsn.val, logId, scn.val⟩ es).endPos := by
    rw [← habs]
    exact Nat.mod_eq_of_lt hi.lsnVal_lt
  have hid : a.lastLogId = lastLogIdOf logId (entries es) := by
    rw [← tape_run_logId es ⟨startLsn.val, logId, scn.val⟩, ← habs]
    rfl
  have hscn : a.lastScn = lastScnOf scn.val es := by
    rw [← tape_run_scn es ⟨startLsn.val, logId, scn.val⟩, ← habs]
    rfl
  refine ⟨?_, tape_pairwise hacc, ?_, tape_logIdsGrow hacc, ?_, ?_⟩
  · intro x
    rw [hend]
    exact tape_covers hacc x
  · intro e he
    refine ⟨tape_forall (fun hok => hok.2.1) hacc e he,
      tape_forall (fun hok => hok.2.2.1) hacc e he,
      tape_forall (fun hok => hok.2.2.2.2.2.2) hacc e he, tape_lt_scn hacc e he,
      tape_forall (fun hok => hok.2.2.2.2.2.1) hacc e he⟩
  · rw [getMaxLogId, if_pos hi.isInited, hid]
  · have hle : a.lastScn ≤ SCN.obMaxScnTsNs := by
      rw [hi.lastScn_eq]
      exact hi.scn_le
    rw [getMaxScn, if_pos hi.isInited, SCN.convertForLogservice, dif_pos hle, ← hscn]
    rfl

/-- An allocator just initialised with log id 0. -/
def fresh (scn startLsn : Nat) : LSNAllocator := ⟨⟨true, 0, 0, startLsn⟩, 0, scn, true⟩

theorem allocated_log_gap_free_two_logs :
    ∃ es a, Run (Step InRange) (fresh 5 0) es a ∧ a.getCurrEndLsn.val = 256 ∧
      (entries es).map (·.lsn.val) = [0, 156] ∧
      (∀ x, 0 ≤ x ∧ x < 256 ↔ ∃ e ∈ entries es, e.lsn.val ≤ x ∧ x < e.lsn.val + e.len) ∧
      ((entries es).Pairwise fun e f => e.lsn.val + e.len ≤ f.lsn.val ∧ e.scn.val < f.scn.val) ∧
      LogIdsGrow 0 (entries es) ∧ a.getMaxScn.val = 30 := by
  have hgroup := @Step.alloc InRange (fresh 5 0) _ ⟨10, by decide⟩ 100 10 (LSN.ofNat 1000)
    ⟨LSN.initial, 1, ⟨10, by decide⟩, true, false, 0⟩ (by unfold InRange; decide) (by decide) rfl
  -- the second log goes into the group of the first one
  have happend := @Step.alloc InRange
    ((fresh 5 0).allocLsnScn ⟨10, by decide⟩ 100 10 (LSN.ofNat 1000)).2 _ ⟨10, by decide⟩ 100 10
    (LSN.ofNat 1000) ⟨LSN.ofNat 156, 1, ⟨11, by decide⟩, false, false, 0⟩
    (by unfold InRange; decide) (by decide) rfl
  have hscn := @Step.incUpdateScnBase InRange _ _ ⟨30, by decide⟩
    (rfl : (((fresh 5 0).allocLsnScn ⟨10, by decide⟩ 100 10 (LSN.ofNat 1000)).2.allocLsnScn
      ⟨10, by decide⟩ 100 10 (LSN.ofNat 1000)).2.incUpdateScnBase ⟨30, by decide⟩ = .ok _)
  have hrun := ((Run.single hgroup).snoc happend).snoc hscn
  have hinit : reset.init 0 ⟨5, by decide⟩ LSN.initial = .ok (fresh 5 0) := rfl
  obtain ⟨hcovers, hpair, -, hids, -, hmax⟩ := allocated_log_gap_free hinit hrun
  exact ⟨_, _, hrun, rfl, rfl, hcovers, hpair, hids, hmax⟩

/-! ### The limits -/

/-- The largest scn can exceed that of every entry; near 2 ^ 64 the end LSN wraps around; at the
largest scn an entry gets an invalid one. -/
theorem allocator_limits :
    (∃ e a₁ a₂, reset.init 0 ⟨1, by decide⟩ LSN.initial = .ok (fresh 1 0) ∧
      Step (fun _ _ => True) (fresh 1 0) [.entry e] a₁ ∧
      Step (fun _ _ => True) a₁ [.refScn ⟨100, by decide⟩] a₂ ∧
      e.scn.val = 10 ∧ a₂.getMaxScn.val = 100) ∧
    (∃ e a, reset.init 0 ⟨1, by decide⟩ (LSN.ofNat (2 ^ 64 - 2)) = .ok (fresh 1 (2 ^ 64 - 2)) ∧
      Step (fun _ _ => True) (fresh 1 (2 ^ 64 - 2)) [.entry e] a ∧
      e.lsn.val = 2 ^ 64 - 2 ∧ a.getCurrEndLsn.val < 2 ^ 64 - 2) ∧
    (∃ e e' a, reset.init 0 ⟨SCN.obMaxScnTsNs - 1, by decide⟩ (LSN.ofNat (palfBlockSize - 100)) =
        .ok (fresh (SCN.obMaxScnTsNs - 1) (palfBlockSize - 100)) ∧
      Step (fun _ _ => True) (fresh (SCN.obMaxScnTsNs - 1) (palfBlockSize - 100))
        [.entry e, .entry e'] a ∧
      e.scn.val = SCN.obMaxScnTsNs ∧ e'.scn.isValid = false) := by
  -- the allocations: what was asked for, and what was handed out
  have h₁ := @Step.alloc (fun _ _ => True) (fresh 1 0) _ ⟨10, by decide⟩ 100 10 (LSN.ofNat 1000)
    ⟨LSN.initial, 1, ⟨10, by decide⟩, true, false, 0⟩ trivial (by decide) rfl
  have h₂ := @Step.alloc (fun _ _ => True) (fresh 1 (2 ^ 64 - 2)) _ ⟨10, by decide⟩ 100 10
    (LSN.ofNat 1000) ⟨LSN.ofNat (2 ^ 64 - 2), 1, ⟨10, by decide⟩, true, false, 0⟩ trivial
    (by decide) rfl
  have h₃ := @Step.alloc (fun _ _ => True) (fresh (SCN.obMaxScnTsNs - 1) (palfBlockSize - 100))
    _ ⟨SCN.obMaxScnTsNs, by decide⟩ 100 10 (LSN.ofNat (2 ^ 40))
    ⟨LSN.ofNat (palfBlockSize - 100), 1, ⟨SCN.obMaxScnTsNs, by decide⟩, true, true, 100⟩ trivial
    (by decide) rfl
  exact ⟨⟨_, _, _, rfl, h₁, .incUpdateScnBase rfl, rfl, rfl⟩,
    ⟨_, _, rfl, h₂, rfl, by decide⟩, ⟨_, _, _, rfl, h₃, rfl, rfl⟩⟩

end Andl.Palf.LSNAllocator
