import Andl.Lib.LexList
import Andl.Lob.SeqId

/-!
# Ids of LOB pieces are ordered
-/

namespace Andl.Lob

open List

/-- The id with the digits `ds`. -/
def idBytes (ds : List ℕ) : List ℕ := ds.flatMap store32be

/-- Digits of 32 bits. -/
def IsDigits (ds : List ℕ) : Prop := ∀ d ∈ ds, d < 2 ^ 32

instance (ds : List ℕ) : Decidable (IsDigits ds) := by
  unfold IsDigits
  infer_instance

theorem length_store32be (d : ℕ) : (store32be d).length = 4 := rfl

theorem length_idBytes (ds : List ℕ) : (idBytes ds).length = 4 * ds.length := by
  induction ds with
  | nil => rfl
  | cons d ds ih =>
    rw [idBytes, flatMap_cons, length_append, length_store32be, ← idBytes, ih,
      length_cons]
    omega

theorem idBytes_append (ds es : List ℕ) : idBytes (ds ++ es) = idBytes ds ++ idBytes es :=
  flatMap_append

theorem idBytes_singleton (d : ℕ) : idBytes [d] = store32be d := by
  rw [idBytes, flatMap_singleton]

theorem store32be_lt {a b : ℕ} (ha : a < 2 ^ 32) (hb : b < 2 ^ 32) (h : a < b) :
    store32be a < store32be b := by
  have hsum {c : ℕ} (hc : c < 2 ^ 32) :
      c = c / 2 ^ 24 % 256 * 2 ^ 24 + c / 2 ^ 16 % 256 * 2 ^ 16 + c / 2 ^ 8 % 256 * 2 ^ 8 +
        c % 256 := by
    omega
  have hlt (c : ℕ) : c % 256 < 256 := Nat.mod_lt _ (by decide)
  have hasum := hsum ha
  have hbsum := hsum hb
  have ha1 := hlt (a / 2 ^ 8)
  have ha2 := hlt (a / 2 ^ 16)
  have hb1 := hlt (b / 2 ^ 8)
  have hb2 := hlt (b / 2 ^ 16)
  have ha0 := hlt a
  have hb0 := hlt b
  unfold store32be
  simp only [cons_lt_cons_iff]
  generalize a / 2 ^ 24 % 256 = a3, a / 2 ^ 16 % 256 = a2, a / 2 ^ 8 % 256 = a1, a % 256 = a0 at *
  generalize b / 2 ^ 24 % 256 = b3, b / 2 ^ 16 % 256 = b2, b / 2 ^ 8 % 256 = b1, b % 256 = b0 at *
  clear hsum hlt
  omega

/-- **The byte order** is the order of the digits. -/
theorem idBytes_lt_iff {ds es : List ℕ} (hd : IsDigits ds) (he : IsDigits es) :
    idBytes ds < idBytes es ↔ ds < es :=
  flatMap_lt_flatMap_iff (by decide) length_store32be (fun _ _ => store32be_lt) hd he

theorem load32be_append (as bs : List ℕ) {d : ℕ} (hd : d < 2 ^ 32) :
    load32be (as ++ (store32be d ++ bs)) as.length = d := by
  have hget (i : ℕ) : (as ++ (store32be d ++ bs)).getD (as.length + i) 0 =
      (store32be d ++ bs).getD i 0 := by
    rw [getD_append_right _ _ _ _ (by omega), Nat.add_sub_cancel_left]
  have hget0 := hget 0
  rw [Nat.add_zero] at hget0
  rw [load32be, hget0, hget, hget, hget]
  show d / 2 ^ 24 % 256 * 2 ^ 24 + d / 2 ^ 16 % 256 * 2 ^ 16 + d / 2 ^ 8 % 256 * 2 ^ 8 + d % 256 = d
  omega

theorem take_storeAt {buf : List ℕ} {pos : ℕ} (h : pos ≤ buf.length) (d : ℕ) :
    (storeAt buf pos d).take (pos + 4) = buf.take pos ++ store32be d := by
  have hlen : (buf.take pos ++ store32be d).length = pos + 4 := by
    rw [length_append, length_take, Nat.min_eq_left h, length_store32be]
  rw [storeAt, take_append_of_le_length hlen.ge, take_of_length_le hlen.le]

theorem length_storeAt {buf : List ℕ} {pos : ℕ} (h : pos + 4 ≤ buf.length) (d : ℕ) :
    (storeAt buf pos d).length = buf.length := by
  rw [storeAt, length_append, length_append, length_take, length_drop,
    length_store32be]
  omega

namespace ObLobSeqId

variable {s t : ObLobSeqId} {ds es : List ℕ}

/-! ### The two representations -/

/-- The array holds the digits `ds`. -/
structure HoldsDigits (s : ObLobSeqId) (ds : List ℕ) : Prop where
  digLen_eq : s.digLen = ds.length
  digits_eq : s.digits.take s.digLen = ds

/-- The buffer holds the bytes of `ds`. -/
structure HoldsBytes (s : ObLobSeqId) (ds : List ℕ) : Prop where
  len_eq : s.len = 4 * ds.length
  buf_eq : s.buf.take s.len = idBytes ds
  last_eq : ds ≠ [] → s.lastSeqBufPos + 4 = s.len
  room : s.buf ≠ [] → s.len < s.buf.length ∧ 4 ≤ s.buf.length

/-- The array and the buffer hold the digits `ds`. -/
structure Holds (s : ObLobSeqId) (ds : List ℕ) : Prop extends HoldsDigits s ds, HoldsBytes s ds

theorem HoldsDigits.le (h : s.HoldsDigits ds) : s.digLen ≤ s.digits.length := by
  have hlen := congrArg List.length h.digits_eq
  rw [length_take, ← h.digLen_eq] at hlen
  omega

theorem HoldsDigits.exists_append (h : s.HoldsDigits ds) : ∃ xs, s.digits = ds ++ xs :=
  ⟨s.digits.drop s.digLen, by rw [← h.digits_eq, take_append_drop]⟩

theorem take_set_succ {l : List ℕ} {n : ℕ} (h : n < l.length) (d : ℕ) :
    (l.set n d).take (n + 1) = l.take n ++ [d] := by
  rw [take_set, take_succ_eq_append_getElem h, set_append_right _ _ (by simp),
    length_take, Nat.min_eq_left h.le, Nat.sub_self]
  rfl

theorem HoldsDigits.addDigits (h : s.HoldsDigits ds) (d : ℕ) :
    (s.addDigits d).HoldsDigits (ds ++ [d]) := by
  have hle := h.le
  have hlen := h.digLen_eq
  obtain ⟨t, ht⟩ : ∃ t, t = if s.digits = [] then s.initDigits else s := ⟨_, rfl⟩
  have hinit : t.HoldsDigits ds ∧ 0 < t.digits.length := by
    by_cases hnil : s.digits = []
    · rw [if_pos hnil] at ht
      have hempty : ds = [] := by
        rw [hnil, length_nil] at hle
        exact length_eq_zero_iff.mp (by omega)
      rw [ht, hempty]
      exact ⟨⟨rfl, rfl⟩, show 0 < (List.replicate lobSeqDigitDefaultLen 0).length by
        rw [length_replicate]; decide⟩
    · rw [if_neg hnil] at ht
      rw [ht]
      exact ⟨h, length_pos_iff.mpr hnil⟩
  obtain ⟨u, hu⟩ : ∃ u, u = if t.digLen < t.digits.length then t else t.extendDigits := ⟨_, rfl⟩
  have hroom : u.HoldsDigits ds ∧ u.digLen < u.digits.length := by
    by_cases hlt : t.digLen < t.digits.length
    · rw [if_pos hlt] at hu
      rw [hu]
      exact ⟨hinit.1, hlt⟩
    · rw [if_neg hlt] at hu
      rw [hu]
      refine ⟨⟨hinit.1.digLen_eq, ?_⟩, ?_⟩
      · show (t.digits ++ List.replicate t.digits.length 0).take t.digLen = ds
        rw [take_append_of_le_length hinit.1.le, hinit.1.digits_eq]
      · show t.digLen < (t.digits ++ List.replicate t.digits.length 0).length
        rw [length_append, length_replicate]
        have := hinit.1.le
        omega
  have hadd : s.addDigits d =
      { u with digits := u.digits.set u.digLen d, digLen := u.digLen + 1 } := by
    rw [hu, ht]
    rfl
  rw [hadd]
  refine ⟨?_, ?_⟩
  · show u.digLen + 1 = (ds ++ [d]).length
    rw [length_append, length_singleton, hroom.1.digLen_eq]
  · show (u.digits.set u.digLen d).take (u.digLen + 1) = ds ++ [d]
    rw [take_set_succ hroom.2, hroom.1.digits_eq]

theorem HoldsBytes.appendSeqBuf (h : s.HoldsBytes ds) (d : ℕ) :
    (s.appendSeqBuf d).HoldsBytes (ds ++ [d]) := by
  obtain ⟨t, ht⟩ : ∃ t, t = if s.buf = [] then s.initSeqBuf else s := ⟨_, rfl⟩
  have hinit : t.HoldsBytes ds ∧ t.len < t.buf.length ∧ 4 ≤ t.buf.length := by
    by_cases hnil : s.buf = []
    · rw [if_pos hnil] at ht
      have hempty : ds = [] := by
        have hlen := congrArg List.length h.buf_eq
        rw [hnil, take_nil, length_nil, length_idBytes] at hlen
        exact length_eq_zero_iff.mp (by omega)
      have hcap : t.buf.length = lobSeqDefaultSeqBufLen := by
        rw [ht]
        exact length_replicate
      have hlen : t.len = 0 := by rw [ht]; rfl
      have hpos : 4 ≤ lobSeqDefaultSeqBufLen ∧ 0 < lobSeqDefaultSeqBufLen := by decide
      rw [hempty]
      refine ⟨⟨hlen, ?_, fun hne => absurd rfl hne, fun _ => by omega⟩, by omega, by omega⟩
      rw [hlen]
      rfl
    · rw [if_neg hnil] at ht
      rw [ht]
      exact ⟨h, h.room hnil⟩
  obtain ⟨u, hu⟩ : ∃ u, u = if t.len + 4 < t.buf.length then t else t.extendSeqBuf := ⟨_, rfl⟩
  have hroom : u.len = t.len ∧ u.len + 4 < u.buf.length ∧ u.buf.take u.len = idBytes ds := by
    by_cases hlt : t.len + 4 < t.buf.length
    · rw [if_pos hlt] at hu
      rw [hu]
      exact ⟨rfl, hlt, hinit.1.buf_eq⟩
    · rw [if_neg hlt] at hu
      rw [hu]
      refine ⟨rfl, ?_, ?_⟩
      · show t.len + 4 < (t.buf ++ List.replicate t.buf.length 0).length
        rw [length_append, length_replicate]
        omega
      · show (t.buf ++ List.replicate t.buf.length 0).take t.len = idBytes ds
        rw [take_append_of_le_length (by omega), hinit.1.buf_eq]
  have happend : s.appendSeqBuf d =
      { u with lastSeqBufPos := u.len, buf := storeAt u.buf u.len d, len := u.len + 4 } := by
    rw [hu, ht]
    rfl
  have hlen := hinit.1.len_eq
  rw [happend]
  refine ⟨?_, ?_, fun _ => rfl, fun _ => ?_⟩
  · show u.len + 4 = 4 * (ds ++ [d]).length
    rw [length_append, length_singleton]
    omega
  · show (storeAt u.buf u.len d).take (u.len + 4) = idBytes (ds ++ [d])
    rw [take_storeAt (by omega), hroom.2.2, idBytes_append, idBytes_singleton]
  · show u.len + 4 < (storeAt u.buf u.len d).length ∧ 4 ≤ (storeAt u.buf u.len d).length
    rw [length_storeAt (by omega)]
    omega

theorem HoldsBytes.addDigits (h : s.HoldsBytes ds) (d : ℕ) : (s.addDigits d).HoldsBytes ds := by
  unfold ObLobSeqId.addDigits
  dsimp only
  split_ifs <;> exact ⟨h.len_eq, h.buf_eq, h.last_eq, h.room⟩

theorem HoldsDigits.appendSeqBuf (h : s.HoldsDigits ds) (d : ℕ) :
    (s.appendSeqBuf d).HoldsDigits ds := by
  unfold ObLobSeqId.appendSeqBuf
  dsimp only
  split_ifs <;> exact ⟨h.digLen_eq, h.digits_eq⟩

/-- A new digit goes into both. -/
theorem Holds.add (h : s.Holds ds) (d : ℕ) : ((s.addDigits d).appendSeqBuf d).Holds (ds ++ [d]) :=
  { toHoldsDigits := (h.toHoldsDigits.addDigits d).appendSeqBuf d
    toHoldsBytes := (h.toHoldsBytes.addDigits d).appendSeqBuf d }

theorem take_set_pred {l : List ℕ} {n : ℕ} (hn : 0 < n) (h : n ≤ l.length) (d : ℕ) :
    (l.set (n - 1) d).take n = (l.take n).dropLast ++ [d] := by
  obtain ⟨k, rfl⟩ := Nat.exists_eq_succ_of_ne_zero hn.ne'
  rw [Nat.succ_eq_add_one, Nat.add_sub_cancel, take_set_succ h,
    take_succ_eq_append_getElem h, dropLast_concat]

/-- The last digit is replaced in both. -/
theorem Holds.replace (h : s.Holds ds) (hne : ds ≠ []) (d : ℕ) :
    ∃ t, s.replaceSeqBufLastNode d = .ok t ∧ t.Holds (ds.dropLast ++ [d]) ∧
      t.parsed = s.parsed := by
  have hpos := length_pos_iff.mpr hne
  have hlast := h.last_eq hne
  have hlen := h.len_eq
  have hdiglen := h.digLen_eq
  have hbuf : s.buf ≠ [] := by
    intro hnil
    have hbytes := congrArg List.length h.buf_eq
    rw [hnil, take_nil, length_nil, length_idBytes] at hbytes
    omega
  obtain ⟨hroom, hcap⟩ := h.room hbuf
  have hdrop : ds.dropLast.length + 1 = ds.length := by
    rw [length_dropLast]
    omega
  have hbytes : s.buf.take s.lastSeqBufPos = idBytes ds.dropLast := by
    have hsplit : idBytes ds = idBytes ds.dropLast ++ store32be (ds.getLast hne) := by
      rw [← idBytes_singleton, ← idBytes_append, dropLast_append_getLast]
    have htake := congrArg (List.take s.lastSeqBufPos) h.buf_eq
    rw [take_take, Nat.min_eq_left (by omega), hsplit] at htake
    rw [htake, take_left' (by rw [length_idBytes]; omega)]
  unfold replaceSeqBufLastNode
  have hkeep : (if s.lastSeqBufPos + 4 < s.buf.length then s else s.extendSeqBuf) = s :=
    if_pos (by omega)
  simp only [hkeep]
  rw [if_neg (by omega)]
  refine ⟨_, rfl, ⟨⟨?_, ?_⟩, ⟨?_, ?_, fun _ => rfl, fun _ => ?_⟩⟩, rfl⟩
  · show s.digLen = (ds.dropLast ++ [d]).length
    rw [length_append, length_singleton]
    omega
  · show (s.digits.set (s.digLen - 1) d).take s.digLen = _
    rw [take_set_pred (by omega) h.le, h.digits_eq]
  · show s.lastSeqBufPos + 4 = 4 * (ds.dropLast ++ [d]).length
    rw [length_append, length_singleton]
    omega
  · show (storeAt s.buf s.lastSeqBufPos d).take (s.lastSeqBufPos + 4) = _
    rw [take_storeAt (by omega), hbytes, idBytes_append, idBytes_singleton]
  · show s.lastSeqBufPos + 4 < (storeAt s.buf s.lastSeqBufPos d).length ∧ _
    rw [length_storeAt (by omega)]
    omega

/-! ### Parsing -/

/-- A new object for the id with the digits `ds`. -/
def ofDigits (ds : List ℕ) : ObLobSeqId := { seqId := idBytes ds }

theorem seqId_addDigits (s : ObLobSeqId) (d : ℕ) : (s.addDigits d).seqId = s.seqId := by
  unfold addDigits
  dsimp only
  split_ifs <;> rfl

theorem seqId_appendSeqBuf (s : ObLobSeqId) (d : ℕ) : (s.appendSeqBuf d).seqId = s.seqId := by
  unfold appendSeqBuf
  dsimp only
  split_ifs <;> rfl

/-- The loop goes on from the digits `ds` with the digits `es`. -/
theorem Holds.parseFrom (h : s.Holds ds) (hseq : s.seqId = idBytes (ds ++ es)) (he : IsDigits es) :
    (ObLobSeqId.parseFrom ds.length es.length s).Holds (ds ++ es) := by
  induction es generalizing s ds with
  | nil => simpa [ObLobSeqId.parseFrom] using h
  | cons e es ih =>
    have hload : load32be s.seqId (4 * ds.length) = e := by
      rw [hseq, idBytes_append, ← singleton_append, idBytes_append, idBytes_singleton,
        ← length_idBytes]
      exact load32be_append _ _ (he e mem_cons_self)
    rw [length_cons, ObLobSeqId.parseFrom, hload]
    have hstep := ih (h.add e) (by
      rw [seqId_appendSeqBuf, seqId_addDigits, hseq, append_assoc, singleton_append])
      fun d hd => he d (mem_cons_of_mem _ hd)
    rw [length_append, length_singleton, append_assoc,
      singleton_append] at hstep
    exact hstep

/-- The object stands for the digits `ds`: it is new, or it holds them. -/
def Current (s : ObLobSeqId) (ds : List ℕ) : Prop :=
  IsDigits ds ∧ (s = ofDigits ds ∨ s.parsed = true ∧ s.Holds ds)

theorem Current.ensureParsed (h : s.Current ds) :
    ∃ t, s.ensureParsed = .ok t ∧ t.parsed = true ∧ t.Holds ds := by
  obtain ⟨hdigits, rfl | ⟨hparsed, hholds⟩⟩ := h
  · have hnew : (ofDigits ds).Holds [] :=
      { digLen_eq := rfl, digits_eq := rfl, len_eq := rfl, buf_eq := rfl
        last_eq := fun hne => absurd rfl hne, room := fun hne => absurd rfl hne }
    have hparse : (ObLobSeqId.parseFrom 0 ds.length (ofDigits ds)).Holds ([] ++ ds) :=
      hnew.parseFrom rfl hdigits
    have hlen : (ofDigits ds).seqId.length = 4 * ds.length := length_idBytes ds
    refine ⟨{ ObLobSeqId.parseFrom 0 ds.length (ofDigits ds) with parsed := true }, ?_, rfl, ?_⟩
    · unfold ObLobSeqId.ensureParsed parse
      rw [if_neg (by simp [ofDigits]), hlen, if_neg (by omega),
        Nat.mul_div_cancel_left _ (by decide)]
    · exact ⟨⟨hparse.digLen_eq, hparse.digits_eq⟩,
        ⟨hparse.len_eq, hparse.buf_eq, hparse.last_eq, hparse.room⟩⟩
  · refine ⟨s, ?_, hparsed, hholds⟩
    unfold ObLobSeqId.ensureParsed
    rw [if_pos hparsed]

/-! ### Comparing -/

/-- The comparison of two arrays that hold `ds` and `es`. -/
theorem compareDigits_append (ds es xs ys : List ℕ) :
    (let c := compareDigits (ds ++ xs) (es ++ ys) (min ds.length es.length)
      if c = 0 then if ds.length > es.length then 1 else if ds.length < es.length then -1 else 0
      else c) = -1 ↔ ds < es := by
  induction ds generalizing es with
  | nil =>
    cases es with
    | nil => simp [compareDigits]
    | cons e es => simp [compareDigits]
  | cons d ds ih =>
    cases es with
    | nil => simp [compareDigits]
    | cons e es =>
      have hmin : min (d :: ds).length (e :: es).length = min ds.length es.length + 1 := by
        rw [length_cons, length_cons]
        omega
      rw [hmin, cons_append, cons_append, compareDigits, cons_lt_cons_iff, ← ih es,
        length_cons, length_cons]
      rcases lt_trichotomy d e with hlt | rfl | hgt
      · simp [hlt, hlt.not_gt]
      · simp
      · simp [hgt, hgt.ne', hgt.not_gt]

theorem compare_eq_iff (hs : s.HoldsDigits ds) (ht : t.HoldsDigits es) :
    compare s t = -1 ↔ ds < es := by
  obtain ⟨xs, hxs⟩ := hs.exists_append
  obtain ⟨ys, hys⟩ := ht.exists_append
  have hmin : (if ds.length > es.length then es.length else ds.length) =
      min ds.length es.length := by
    split_ifs <;> omega
  rw [← compareDigits_append ds es xs ys]
  unfold compare
  rw [hs.digLen_eq, ht.digLen_eq, hxs, hys]
  simp only [hmin]

/-! ### The digits that are generated -/

/-- The digits with a step added to the last one. -/
def stepped (ds : List ℕ) : List ℕ :=
  ds.dropLast ++ [ds.getD (ds.length - 1) 0 + lobSeqStepLen]

/-- There is a last digit, and the step fits into it. -/
def CanStep (ds : List ℕ) : Prop :=
  ds ≠ [] ∧ ds.getD (ds.length - 1) 0 + lobSeqStepLen ≤ lobSeqStepMax

instance (ds : List ℕ) : Decidable (CanStep ds) := by
  unfold CanStep
  infer_instance

/-- The digits after `ds`. -/
def nextDigits (ds : List ℕ) : List ℕ := if CanStep ds then stepped ds else ds ++ [lobSeqIdMin]

/-- The digits that are generated between `ds` and `es`. -/
def nextDigitsBefore (ds es : List ℕ) : List ℕ :=
  if CanStep ds ∧ stepped ds < es then stepped ds else ds ++ [lobSeqIdMin]

theorem eq_dropLast_append (hne : ds ≠ []) : ds = ds.dropLast ++ [ds.getD (ds.length - 1) 0] := by
  have hpos := length_pos_iff.mpr hne
  conv_lhs => rw [← dropLast_append_getLast hne]
  rw [getLast_eq_getElem, getD_eq_getElem _ _ (by omega)]

theorem lt_stepped (hne : ds ≠ []) : ds < stepped ds := by
  conv_lhs => rw [eq_dropLast_append hne]
  exact append_singleton_lt _ (Nat.lt_add_of_pos_right (by decide))

theorem isDigits_stepped (h : IsDigits ds) (hstep : CanStep ds) : IsDigits (stepped ds) := by
  intro d hd
  rcases mem_append.mp hd with hd | hd
  · exact h d (dropLast_subset ds hd)
  · rw [mem_singleton.mp hd]
    have hle := hstep.2
    unfold lobSeqStepMax at hle
    omega

theorem isDigits_expanded (h : IsDigits ds) : IsDigits (ds ++ [lobSeqIdMin]) := by
  intro d hd
  rcases mem_append.mp hd with hd | hd
  · exact h d hd
  · rw [mem_singleton.mp hd]
    decide

theorem isDigits_nextDigits (h : IsDigits ds) : IsDigits (nextDigits ds) := by
  unfold nextDigits
  split_ifs with hstep
  · exact isDigits_stepped h hstep
  · exact isDigits_expanded h

theorem lt_nextDigits (ds : List ℕ) : ds < nextDigits ds := by
  unfold nextDigits
  split_ifs with hstep
  · exact lt_stepped hstep.1
  · exact lt_append_of_ne_nil ds (cons_ne_nil _ _)

theorem Holds.getD_last (h : s.Holds ds) (hne : ds ≠ []) :
    s.digits.getD (s.digLen - 1) 0 = ds.getD (ds.length - 1) 0 := by
  have hpos := length_pos_iff.mpr hne
  obtain ⟨xs, hxs⟩ := h.toHoldsDigits.exists_append
  rw [hxs, h.digLen_eq, getD_append _ _ _ _ (by omega)]

theorem parsed_expand (s : ObLobSeqId) : s.expand.parsed = s.parsed := by
  unfold expand appendSeqBuf addDigits
  dsimp only
  split_ifs <;> rfl

theorem Holds.expand (h : s.Holds ds) : s.expand.Holds (ds ++ [lobSeqIdMin]) := h.add _

theorem Holds.bufId (h : s.Holds ds) : s.bufId = idBytes ds := h.buf_eq

theorem Holds.empty_iff (h : s.Holds ds) : s.empty = true ↔ ds = [] := by
  rw [empty, decide_eq_true_eq, h.digLen_eq, length_eq_zero_iff]

/-- A last digit that is replaced by the next one. -/
theorem Holds.step (h : s.Holds ds) (hne : ds ≠ []) :
    ∃ t, s.replaceSeqBufLastNode (s.digits.getD (s.digLen - 1) 0 + lobSeqStepLen) = .ok t ∧
      t.Holds (stepped ds) ∧ t.parsed = s.parsed := by
  rw [h.getD_last hne]
  exact h.replace hne _

/-- `get_next_seq_id` generates the id of `nextDigits`. -/
theorem getNextSeqId_spec (h : s.Current ds) :
    ∃ t, s.getNextSeqId = .ok (t, idBytes (nextDigits ds)) ∧ t.Current (nextDigits ds) := by
  obtain ⟨u, hu, hparsed, hholds⟩ := h.ensureParsed
  have hexpand := hholds.expand
  have hnew : u.expand.parsed = true := by rw [parsed_expand, hparsed]
  have hdigits := isDigits_nextDigits h.1
  unfold getNextSeqId
  rw [hu]
  simp only [bind, Except.bind, pure, Except.pure]
  by_cases hne : ds = []
  · have hnext : nextDigits ds = ds ++ [lobSeqIdMin] := if_neg fun hstep => hstep.1 hne
    rw [hnext] at hdigits ⊢
    rw [if_pos (hholds.empty_iff.mpr hne), hexpand.bufId]
    exact ⟨_, rfl, hdigits, .inr ⟨hnew, hexpand⟩⟩
  · rw [if_neg fun hempty => hne (hholds.empty_iff.mp hempty)]
    by_cases hmax : u.digits.getD (u.digLen - 1) 0 + lobSeqStepLen > lobSeqStepMax
    · have hnext : nextDigits ds = ds ++ [lobSeqIdMin] := by
        rw [hholds.getD_last hne] at hmax
        exact if_neg fun hstep => absurd hstep.2 (by omega)
      rw [hnext] at hdigits ⊢
      rw [if_pos hmax, hexpand.bufId]
      exact ⟨_, rfl, hdigits, .inr ⟨hnew, hexpand⟩⟩
    · have hnext : nextDigits ds = stepped ds := by
        rw [hholds.getD_last hne] at hmax
        exact if_pos ⟨hne, by omega⟩
      rw [hnext] at hdigits ⊢
      obtain ⟨t, ht, hstepped, hsame⟩ := hholds.step hne
      rw [if_neg hmax, ht]
      exact ⟨t, by rw [← hstepped.bufId], hdigits, .inr ⟨by rw [hsame, hparsed], hstepped⟩⟩

theorem getNextSeqIdBefore_of_not_lt (hs : s.Current ds) (ht : t.Current es) (h : ¬ ds < es) :
    s.getNextSeqIdBefore t = .error .errUnexpected := by
  obtain ⟨u, hu, -, hholds⟩ := hs.ensureParsed
  obtain ⟨v, hv, -, hholds'⟩ := ht.ensureParsed
  have hcmp : compare u v ≠ -1 := fun hcmp =>
    h ((compare_eq_iff hholds.toHoldsDigits hholds'.toHoldsDigits).mp hcmp)
  unfold getNextSeqIdBefore
  rw [hu, hv]
  simp only [bind, Except.bind]
  by_cases hempty : v.empty = true
  · rw [if_pos hempty]
  · rw [if_neg hempty, if_pos hcmp]

/-- `get_next_seq_id` with an end generates the id of `nextDigitsBefore`, and the end stays. -/
theorem getNextSeqIdBefore_spec (hs : s.Current ds) (ht : t.Current es) (hlt : ds < es) :
    ∃ u v, s.getNextSeqIdBefore t = .ok (u, v, idBytes (nextDigitsBefore ds es)) ∧
      u.Current (nextDigitsBefore ds es) ∧ v.Current es := by
  obtain ⟨u, hu, hparsed, hholds⟩ := hs.ensureParsed
  obtain ⟨v, hv, hparsed', hholds'⟩ := ht.ensureParsed
  have hcur : v.Current es := ⟨ht.1, .inr ⟨hparsed', hholds'⟩⟩
  have hexpand := hholds.expand
  have hnew : u.expand.parsed = true := by rw [parsed_expand, hparsed]
  have hcmp : compare u v = -1 :=
    (compare_eq_iff hholds.toHoldsDigits hholds'.toHoldsDigits).mpr hlt
  have hfin : v.empty = false := by
    rw [Bool.eq_false_iff, Ne, hholds'.empty_iff]
    rintro rfl
    exact not_lt_nil _ hlt
  unfold getNextSeqIdBefore
  rw [hu, hv]
  simp only [bind, Except.bind, pure, Except.pure, hcmp, hfin, ne_eq, not_true_eq_false, if_false,
    Bool.false_eq_true]
  by_cases hne : ds = []
  · have hnext : nextDigitsBefore ds es = ds ++ [lobSeqIdMin] := if_neg fun hstep => hstep.1.1 hne
    rw [hnext, if_pos (hholds.empty_iff.mpr hne), hexpand.bufId]
    exact ⟨_, _, rfl, ⟨isDigits_expanded hs.1, .inr ⟨hnew, hexpand⟩⟩, hcur⟩
  · rw [if_neg fun hempty => hne (hholds.empty_iff.mp hempty)]
    have hset : (u.setLastDigit (u.digits.getD (u.digLen - 1) 0 + lobSeqStepLen)).HoldsDigits
        (stepped ds) := by
      have hpos := length_pos_iff.mpr hne
      have hlen := hholds.digLen_eq
      refine ⟨?_, ?_⟩
      · show u.digLen = (stepped ds).length
        rw [stepped, length_append, length_dropLast, length_singleton]
        omega
      · show (u.digits.set (u.digLen - 1) _).take u.digLen = stepped ds
        rw [take_set_pred (by omega) hholds.le, hholds.digits_eq, hholds.getD_last hne, stepped]
    have hcmp' := compare_eq_iff hset hholds'.toHoldsDigits
    by_cases hstep : CanStep ds ∧ stepped ds < es
    · have hmax : ¬ u.digits.getD (u.digLen - 1) 0 + lobSeqStepLen > lobSeqStepMax := by
        rw [hholds.getD_last hne]
        have := hstep.1.2
        omega
      have hnext : nextDigitsBefore ds es = stepped ds := if_pos hstep
      obtain ⟨w, hw, hstepped, hsame⟩ := hholds.step hne
      rw [hnext, if_neg hmax, hcmp'.mpr hstep.2, if_neg (by simp), hw]
      exact ⟨w, v, by rw [← hstepped.bufId], ⟨isDigits_stepped hs.1 hstep.1,
        .inr ⟨by rw [hsame, hparsed], hstepped⟩⟩, hcur⟩
    · have hnext : nextDigitsBefore ds es = ds ++ [lobSeqIdMin] := if_neg hstep
      have hneed : (if u.digits.getD (u.digLen - 1) 0 + lobSeqStepLen > lobSeqStepMax then true
          else decide ¬ compare
            (u.setLastDigit (u.digits.getD (u.digLen - 1) 0 + lobSeqStepLen)) v = -1) = true := by
        split_ifs with hmax
        · rfl
        · rw [decide_eq_true_eq, hcmp']
          rw [hholds.getD_last hne] at hmax
          exact fun hless => hstep ⟨⟨hne, by omega⟩, hless⟩
      rw [hneed, if_pos rfl, hnext, hexpand.bufId]
      exact ⟨_, _, rfl, ⟨isDigits_expanded hs.1, .inr ⟨hnew, hexpand⟩⟩, hcur⟩

/-! ### Repeated calls -/

theorem nextSeqIds_eq (h : s.Current ds) (n : ℕ) :
    s.nextSeqIds n = .ok ((List.range n).map fun i => idBytes (nextDigits^[i + 1] ds)) := by
  induction n generalizing s ds with
  | zero => rfl
  | succ n ih =>
    obtain ⟨t, ht, hcur⟩ := getNextSeqId_spec h
    rw [nextSeqIds, ht]
    simp only [bind, Except.bind, ih hcur, pure, Except.pure]
    rw [range_succ_eq_map, map_cons, map_map]
    rfl

theorem isDigits_iterate (h : IsDigits ds) (n : ℕ) : IsDigits (nextDigits^[n] ds) := by
  induction n with
  | zero => exact h
  | succ n ih =>
    rw [Function.iterate_succ_apply']
    exact isDigits_nextDigits ih

theorem strictMono_iterate (ds : List ℕ) : StrictMono fun n => nextDigits^[n] ds := by
  apply strictMono_nat_of_lt_succ
  intro n
  rw [Function.iterate_succ_apply']
  exact lt_nextDigits _

/-- The ids are in byte order, and behind the first one. -/
theorem pairwise_nextSeqIds (h : IsDigits ds) (n : ℕ) :
    (idBytes ds :: (List.range n).map fun i => idBytes (nextDigits^[i + 1] ds)).Pairwise
      (· < ·) := by
  have hcons : idBytes ds :: ((List.range n).map fun i => idBytes (nextDigits^[i + 1] ds)) =
      (List.range (n + 1)).map fun i => idBytes (nextDigits^[i] ds) := by
    rw [range_succ_eq_map, map_cons, map_map]
    rfl
  rw [hcons, pairwise_map]
  refine List.Pairwise.imp ?_ pairwise_lt_range
  intro i j hij
  rw [idBytes_lt_iff (isDigits_iterate h i) (isDigits_iterate h j)]
  exact strictMono_iterate ds hij

/-- From the empty id on, the ids are the multiples of the step. -/
theorem iterate_nil {i : ℕ} (h : (i + 1) * lobSeqStepLen ≤ lobSeqStepMax) :
    nextDigits^[i + 1] [] = [(i + 1) * lobSeqStepLen] := by
  induction i with
  | zero => rfl
  | succ i ih =>
    have hstep : (i + 1 + 1) * lobSeqStepLen = (i + 1) * lobSeqStepLen + lobSeqStepLen := by
      rw [Nat.succ_mul]
    rw [Function.iterate_succ_apply', ih (by omega), hstep]
    exact if_pos ⟨cons_ne_nil _ _, by rw [hstep] at h; exact h⟩

theorem getSeqIdAt_eq {i : ℕ} (h : (i + 1) * lobSeqStepLen ≤ lobSeqStepMax) {buf : List ℕ}
    (hbuf : buf.length = 4) : getSeqIdAt i buf = .ok (store32be ((i + 1) * lobSeqStepLen)) := by
  have hcast : ((i : ℤ) + 1) * (lobSeqStepLen : ℤ) = (((i + 1) * lobSeqStepLen : ℕ) : ℤ) := by
    push_cast
    rfl
  have hmod : ((((i + 1) * lobSeqStepLen : ℕ) : ℤ) % 2 ^ 32).toNat = (i + 1) * lobSeqStepLen := by
    unfold lobSeqStepMax at h
    omega
  unfold getSeqIdAt
  rw [if_neg (by omega), hcast, if_neg (by omega), hmod, storeAt, take_zero, nil_append,
    drop_of_length_le (by omega), append_nil]

/-! ### Objects that calls have led to -/

theorem idBytes_injective (hd : IsDigits ds) (he : IsDigits es) (h : idBytes ds = idBytes es) :
    ds = es := by
  rcases lt_trichotomy ds es with hlt | heq | hgt
  · exact absurd h ((idBytes_lt_iff hd he).mpr hlt).ne
  · exact heq
  · exact absurd h ((idBytes_lt_iff he hd).mpr hgt).ne'

/-- An object, and the digits of the id it has been made for or has returned last. -/
inductive Reachable : ObLobSeqId → List ℕ → Prop
  | new {ds : List ℕ} (hd : IsDigits ds) : Reachable (ofDigits ds) ds
  | next {s s' : ObLobSeqId} {ds ds' : List ℕ} (hs : Reachable s ds) (hd : IsDigits ds')
      (h : s.getNextSeqId = .ok (s', idBytes ds')) : Reachable s' ds'
  | before {s s' t t' : ObLobSeqId} {ds ds' es : List ℕ} (hs : Reachable s ds)
      (ht : Reachable t es) (hd : IsDigits ds')
      (h : s.getNextSeqIdBefore t = .ok (s', t', idBytes ds')) : Reachable s' ds'
  | bound {s s' t t' : ObLobSeqId} {ds ds' es : List ℕ} (hs : Reachable s ds)
      (ht : Reachable t es) (hd : IsDigits ds')
      (h : s.getNextSeqIdBefore t = .ok (s', t', idBytes ds')) : Reachable t' es

theorem Current.before (hs : s.Current ds) (ht : t.Current es) {s' t' : ObLobSeqId} {ds' : List ℕ}
    (hd : IsDigits ds') (h : s.getNextSeqIdBefore t = .ok (s', t', idBytes ds')) :
    s'.Current ds' ∧ t'.Current es := by
  by_cases hlt : ds < es
  · obtain ⟨u, v, heq, hu, hv⟩ := getNextSeqIdBefore_spec hs ht hlt
    rw [heq, Except.ok.injEq, Prod.mk.injEq, Prod.mk.injEq] at h
    obtain ⟨rfl, rfl, hid⟩ := h
    rw [← idBytes_injective hu.1 hd hid]
    exact ⟨hu, hv⟩
  · rw [getNextSeqIdBefore_of_not_lt hs ht hlt] at h
    exact nomatch h

/-- Every such object holds the digits. -/
theorem Reachable.current (h : Reachable s ds) : s.Current ds := by
  induction h with
  | new hd => exact ⟨hd, .inl rfl⟩
  | next _ hd h ih =>
    obtain ⟨u, heq, hu⟩ := getNextSeqId_spec ih
    rw [heq, Except.ok.injEq, Prod.mk.injEq] at h
    obtain ⟨rfl, hid⟩ := h
    rw [← idBytes_injective hu.1 hd hid]
    exact hu
  | before _ _ hd h ihs iht => exact (ihs.before iht hd h).1
  | bound _ _ hd h ihs iht => exact (ihs.before iht hd h).2

/-- A call that should generate an id between two: if it succeeds the id is there, and it succeeds
if there is such an id. -/
def GeneratesBetween (s t : ObLobSeqId) (ds es : List ℕ) : Prop :=
  (∀ u v id, s.getNextSeqIdBefore t = .ok (u, v, id) → idBytes ds < id ∧ id < idBytes es) ∧
    ((∃ cs, IsDigits cs ∧ ds < cs ∧ cs < es) → ∃ r, s.getNextSeqIdBefore t = .ok r)

theorem nextDigitsBefore_between (hlt : ds < es) :
    ds < nextDigitsBefore ds es ∧
      (nextDigitsBefore ds es < es ↔ ∀ fs, es = ds ++ fs → [lobSeqIdMin] < fs) := by
  unfold nextDigitsBefore
  split_ifs with hstep
  · refine ⟨lt_stepped hstep.1.1, fun _ fs hfs => ?_, fun _ => hstep.2⟩
    -- the end cannot go on from digits that a step has left behind
    have hle := hstep.2
    rw [hfs, stepped] at hle
    conv_rhs at hle => rw [eq_dropLast_append hstep.1.1, append_assoc, singleton_append]
    rw [append_lt_append_iff, cons_lt_cons_iff] at hle
    have hpos : 0 < lobSeqStepLen := by decide
    omega
  · refine ⟨lt_append_of_ne_nil ds (cons_ne_nil _ _), fun h fs hfs => ?_, fun h => ?_⟩
    · rw [hfs] at h
      exact (append_lt_append_iff ds _ _).mp h
    · by_cases hprefix : ds <+: es
      · obtain ⟨fs, hfs⟩ := hprefix
        rw [← hfs]
        exact (append_lt_append_iff ds _ _).mpr (h fs hfs.symm)
      · exact append_lt_of_lt hlt hprefix _

theorem generatesBetween_iff (hs : s.Current ds) (ht : t.Current es) (hlt : ds < es) :
    GeneratesBetween s t ds es ↔ ∀ fs, es = ds ++ fs → [lobSeqIdMin] < fs := by
  obtain ⟨u, v, heq, hu, -⟩ := getNextSeqIdBefore_spec hs ht hlt
  obtain ⟨hlow, hhigh⟩ := nextDigitsBefore_between hlt
  rw [← hhigh, ← idBytes_lt_iff hu.1 ht.1]
  constructor
  · exact fun h => (h.1 u v _ heq).2
  · refine fun h => ⟨?_, fun _ => ⟨_, heq⟩⟩
    intro u' v' id hid
    rw [heq, Except.ok.injEq, Prod.mk.injEq, Prod.mk.injEq] at hid
    obtain ⟨-, -, rfl⟩ := hid
    exact ⟨(idBytes_lt_iff hs.1 hu.1).mpr hlow, h⟩

/-- **Ids of LOB pieces** that are generated one after the other are in byte order, and from the
empty id on they are those of the index. One that is generated before an end is between the two
exactly if the end does not go on from the current id with a digit that is too small. -/
theorem seqIds_ordered (s t : ObLobSeqId) (cs ds es : List ℕ) :
    (IsDigits cs → ∀ n, ∃ ids, (ofDigits cs).nextSeqIds n = .ok ids ∧ ids.length = n ∧
      (idBytes cs :: ids).Pairwise (· < ·) ∧
      (cs = [] → ∀ i < n, (i + 1) * 256 < 2 ^ 32 → ∀ buf : List ℕ, buf.length = 4 →
        getSeqIdAt i buf = .ok (ids.getD i []))) ∧
    (Reachable s ds → Reachable t es → ds < es →
      (GeneratesBetween s t ds es ↔ ∀ fs, es = ds ++ fs → [lobSeqIdMin] < fs)) := by
  constructor
  · intro hd n
    refine ⟨_, nextSeqIds_eq ⟨hd, .inl rfl⟩ n, by simp, pairwise_nextSeqIds hd n, ?_⟩
    rintro rfl i hi hfits buf hbuf
    have hle : (i + 1) * lobSeqStepLen ≤ lobSeqStepMax := by
      unfold lobSeqStepLen lobSeqStepMax
      omega
    rw [getSeqIdAt_eq hle hbuf, getD_eq_getElem _ _ (by simpa using hi), getElem_map,
      getElem_range, iterate_nil hle, idBytes_singleton]
  · intro hs ht hlt
    exact generatesBetween_iff hs.current ht.current hlt

theorem seqIds_ordered_instance :
    (∃ ids, (ofDigits [256]).nextSeqIds 3 = .ok ids ∧ ids.length = 3 ∧
      (idBytes [256] :: ids).Pairwise (· < ·)) ∧
    (∃ ids, (ofDigits []).nextSeqIds 3 = .ok ids ∧
      getSeqIdAt 2 [0, 0, 0, 0] = .ok (ids.getD 2 [])) ∧
    ([256] : List ℕ) < [512] ∧ GeneratesBetween (ofDigits [256]) (ofDigits [512]) [256] [512] := by
  have h (cs) := seqIds_ordered (ofDigits [256]) (ofDigits [512]) cs [256] [512]
  obtain ⟨ids, hids, hlen, hord, -⟩ := (h [256]).1 (by decide) 3
  obtain ⟨ids', hids', -, -, hindex⟩ := (h []).1 (by decide) 3
  refine ⟨⟨ids, hids, hlen, hord⟩,
    ⟨ids', hids', hindex rfl 2 (by decide) (by decide) _ rfl⟩, by decide, ?_⟩
  refine ((h []).2 (.new (by decide)) (.new (by decide)) (by decide)).mpr fun fs hfs => ?_
  simp at hfs

/-- Between 256 and 256, 256 an id exists, but none is generated. -/
theorem not_generatesBetween :
    Reachable (ofDigits [256]) [256] ∧ Reachable (ofDigits [256, 256]) [256, 256] ∧
      ([256] : List ℕ) < [256, 256] ∧ (∃ cs, IsDigits cs ∧ [256] < cs ∧ cs < [256, 256]) ∧
      ¬ GeneratesBetween (ofDigits [256]) (ofDigits [256, 256]) [256] [256, 256] := by
  have hs : Reachable (ofDigits [256]) [256] := .new (by decide)
  have ht : Reachable (ofDigits [256, 256]) [256, 256] := .new (by decide)
  refine ⟨hs, ht, by decide, ⟨[256, 128], by decide, by decide, by decide⟩, fun h => ?_⟩
  rw [generatesBetween_iff hs.current ht.current (by decide)] at h
  exact absurd (h [256] rfl) (by decide)

end ObLobSeqId

end Andl.Lob
