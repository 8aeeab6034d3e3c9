import Andl.Lib.Ring
import Andl.Lib.Run
import Andl.Palf.SlidingWindow

/-!
# Slots of the sliding window are reclaimed safely
-/

namespace Andl.Palf.FixedSlidingWindow

open List Function

variable {α : Type}

/-! ### Slots -/

section Slots

variable {w : FixedSlidingWindow α} {x y : Nat}

section

variable (hpow : w.size.isPowerOfTwo)
include hpow

theorem calcIdx_eq (x : Nat) : w.calcIdx x = Ring.slot w.size 0 x := by
  obtain ⟨k, hk⟩ := hpow
  rw [calcIdx, hk, Nat.and_two_pow_sub_one_eq_mod, Ring.slot, Nat.sub_zero]

/-- Ids of one round have different slots. -/
theorem calcIdx_ne (hlt : x < y) (h : y < x + w.size) : w.calcIdx x ≠ w.calcIdx y := by
  have hne := Ring.slot_ne (N := w.size) (Nat.zero_le x) (i := y - x) (by omega) (by omega)
  rw [show x + (y - x) = y by omega] at hne
  rw [calcIdx_eq hpow, calcIdx_eq hpow]
  exact hne.symm

theorem calcIdx_inj (hx : x < y + w.size) (hy : y < x + w.size)
    (h : w.calcIdx x = w.calcIdx y) : x = y := by
  rcases Nat.lt_trichotomy x y with hlt | heq | hgt
  · exact absurd h (calcIdx_ne hpow hlt hy)
  · exact heq
  · exact absurd h.symm (calcIdx_ne hpow hgt hx)

/-- One round later it is the same slot. -/
theorem calcIdx_add_size (x : Nat) : w.calcIdx (x + w.size) = w.calcIdx x := by
  rw [calcIdx_eq hpow, calcIdx_eq hpow, Ring.slot, Ring.slot, Nat.sub_zero, Nat.sub_zero,
    Nat.add_mod_right]

/-- The slot behind the slot of an id is that of the next id. -/
theorem calcIdx_calcIdx_succ (x : Nat) : w.calcIdx (w.calcIdx x + 1) = w.calcIdx (x + 1) := by
  simp only [calcIdx_eq hpow, Ring.slot, Nat.sub_zero]
  exact Nat.mod_add_mod x w.size 1

/-- Every slot belongs to an id of the round that starts at `y`. -/
theorem exists_calcIdx_eq (h : y ≤ x) : w.calcIdx (y + (x - y) % w.size) = w.calcIdx x := by
  simp only [calcIdx_eq hpow, Ring.slot, Nat.sub_zero]
  rw [Nat.add_mod_mod, Nat.add_sub_cancel' h]

end

theorem ref_setData (w : FixedSlidingWindow α) (idx i : Nat) (data : α) :
    ((w.setData idx data).array i).ref = (w.array i).ref := by
  rcases eq_or_ne i idx with rfl | hne
  · simp [setData]
  · simp [setData, hne]

theorem ref_setRef_self (w : FixedSlidingWindow α) (idx : Nat) (ref : Int) :
    ((w.setRef idx ref).array idx).ref = ref := by
  simp [setRef]

theorem ref_setRef_of_ne (w : FixedSlidingWindow α) {idx i : Nat} (ref : Int) (h : i ≠ idx) :
    ((w.setRef idx ref).array i).ref = (w.array i).ref := by
  simp [setRef, h]

end Slots

/-! ### The order of the callbacks -/

/-- The beginning of the window as the events show it: a call of `sliding_cb` is for the first id of
the window, which leaves the window if the call succeeds, and a move only goes forward. -/
def slider : Machine Nat SwEvent where
  ok b
    | .slidingCb sn _ => sn = b
    | .reset _ => True
    | .resetBeginSn sn => b ≤ sn
  next b
    | .slidingCb sn succ => if succ then sn + 1 else sn
    | .reset _ => b
    | .resetBeginSn sn => sn

/-- The calls of `sliding_cb`: the id, and whether the call succeeded. -/
def cbCalls (es : List SwEvent) : List (Nat × Bool) :=
  es.filterMap fun
    | .slidingCb sn succ => some (sn, succ)
    | _ => none

/-- What the calls of a run are ordered by: the ids do not decrease, and no call for an id follows
its successful one. -/
def CallOrder (c d : Nat × Bool) : Prop := c.1 ≤ d.1 ∧ (c.2 = true → c.1 < d.1)

/-- The moves of a window that begins at `b`, each with the beginning before and after it. -/
def moves : Nat → List SwEvent → List (Nat × Nat)
  | _, [] => []
  | b, .resetBeginSn sn :: es => (b, sn) :: moves sn es
  | _, .slidingCb sn succ :: es => moves (if succ then sn + 1 else sn) es
  | b, .reset _ :: es => moves b es

/-- An id the window slid over on its way from `b`: behind its beginning, and not skipped by a move.
-/
def SlidOver (b : Nat) (es : List SwEvent) (x : Nat) : Prop :=
  b ≤ x ∧ x < slider.run b es ∧ ∀ m ∈ moves b es, ¬ (m.1 ≤ x ∧ x < m.2)

instance (b : Nat) (es : List SwEvent) (x : Nat) : Decidable (SlidOver b es x) :=
  inferInstanceAs (Decidable (_ ∧ _ ∧ _))

/-- The calls are for ids of the window's way, in `CallOrder`. -/
theorem slider_calls {b : Nat} {es : List SwEvent} (h : slider.Accepts b es) :
    (∀ c ∈ cbCalls es, b ≤ c.1) ∧ (cbCalls es).Pairwise CallOrder := by
  induction es generalizing b with
  | nil => exact ⟨fun c hc => absurd hc not_mem_nil, List.Pairwise.nil⟩
  | cons e es ih =>
    obtain ⟨hok, hacc⟩ := h
    obtain ⟨hle, hpair⟩ := ih hacc
    cases e with
    | slidingCb sn succ =>
      have hsn : sn = b := hok
      subst hsn
      -- the window is at or behind the id from here on
      have hlater : ∀ c ∈ cbCalls es, CallOrder (sn, succ) c := by
        intro c hc
        have hnext : (if succ = true then sn + 1 else sn) ≤ c.1 := hle c hc
        unfold CallOrder
        split_ifs at hnext with hsucc
        · omega
        · exact ⟨hnext, fun h => absurd h hsucc⟩
      refine ⟨fun c hc => ?_, pairwise_cons.mpr ⟨hlater, hpair⟩⟩
      rcases mem_cons.mp hc with rfl | hmem
      · exact le_rfl
      · exact (hlater c hmem).1
    | reset i => exact ⟨hle, hpair⟩
    | resetBeginSn sn =>
      have hsn : b ≤ sn := hok
      exact ⟨fun c hc => hsn.trans (hle c hc), hpair⟩

theorem slider_mono {b : Nat} {es : List SwEvent} (h : slider.Accepts b es) :
    b ≤ slider.run b es ∧ ∀ m ∈ moves b es, b ≤ m.1 := by
  induction es generalizing b with
  | nil => exact ⟨le_rfl, fun m hm => absurd hm not_mem_nil⟩
  | cons e es ih =>
    obtain ⟨hok, hacc⟩ := h
    obtain ⟨hle, hmoves⟩ := ih hacc
    cases e with
    | slidingCb sn succ =>
      have hnext : b ≤ if succ then sn + 1 else sn := by
        rw [show sn = b from hok]
        split_ifs <;> omega
      exact ⟨hnext.trans hle, fun m hm => hnext.trans (hmoves m hm)⟩
    | reset i => exact ⟨hle, hmoves⟩
    | resetBeginSn sn =>
      have hsn : b ≤ sn := hok
      refine ⟨hsn.trans hle, fun m hm => ?_⟩
      rcases mem_cons.mp hm with rfl | hm
      · exact le_rfl
      · exact hsn.trans (hmoves m hm)

/-- **Exactly one successful call** per id the window slid over, and none for any other id. -/
theorem count_cbCalls {b : Nat} {es : List SwEvent} (h : slider.Accepts b es) (x : Nat) :
    (cbCalls es).count (x, true) = if SlidOver b es x then 1 else 0 := by
  induction es generalizing b with
  | nil =>
    rw [if_neg fun hx => absurd (hx.1.trans_lt hx.2.1) (lt_irrefl b)]
    rfl
  | cons e es ih =>
    obtain ⟨hok, hacc⟩ := h
    obtain ⟨hle, hmoves⟩ := slider_mono hacc
    cases e with
    | slidingCb sn succ =>
      obtain rfl : sn = b := hok
      cases succ with
      | false => exact (count_cons_of_ne (by simp)).trans (ih hacc)
      | true =>
        have hcount := ih hacc
        change sn + 1 ≤ slider.run (sn + 1) es at hle
        by_cases hx : x = sn
        · -- the id of the call itself: no later call and no later move is for it
          subst hx
          have hnot : ¬ SlidOver (x + 1) es x := fun hs => absurd hs.1 (by omega)
          have hslid : SlidOver x (.slidingCb x true :: es) x := by
            refine ⟨le_rfl, hle, fun m hm hx => ?_⟩
            have : x + 1 ≤ m.1 := hmoves m hm
            omega
          rw [if_pos hslid]
          exact count_cons_self.trans (congrArg (· + 1) (hcount.trans (if_neg hnot)))
        · refine (count_cons_of_ne (by simpa using Ne.symm hx)).trans (hcount.trans ?_)
          refine if_congr ⟨fun hs => ⟨?_, hs.2⟩, fun hs => ⟨?_, hs.2⟩⟩ rfl rfl
          · have : sn + 1 ≤ x := hs.1
            omega
          · have := hs.1
            show sn + 1 ≤ x
            omega
    | reset i => exact ih hacc
    | resetBeginSn sn =>
      have hsn : b ≤ sn := hok
      refine (ih hacc).trans (if_congr ⟨fun hs => ?_, fun hs => ?_⟩ rfl rfl)
      · have hlo : sn ≤ x := hs.1
        refine ⟨hsn.trans hlo, hs.2.1, fun m hm => ?_⟩
        rcases mem_cons.mp hm with rfl | hm
        · omega
        · exact hs.2.2 m hm
      · have hskip := hs.2.2 (b, sn) mem_cons_self
        have := hs.1
        refine ⟨?_, hs.2.1, fun m hm => hs.2.2 m (mem_cons_of_mem _ hm)⟩
        show sn ≤ x
        omega

/-- Resets are always accepted and do not move the window. -/
theorem slider_resets {es : List SwEvent} (h : ∀ e ∈ es, ∃ i, e = .reset i) (b : Nat) :
    slider.Accepts b es ∧ slider.run b es = b := by
  induction es with
  | nil => exact ⟨trivial, rfl⟩
  | cons e es ih =>
    obtain ⟨i, rfl⟩ := h e mem_cons_self
    obtain ⟨hacc, hrun⟩ := ih fun e he => h e (mem_cons_of_mem _ he)
    exact ⟨⟨trivial, hacc⟩, hrun⟩

/-! ### The invariant -/

/-- What the window and the references held have in common, between any two assignments. -/
structure Counted (w : FixedSlidingWindow α) (held : Nat → Nat) : Prop where
  isInited : w.isInited = true
  pow : w.size.isPowerOfTwo
  size_pos : 0 < w.size
  size_le : w.size ≤ w.endSn
  begin_le : w.beginSn ≤ w.endSn
  end_le : w.endSn ≤ w.beginSn + w.size
  ref_eq {x : Nat} : w.endSn ≤ x + w.size → x < w.endSn → (w.array (w.calcIdx x)).ref = held x
  mem_of_held {x : Nat} : 0 < held x → w.endSn ≤ x + w.size ∧ x < w.endSn

/-- The invariant between calls. -/
structure Inv (w : FixedSlidingWindow α) (held : Nat → Nat) : Prop extends Counted w held where
  pending : w.endSn < w.beginSn + w.size → 0 < held (w.endSn - w.size)

/-- The slots that were reset are not referenced. -/
def ResetsFree (w : FixedSlidingWindow α) (held : Nat → Nat) (es : List SwEvent) : Prop :=
  ∀ i, SwEvent.reset i ∈ es → ∀ x, 0 < held x → w.calcIdx x ≠ i

/-- What every call from a window `w` ensures of the window `w'` it leads to. -/
structure Safe (w w' : FixedSlidingWindow α) (held : Nat → Nat) (es : List SwEvent) : Prop where
  inv : Inv w' held
  free : ResetsFree w' held es
  accepts : slider.Accepts w.beginSn es
  beginSn_eq : w'.beginSn = slider.run w.beginSn es

/-- Two windows that differ in their tasks only. -/
structure SameCounts (w w' : FixedSlidingWindow α) : Prop where
  isInited : w'.isInited = w.isInited
  beginSn : w'.beginSn = w.beginSn
  endSn : w'.endSn = w.endSn
  size : w'.size = w.size
  ref : ∀ i, (w'.array i).ref = (w.array i).ref

theorem SameCounts.calcIdx {w w' : FixedSlidingWindow α} (h : SameCounts w w') (x : Nat) :
    w'.calcIdx x = w.calcIdx x := by
  rw [FixedSlidingWindow.calcIdx, FixedSlidingWindow.calcIdx, h.size]

theorem SameCounts.setData (w : FixedSlidingWindow α) (idx : Nat) (data : α) :
    SameCounts w (w.setData idx data) := ⟨rfl, rfl, rfl, rfl, fun i => ref_setData w idx i data⟩

section Calls

variable {w w' : FixedSlidingWindow α} {held : Nat → Nat} {es : List SwEvent}

theorem Counted.congr (hc : Counted w held) (h : SameCounts w w') : Counted w' held where
  isInited := h.isInited.trans hc.isInited
  pow := h.size ▸ hc.pow
  size_pos := h.size ▸ hc.size_pos
  size_le := by
    rw [h.size, h.endSn]
    exact hc.size_le
  begin_le := by
    rw [h.beginSn, h.endSn]
    exact hc.begin_le
  end_le := by
    rw [h.beginSn, h.endSn, h.size]
    exact hc.end_le
  ref_eq {x} hx hx' := by
    rw [h.endSn, h.size] at hx
    rw [h.endSn] at hx'
    rw [h.calcIdx, h.ref, hc.ref_eq hx hx']
  mem_of_held hx := by
    rw [h.endSn, h.size]
    exact hc.mem_of_held hx

theorem Inv.congr (hi : Inv w held) (h : SameCounts w w') : Inv w' held where
  toCounted := hi.toCounted.congr h
  pending := by
    rw [h.beginSn, h.endSn, h.size]
    exact hi.pending

/-- A slot without references belongs to an id without references. -/
theorem Counted.resetsFree (hc : Counted w held) {x : Nat} (hx : w.endSn ≤ x + w.size)
    (hx' : x < w.endSn) (href : (w.array (w.calcIdx x)).ref = 0) {y : Nat} (hy : 0 < held y) :
    w.calcIdx y ≠ w.calcIdx x := by
  intro heq
  obtain ⟨hlo, hhi⟩ := hc.mem_of_held hy
  have hxy : y = x := calcIdx_inj hc.pow (by omega) (by omega) heq
  have := hc.ref_eq hx hx'
  rw [href, ← hxy] at this
  omega

/-- A call that resets nothing and does not move the window. -/
theorem Inv.safe (hi : Inv w' held) (h : w'.beginSn = w.beginSn) : Safe w w' held [] :=
  ⟨hi, fun _ hmem => absurd hmem not_mem_nil, trivial, h⟩

/-- Taking a reference. -/
theorem get_safe (hi : Inv w held) {x : Nat} (h : w.get x = .ok w') :
    Safe w w' (Function.update held x (held x + 1)) [] := by
  rw [get, hi.isInited] at h
  obtain ⟨u, hrange, h⟩ := ObResult.bind_eq_ok.mp h
  rw [checkIdInRange] at hrange
  split_ifs at hrange with h1 h2
  rw [ObResult.pure_eq_ok] at h
  subst h
  have hend := hi.end_le
  have hmem : ∀ y, 0 < Function.update held x (held x + 1) y →
      w.endSn ≤ y + w.size ∧ y < w.endSn := by
    intro y hy
    rcases eq_or_ne y x with rfl | hne
    · omega
    · rw [update_of_ne hne] at hy
      exact hi.mem_of_held hy
  refine Inv.safe ⟨⟨hi.isInited, hi.pow, hi.size_pos, hi.size_le, hi.begin_le, hi.end_le,
    ?_, fun {y} => hmem y⟩, ?_⟩ rfl
  · intro y hy hy'
    show ((w.setRef (w.calcIdx x) _).array (w.calcIdx y)).ref = _
    rcases eq_or_ne y x with rfl | hne
    · rw [ref_setRef_self, update_self, hi.ref_eq hy hy']
      push_cast
      rfl
    · have hidx : w.calcIdx y ≠ w.calcIdx x := fun heq =>
        hne (calcIdx_inj hi.pow (by change y < w.endSn at hy'; omega)
          (by change w.endSn ≤ y + w.size at hy; omega) heq)
      rw [ref_setRef_of_ne w _ hidx, update_of_ne hne, hi.ref_eq hy hy']
  · intro hlt
    have := hi.pending hlt
    show 0 < Function.update held x (held x + 1) (w.endSn - w.size)
    rcases eq_or_ne (w.endSn - w.size) x with heq | hne
    · rw [heq, update_self]
      omega
    · rwa [update_of_ne hne]

/-- One reference less is counted. -/
theorem Counted.release (hc : Counted w held) {x : Nat} (hx : 0 < held x) :
    Counted (w.setRef (w.calcIdx x) ((w.array (w.calcIdx x)).ref - 1))
      (Function.update held x (held x - 1)) := by
  obtain ⟨hlo, hhi⟩ := hc.mem_of_held hx
  have href : (w.array (w.calcIdx x)).ref = held x := hc.ref_eq hlo hhi
  refine ⟨hc.isInited, hc.pow, hc.size_pos, hc.size_le, hc.begin_le, hc.end_le, ?_, ?_⟩
  · intro y hy hy'
    change w.endSn ≤ y + w.size at hy
    change y < w.endSn at hy'
    show ((w.setRef (w.calcIdx x) _).array (w.calcIdx y)).ref = _
    rcases eq_or_ne y x with rfl | hne
    · rw [ref_setRef_self, update_self, href]
      omega
    · have hidx : w.calcIdx y ≠ w.calcIdx x := fun heq =>
        hne (calcIdx_inj hc.pow (by omega) (by omega) heq)
      rw [ref_setRef_of_ne w _ hidx, update_of_ne hne, hc.ref_eq hy hy']
  · intro y hy
    rcases eq_or_ne y x with rfl | hne
    · exact ⟨hlo, hhi⟩
    · rw [update_of_ne hne] at hy
      exact hc.mem_of_held hy

section Reclaim

variable [Inhabited α]

/-- One slot reclaimed: it had no references, and its id was slid. -/
theorem Counted.reclaim_one (hc : Counted w held) {x : Nat} (hx : x + w.size = w.endSn)
    (hlt : x < w.beginSn) (href : (w.array (w.calcIdx x)).ref = 0) :
    Counted { w.resetSlot (w.calcIdx x) with endSn := w.endSn + 1 } held where
  isInited := hc.isInited
  pow := hc.pow
  size_pos := hc.size_pos
  size_le := hc.size_le.trans (Nat.le_succ _)
  begin_le := hc.begin_le.trans (Nat.le_succ _)
  end_le := by
    show w.endSn + 1 ≤ w.beginSn + w.size
    omega
  ref_eq {y} hy hy' := by
    show ((w.resetSlot (w.calcIdx x)).array (w.calcIdx y)).ref = _
    change w.endSn + 1 ≤ y + w.size at hy
    change y < w.endSn + 1 at hy'
    rw [resetSlot, ref_setData]
    rcases Nat.lt_succ_iff_lt_or_eq.mp hy' with hlt' | rfl
    · exact hc.ref_eq (by omega) hlt'
    · -- the id the slot is reclaimed for has not been taken yet
      have hzero : held w.endSn = 0 := by
        by_contra hne
        have := (hc.mem_of_held (Nat.pos_of_ne_zero hne)).2
        omega
      rw [hzero, ← hx, calcIdx_add_size hc.pow, href]
      rfl
  mem_of_held {y} hy := by
    show w.endSn + 1 ≤ y + w.size ∧ y < w.endSn + 1
    obtain ⟨hlo, hhi⟩ := hc.mem_of_held hy
    have hne : y ≠ x := by
      rintro rfl
      exact hc.resetsFree (by omega) (by omega) href hy rfl
    omega

/-- **The reclaiming loop** stops at the end of the round, or at a slot that is still referenced. -/
theorem reclaim_spec (hc : Counted w held) {x : Nat} (hx : x + w.size = w.endSn) :
    Inv (w.reclaim (w.calcIdx x) w.endSn x).1 held ∧
      (w.reclaim (w.calcIdx x) w.endSn x).1.beginSn = w.beginSn ∧
      (w.reclaim (w.calcIdx x) w.endSn x).1.size = w.size ∧
      ResetsFree w held (w.reclaim (w.calcIdx x) w.endSn x).2 ∧
      ∀ e ∈ (w.reclaim (w.calcIdx x) w.endSn x).2, ∃ i, e = .reset i := by
  -- the induction is on the distance of the id from the beginning of the window
  induction hn : w.beginSn - x generalizing w x with
  | zero =>
    have hnot : ¬ (w.calcIdx x = w.calcIdx w.endSn ∧ x < w.beginSn) := by omega
    rw [reclaim, if_neg hnot]
    refine ⟨⟨hc, fun hlt => ?_⟩, rfl, rfl, fun i hi => absurd hi not_mem_nil,
      fun e he => absurd he not_mem_nil⟩
    change w.endSn < w.beginSn + w.size at hlt
    omega
  | succ n ih =>
    have hpos := hc.size_pos
    have hidx : w.calcIdx x = w.calcIdx w.endSn := by rw [← hx, calcIdx_add_size hc.pow]
    rw [reclaim, if_pos ⟨hidx, by omega⟩]
    by_cases href : (w.array (w.calcIdx x)).ref = 0
    · have hone := hc.reclaim_one hx (by omega) href
      have hnext : w.calcIdx (w.calcIdx x + 1) =
          ({ w.resetSlot (w.calcIdx x) with endSn := w.endSn + 1 } :
            FixedSlidingWindow α).calcIdx (x + 1) := calcIdx_calcIdx_succ hc.pow x
      have hrec := ih hone (x := x + 1) (by show x + 1 + w.size = w.endSn + 1; omega)
        (by show w.beginSn - (x + 1) = n; omega)
      rw [if_neg (not_not.mpr ⟨rfl, href⟩), hnext]
      obtain ⟨hinv, hbegin, hsize, hfree, honly⟩ := hrec
      refine ⟨hinv, hbegin, hsize, fun i hi y hy => ?_, fun e he => ?_⟩
      · rcases mem_cons.mp hi with heq | hmem
        · rw [SwEvent.reset.inj heq]
          exact hc.resetsFree (by omega) (by omega) href hy
        · exact hfree i hmem y hy
      · rcases mem_cons.mp he with heq | hmem
        · exact ⟨_, heq⟩
        · exact honly e hmem
    · have hne : ¬ (w.endSn = w.endSn ∧ (w.array (w.calcIdx x)).ref = 0) := fun h => href h.2
      rw [if_pos hne]
      refine ⟨⟨hc, fun _ => ?_⟩, rfl, rfl, fun i hi => absurd hi not_mem_nil,
        fun e he => absurd he not_mem_nil⟩
      have hxe : w.endSn - w.size = x := by omega
      have hval := hc.ref_eq (x := x) (by omega) (by omega)
      rw [hxe]
      omega

theorem reclaim_safe (hc : Counted w held) {x : Nat} (hx : x + w.size = w.endSn) :
    Safe w (w.reclaim (w.calcIdx x) w.endSn x).1 held (w.reclaim (w.calcIdx x) w.endSn x).2 := by
  obtain ⟨hinv, hbegin, hsize, hfree, honly⟩ := reclaim_spec hc hx
  obtain ⟨hacc, hrun⟩ := slider_resets honly w.beginSn
  refine ⟨hinv, fun i hi y hy => ?_, hacc, hbegin.trans hrun.symm⟩
  rw [calcIdx, hsize]
  exact hfree i hi y hy

/-- **Returning a reference** always succeeds. -/
theorem revert_safe (hi : Inv w held) {x : Nat} (hx : 0 < held x) :
    ∃ r, w.revert x = .ok r ∧ Safe w r.1 (Function.update held x (held x - 1)) r.2 := by
  obtain ⟨hlo, hhi⟩ := hi.mem_of_held hx
  have hbegin := hi.begin_le
  have href : (w.array (w.calcIdx x)).ref = held x := hi.ref_eq hlo hhi
  have hcount := hi.release hx
  -- the window is waiting for another slot, or for another reference to this one
  have hpending : held x ≠ 1 ∨ x + w.size ≠ w.endSn → w.endSn < w.beginSn + w.size →
      0 < Function.update held x (held x - 1) (w.endSn - w.size) := by
    intro hor hlt
    have hpend := hi.pending hlt
    have hsize := hi.size_le
    rcases eq_or_ne (w.endSn - w.size) x with heq | hne
    · rw [heq, update_self]
      omega
    · rwa [update_of_ne hne]
  have hreverts : w.revert x = w.revert' x := by
    rw [revert, hi.isInited, if_neg (by decide), if_neg (by omega)]
  rw [hreverts, revert', if_neg (by omega), if_neg (by omega)]
  by_cases hzero : 0 = (w.array (w.calcIdx x)).ref - 1
  · rw [if_pos hzero]
    refine ⟨_, rfl, ?_⟩
    by_cases hround : x + w.size = w.endSn
    · have hsafe := reclaim_safe hcount hround
      exact ⟨hsafe.inv, hsafe.free, hsafe.accepts, hsafe.beginSn_eq⟩
    · -- not the next slot to be reclaimed: the loop is not entered
      have hidx : w.calcIdx x ≠ w.calcIdx w.endSn := calcIdx_ne hi.pow hhi (by omega)
      have hskip : (w.setRef (w.calcIdx x) ((w.array (w.calcIdx x)).ref - 1)).reclaim
          (w.calcIdx x) (w.setRef (w.calcIdx x) ((w.array (w.calcIdx x)).ref - 1)).endSn x =
          (w.setRef (w.calcIdx x) ((w.array (w.calcIdx x)).ref - 1), []) := by
        rw [reclaim]
        exact if_neg fun h => hidx h.1
      rw [hskip]
      exact Inv.safe ⟨hcount, hpending (.inr hround)⟩ rfl
  · rw [if_neg hzero]
    exact ⟨_, rfl, Inv.safe ⟨hcount, hpending (.inl (by omega))⟩ rfl⟩

/-- What one round of `slide` can do. -/
theorem slide_cases (hinit : w.isInited = true) (canBeSlid : α → Bool)
    (cb : Nat → α → ObResult Unit) :
    (w.slide canBeSlid cb).2 = (w, []) ∨
    (w.slide canBeSlid cb).2 = (w, [.slidingCb w.beginSn false]) ∨
    (w.beginSn < w.endSn ∧ (w.array (w.calcIdx w.beginSn)).ref = 0 ∧
      w.calcIdx w.endSn = w.calcIdx w.beginSn ∧
      (w.slide canBeSlid cb).2 = ({ w.resetSlot (w.calcIdx w.beginSn) with
        beginSn := w.beginSn + 1, endSn := w.endSn + 1 },
        [.slidingCb w.beginSn true, .reset (w.calcIdx w.beginSn)])) ∨
    (w.beginSn < w.endSn ∧ ¬ ((w.array (w.calcIdx w.beginSn)).ref = 0 ∧
      w.calcIdx w.endSn = w.calcIdx w.beginSn) ∧
      (w.slide canBeSlid cb).2 =
        ({ w with beginSn := w.beginSn + 1 }, [.slidingCb w.beginSn true])) := by
  have hnot : ¬ (!w.isInited) = true := by
    rw [hinit]
    decide
  rw [slide, if_neg hnot]
  by_cases hempty : w.endSn ≤ w.beginSn
  · exact .inl (by rw [if_pos hempty])
  rw [if_neg hempty]
  cases canBeSlid (w.array (w.calcIdx w.beginSn)).data with
  | false => exact .inl rfl
  | true =>
    cases cb w.beginSn (w.array (w.calcIdx w.beginSn)).data with
    | error e => exact .inr (.inl rfl)
    | ok u =>
      by_cases hreclaim : (w.array (w.calcIdx w.beginSn)).ref = 0 ∧
          w.calcIdx w.endSn = w.calcIdx w.beginSn
      · refine .inr (.inr (.inl ⟨by omega, hreclaim.1, hreclaim.2, ?_⟩))
        exact congrArg Prod.snd ((if_neg (by decide)).trans (if_pos hreclaim))
      · refine .inr (.inr (.inr ⟨by omega, hreclaim, ?_⟩))
        exact congrArg Prod.snd ((if_neg (by decide)).trans (if_neg hreclaim))

/-- `slide` keeps the invariant, resets free slots only and calls back in order. -/
theorem slide_safe (hi : Inv w held) (canBeSlid : α → Bool) (cb : Nat → α → ObResult Unit) :
    Safe w (w.slide canBeSlid cb).2.1 held (w.slide canBeSlid cb).2.2 := by
  have hend := hi.end_le
  rcases slide_cases hi.isInited canBeSlid cb with h | h | ⟨hlt, href, hidx, h⟩ | ⟨hlt, hnot, h⟩
  · rw [h]
    exact hi.safe rfl
  · rw [h]
    refine ⟨hi, fun i hmem => ?_, ⟨rfl, trivial⟩, rfl⟩
    cases mem_singleton.mp hmem
  · -- the window was full, and the slot is free
    have hfull : w.beginSn + w.size = w.endSn := by
      by_contra hne
      exact calcIdx_ne hi.pow hlt (by omega) hidx.symm
    have hcount : Counted { w with beginSn := w.beginSn + 1 } held :=
      ⟨hi.isInited, hi.pow, hi.size_pos, hi.size_le, hlt,
        by show w.endSn ≤ w.beginSn + 1 + w.size; omega, hi.ref_eq, hi.mem_of_held⟩
    rw [h]
    refine ⟨⟨hcount.reclaim_one (x := w.beginSn) hfull (Nat.lt_succ_self _) href,
      fun hlt' => ?_⟩, fun i hmem y hy => ?_, ⟨rfl, trivial, trivial⟩, rfl⟩
    · change w.endSn + 1 < w.beginSn + 1 + w.size at hlt'
      omega
    · obtain rfl : i = w.calcIdx w.beginSn := by simpa using hmem
      exact hi.resetsFree (by omega) hlt href hy
  · have hcount : Counted { w with beginSn := w.beginSn + 1 } held :=
      ⟨hi.isInited, hi.pow, hi.size_pos, hi.size_le, hlt,
        by show w.endSn ≤ w.beginSn + 1 + w.size; omega, hi.ref_eq, hi.mem_of_held⟩
    rw [h]
    refine ⟨⟨hcount, fun _ => ?_⟩, fun i hmem => ?_, ⟨rfl, trivial⟩, rfl⟩
    · show 0 < held (w.endSn - w.size)
      by_cases hfull : w.beginSn + w.size = w.endSn
      · -- full, but the slot is referenced
        have hval := hi.ref_eq (x := w.beginSn) (by omega) hlt
        have hne : (w.array (w.calcIdx w.beginSn)).ref ≠ 0 := fun href =>
          hnot ⟨href, by rw [← hfull, calcIdx_add_size hi.pow]⟩
        rw [show w.endSn - w.size = w.beginSn by omega]
        omega
      · exact hi.pending (by omega)
    · cases mem_singleton.mp hmem

variable {r : FixedSlidingWindow α × List SwEvent}

theorem rangeTruncate_spec {is : List Nat} (h : w.rangeTruncate is = some r) :
    SameCounts w r.1 ∧ (∀ i ∈ is, (w.array (w.calcIdx i)).ref = 0) ∧
      ∀ e ∈ r.2, ∃ i ∈ is, e = .reset (w.calcIdx i) := by
  induction is generalizing w r with
  | nil =>
    rw [rangeTruncate, Option.some.injEq] at h
    subst h
    exact ⟨⟨rfl, rfl, rfl, rfl, fun _ => rfl⟩, fun i hi => absurd hi not_mem_nil,
      fun e he => absurd he not_mem_nil⟩
  | cons i is ih =>
    rw [rangeTruncate] at h
    by_cases href : (w.array (w.calcIdx i)).ref = 0
    · rw [if_neg (not_not.mpr href)] at h
      obtain ⟨r', hr', h⟩ := Option.bind_eq_some_iff.mp h
      obtain rfl := Option.some.inj h
      have hone := SameCounts.setData w (w.calcIdx i) (default : α)
      obtain ⟨hsame, hzero, hev⟩ := ih hr'
      refine ⟨⟨hsame.isInited, hsame.beginSn, hsame.endSn, hsame.size,
        fun j => (hsame.ref j).trans (hone.ref j)⟩, fun j hj => ?_, fun e he => ?_⟩
      · rcases mem_cons.mp hj with rfl | hmem
        · exact href
        · exact (hone.ref _).symm.trans (hzero j hmem)
      · rcases mem_cons.mp he with rfl | hmem
        · exact ⟨i, mem_cons_self, rfl⟩
        · obtain ⟨j, hj, rfl⟩ := hev e hmem
          exact ⟨j, mem_cons_of_mem _ hj, rfl⟩
    · rw [if_pos href] at h
      cases h

theorem mem_tids {b e i : Nat} : i ∈ tids b e ↔ b ≤ i ∧ i < e := by
  rw [tids, mem_range'_1]
  omega

/-- Truncating ids of the window leaves it where it is. -/
theorem rangeTruncate_safe (hi : Inv w held) {is : List Nat}
    (hmem : ∀ i ∈ is, w.beginSn ≤ i ∧ i < w.endSn) (h : w.rangeTruncate is = some r) :
    Safe w r.1 held r.2 := by
  obtain ⟨hsame, hzero, hev⟩ := rangeTruncate_spec h
  have hend := hi.end_le
  have honly : ∀ e ∈ r.2, ∃ i, e = .reset i := fun e he => by
    obtain ⟨i, -, rfl⟩ := hev e he
    exact ⟨_, rfl⟩
  obtain ⟨hacc, hrun⟩ := slider_resets honly w.beginSn
  refine ⟨hi.congr hsame, fun idx hidx y hy => ?_, hacc, hsame.beginSn.trans hrun.symm⟩
  obtain ⟨i, him, heq⟩ := hev _ hidx
  obtain ⟨hlo, hhi⟩ := hmem i him
  rw [SwEvent.reset.inj heq, hsame.calcIdx]
  exact hi.resetsFree (by omega) hhi (hzero i him) hy

theorem truncate_safe (hi : Inv w held) {t : Nat} (h : w.truncate t = some (.ok r)) :
    Safe w r.1 held r.2 := by
  rw [truncate, hi.isInited, if_neg (by decide), checkIdInRange] at h
  by_cases hlo : t < w.beginSn
  · rw [if_pos hlo] at h
    cases h
  rw [if_neg hlo] at h
  by_cases hhi : t ≥ w.endSn
  · rw [if_pos hhi] at h
    cases h
    exact hi.safe rfl
  · rw [if_neg hhi] at h
    obtain ⟨r', hr', heq⟩ := Option.map_eq_some_iff.mp h
    rw [← Except.ok.inj heq]
    refine rangeTruncate_safe hi (fun i hmem => ?_) hr'
    have := mem_tids.mp hmem
    omega

omit [Inhabited α] in
/-- The ids that a move of the window truncates are those below `t`. -/
theorem mem_truncateRange {t : Nat} (hlo : ¬ t < w.beginSn) (i : Nat) :
    i ∈ (match w.checkIdInRange t with
      | .error _ => tids w.beginSn w.endSn
      | .ok () => tids w.beginSn t) ↔ w.beginSn ≤ i ∧ i < w.endSn ∧ i < t := by
  rw [checkIdInRange, if_neg hlo]
  by_cases hhi : t ≥ w.endSn
  · rw [if_pos hhi]
    exact mem_tids.trans (by omega)
  · rw [if_neg hhi]
    exact mem_tids.trans (by omega)

/-- **Moving the window** waits for the references to the ids it leaves behind. -/
theorem truncateAndResetBeginSn_safe (hi : Inv w held) (hroom : w.beginSn < w.endSn) {t : Nat}
    (h : w.truncateAndResetBeginSn t = some (.ok r)) : Safe w r.1 held r.2 := by
  have hend := hi.end_le
  have hpos := hi.size_pos
  rw [truncateAndResetBeginSn, hi.isInited, if_neg (by decide)] at h
  by_cases hlo : t < w.beginSn
  · rw [if_pos hlo] at h
    cases h
  rw [if_neg hlo] at h
  by_cases hidx : w.calcIdx w.beginSn = w.calcIdx w.endSn
  swap
  · rw [if_pos hidx] at h
    cases h
  have hfull : w.beginSn + w.size = w.endSn := by
    by_contra hne
    exact calcIdx_ne hi.pow hroom (by omega) hidx
  rw [if_neg (not_not.mpr hidx)] at h
  obtain ⟨r', hr', h⟩ := Option.bind_eq_some_iff.mp h
  obtain rfl : _ = r := Except.ok.inj (Option.some.inj h)
  have hrange := mem_truncateRange hlo
  have hsafe := rangeTruncate_safe hi (fun i hmem => by have := (hrange i).mp hmem; omega) hr'
  obtain ⟨hsame, hzero, -⟩ := rangeTruncate_spec hr'
  have hheld : ∀ x, 0 < held x → t ≤ x := by
    intro x hx
    obtain ⟨hxlo, hxhi⟩ := hi.mem_of_held hx
    by_contra hlt
    have href := hzero x ((hrange x).mpr (by omega))
    exact hi.resetsFree hxlo hxhi href hx rfl
  have hcount : Counted { r'.1 with beginSn := t, endSn := t + r'.1.size } held := by
    refine ⟨hsame.isInited.trans hi.isInited, hsafe.inv.pow, hsafe.inv.size_pos,
      Nat.le_add_left _ _, Nat.le_add_right _ _, le_rfl, ?_, ?_⟩
    · intro x hx hx'
      change t + r'.1.size ≤ x + r'.1.size at hx
      change x < t + r'.1.size at hx'
      show (r'.1.array (r'.1.calcIdx x)).ref = held x
      rw [hsame.size] at hx hx'
      rw [hsame.ref, hsame.calcIdx]
      rcases Nat.lt_or_ge x w.endSn with hlt | hge
      · exact hi.ref_eq (by omega) hlt
      · -- a slot taken over from an id below `t`
        have hmod : (x - w.beginSn) % w.size < w.size := Nat.mod_lt _ hpos
        have hlt : w.beginSn + (x - w.beginSn) % w.size < t := by
          rcases Nat.lt_or_ge t w.endSn with ht | ht
          · rw [Nat.mod_eq_sub_mod (by omega), Nat.mod_eq_of_lt (by omega)]
            omega
          · omega
        have href := hzero _ ((hrange (w.beginSn + (x - w.beginSn) % w.size)).mpr (by omega))
        rw [exists_calcIdx_eq hi.pow (by omega)] at href
        have hnone : held x = 0 := by
          by_contra hne
          have := (hi.mem_of_held (Nat.pos_of_ne_zero hne)).2
          omega
        rw [href, hnone]
        rfl
    · intro x hx
      show t + r'.1.size ≤ x + r'.1.size ∧ x < t + r'.1.size
      have := hheld x hx
      have := (hi.mem_of_held hx).2
      rw [hsame.size]
      omega
  refine ⟨⟨hcount, fun hlt => absurd hlt (lt_irrefl _)⟩, fun idx hmem y hy => ?_, ?_, ?_⟩
  · rcases mem_append.mp hmem with hmem | hmem
    · exact hsafe.free idx hmem y hy
    · cases mem_singleton.mp hmem
  · rw [Machine.accepts_append]
    refine ⟨hsafe.accepts, ?_, trivial⟩
    rw [← hsafe.beginSn_eq, hsame.beginSn]
    exact Nat.not_lt.mp hlo
  · rw [Machine.run_append]
    rfl

end Reclaim

end Calls

/-! ### Runs -/

/-- One call on a window whose references are held as `held` says. -/
inductive Step [Inhabited α] (canBeSlid : α → Bool) (R : FixedSlidingWindow α → Prop) :
    FixedSlidingWindow α × (Nat → Nat) → List SwEvent → FixedSlidingWindow α × (Nat → Nat) → Prop
  | get {w w' : FixedSlidingWindow α} {held : Nat → Nat} {gId : Nat} (h : w.get gId = .ok w') :
      Step canBeSlid R (w, held) [] (w', Function.update held gId (held gId + 1))
  /-- there is no `set`: whoever holds a reference writes to the task -/
  | write {w : FixedSlidingWindow α} {held : Nat → Nat} {id : Nat} (data : α)
      (hheld : 0 < held id) :
      Step canBeSlid R (w, held) [] (w.setData (w.calcIdx id) data, held)
  | revert {w : FixedSlidingWindow α} {held : Nat → Nat} {rId : Nat}
      {r : FixedSlidingWindow α × List SwEvent} (hheld : 0 < held rId)
      (h : w.revert rId = .ok r) :
      Step canBeSlid R (w, held) r.2 (r.1, Function.update held rId (held rId - 1))
  | slide {w : FixedSlidingWindow α} {held : Nat → Nat} {r : FixedSlidingWindow α × List SwEvent}
      (cb : Nat → α → ObResult Unit) (h : (w.slide canBeSlid cb).2 = r) :
      Step canBeSlid R (w, held) r.2 (r.1, held)
  | truncate {w : FixedSlidingWindow α} {held : Nat → Nat} {tId : Nat}
      {r : FixedSlidingWindow α × List SwEvent} (h : w.truncate tId = some (.ok r)) :
      Step canBeSlid R (w, held) r.2 (r.1, held)
  | truncateAndResetBeginSn {w : FixedSlidingWindow α} {held : Nat → Nat} {tId : Nat}
      {r : FixedSlidingWindow α × List SwEvent} (hR : R w)
      (h : w.truncateAndResetBeginSn tId = some (.ok r)) :
      Step canBeSlid R (w, held) r.2 (r.1, held)

/-- The window is not empty. -/
def HasRoom (w : FixedSlidingWindow α) : Prop := w.beginSn < w.endSn

/-- An id that can be got, or is referenced. -/
def InUse (w : FixedSlidingWindow α) (held : Nat → Nat) (x : Nat) : Prop :=
  w.beginSn ≤ x ∧ x < w.endSn ∨ 0 < held x

theorem Inv.calcIdx_ne {w : FixedSlidingWindow α} {held : Nat → Nat} (hi : Inv w held) {x y : Nat}
    (hne : x ≠ y) (hx : InUse w held x) (hy : InUse w held y) : w.calcIdx x ≠ w.calcIdx y := by
  have hend := hi.end_le
  have hround : ∀ z, InUse w held z → w.endSn ≤ z + w.size ∧ z < w.endSn := by
    rintro z (hz | hz)
    · omega
    · exact hi.mem_of_held hz
  obtain ⟨hx1, hx2⟩ := hround x hx
  obtain ⟨hy1, hy2⟩ := hround y hy
  exact fun heq => hne (calcIdx_inj hi.pow (by omega) (by omega) heq)

section Runs

variable [Inhabited α] {canBeSlid : α → Bool}

theorem init_inv {startId size : Nat} {w : FixedSlidingWindow α}
    (h : uninit.init startId size = .ok w) : Inv w fun _ => 0 := by
  rw [init] at h
  split_ifs at h with h1 h2
  rw [not_or, not_not] at h2
  have hpow : size.isPowerOfTwo :=
    Nat.ne_zero_and_sub_one_eq_zero_iff_isPowerOfTwo.mp ⟨by omega, h2.2⟩
  rw [← Except.ok.inj h]
  exact ⟨⟨rfl, hpow, by show 0 < size; omega, Nat.le_add_left _ _, Nat.le_add_right _ _, le_rfl,
    fun _ _ => rfl, fun hx => absurd hx (lt_irrefl _)⟩, fun hlt => absurd hlt (lt_irrefl _)⟩

theorem init_beginSn {startId size : Nat} {w : FixedSlidingWindow α}
    (h : uninit.init startId size = .ok w) : w.beginSn = startId := by
  rw [init] at h
  split_ifs at h
  rw [← Except.ok.inj h]

/-- Every step keeps the invariant, resets free slots only and calls back in order. -/
theorem step_safe {s s' : FixedSlidingWindow α × (Nat → Nat)} {es : List SwEvent}
    (hi : Inv s.1 s.2) (h : Step canBeSlid HasRoom s es s') : Safe s.1 s'.1 s'.2 es := by
  cases h with
  | get h => exact get_safe hi h
  | write data hheld => exact (hi.congr (SameCounts.setData _ _ _)).safe rfl
  | revert hheld h =>
    obtain ⟨r, hr, hsafe⟩ := revert_safe hi hheld
    rw [hr] at h
    rw [← Except.ok.inj h]
    exact hsafe
  | slide cb h =>
    rw [← h]
    exact slide_safe hi canBeSlid cb
  | truncate h => exact truncate_safe hi h
  | truncateAndResetBeginSn hR h => exact truncateAndResetBeginSn_safe hi hR h

/-- **Slot safety** over every run of a fresh window whose moves find room in it: the bounds of the
window, the references of the ids held, that ids in use never share a slot, that no slot in use is
reset, that every reference can be returned, the calls of `sliding_cb` (in order, and exactly one
successful call per id the window slid over), and that a window without references is full. -/
theorem slots_safe {startId size : Nat} {w₀ w : FixedSlidingWindow α} {held : Nat → Nat}
    {es : List SwEvent} (hinit : uninit.init startId size = .ok w₀)
    (hrun : Run (Step canBeSlid HasRoom) (w₀, fun _ => 0) es (w, held)) :
    (w.beginSn ≤ w.endSn ∧ w.endSn ≤ w.beginSn + w.size) ∧
    (∀ x, 0 < held x → w.endSn ≤ x + w.size ∧ x < w.endSn ∧
      (w.array (w.calcIdx x)).ref = held x) ∧
    (∀ x y, x ≠ y → InUse w held x → InUse w held y → w.calcIdx x ≠ w.calcIdx y) ∧
    (∀ es' s', Step canBeSlid HasRoom (w, held) es' s' → ∀ i, SwEvent.reset i ∈ es' →
      ∀ x, 0 < s'.2 x → s'.1.calcIdx x ≠ i) ∧
    (∀ x, 0 < held x → ∃ r, w.revert x = .ok r) ∧
    (cbCalls es).Pairwise CallOrder ∧
    (∀ x, (cbCalls es).count (x, true) = if SlidOver startId es x then 1 else 0) ∧
    w.beginSn = slider.run startId es ∧
    ((∀ x, held x = 0) → w.endSn = w.beginSn + w.size) := by
  have hstart : w₀.beginSn = startId := init_beginSn hinit
  obtain ⟨hi, hacc, hbegin⟩ := hrun.refines slider (fun s => Inv s.1 s.2) (fun s => s.1.beginSn)
    (fun s es s' hs h => by
      have hsafe := step_safe hs h
      exact ⟨hsafe.inv, hsafe.accepts, hsafe.beginSn_eq⟩) (init_inv hinit)
  simp only [hstart] at hacc hbegin
  refine ⟨⟨hi.begin_le, hi.end_le⟩, fun x hx => ?_, fun x y => hi.calcIdx_ne,
    fun es' s' h => (step_safe hi h).free, fun x hx => ?_, (slider_calls hacc).2,
    count_cbCalls hacc, hbegin, fun hnone => ?_⟩
  · obtain ⟨hlo, hhi⟩ := hi.mem_of_held hx
    exact ⟨hlo, hhi, hi.ref_eq hlo hhi⟩
  · obtain ⟨r, hr, -⟩ := revert_safe hi hx
    exact ⟨r, hr⟩
  · by_contra hne
    have hpend := hi.pending (lt_of_le_of_ne hi.end_le hne)
    have := hnone (w.endSn - w.size)
    change 0 < held (w.endSn - w.size) at hpend
    omega

end Runs

/-- A window of two slots, with tasks that can always be slid. -/
def smallWindow : FixedSlidingWindow Unit := ⟨true, 0, 2, 2, fun _ => ⟨0, ()⟩⟩

/-- The window after `get` of the id 0, a slide over it and a slide over the id 1. -/
def slidWindow : FixedSlidingWindow Unit := { smallWindow.setRef 0 1 with beginSn := 2 }

theorem revert_slidWindow : ∃ w, slidWindow.revert 0 = .ok (w, [.reset 0, .reset 1]) := by
  -- both slots of the window are reclaimed, then the loop stops at its beginning
  have hloop : ((slidWindow.setRef 0 0).reclaim 0 2 0).2 = [.reset 0, .reset 1] := by
    rw [reclaim, if_pos (by decide), if_neg (by decide)]
    refine congrArg (SwEvent.reset 0 :: ·) ?_
    rw [reclaim, if_pos (by decide), if_neg (by decide)]
    refine congrArg (SwEvent.reset _ :: ·) ?_
    rw [reclaim, if_neg (by decide)]
  exact ⟨_, congrArg Except.ok (Prod.ext rfl hloop)⟩

/-- Two ids are slid over, the second at the second try. -/
theorem slots_safe_slides :
    uninit.init 0 2 = .ok smallWindow ∧ ∃ es s, Run (Step (fun _ => true) HasRoom)
      (smallWindow, fun _ => 0) es s ∧ cbCalls es = [(0, true), (1, false), (1, true)] ∧
      s.1.beginSn = 2 ∧ s.1.endSn = s.1.beginSn + s.1.size ∧
      (cbCalls es).Pairwise CallOrder ∧
      ∀ x, (cbCalls es).count (x, true) = if SlidOver 0 es x then 1 else 0 := by
  have hinit : uninit.init 0 2 = .ok smallWindow := rfl
  let w₁ := smallWindow.setRef 0 1
  let held := Function.update (fun _ : Nat => 0) 0 1
  have hget := @Step.get Unit _ (fun _ => true) HasRoom smallWindow w₁ (fun _ => 0) 0 rfl
  have hslide := @Step.slide Unit _ (fun _ => true) HasRoom w₁ held
    ({ w₁ with beginSn := 1 }, [.slidingCb 0 true]) (fun _ _ => .ok ())
    (by
      rw [slide, if_neg (by decide), if_neg (by decide), if_neg (by decide)]
      exact congrArg Prod.snd (if_neg (by decide)))
  have hfail := @Step.slide Unit _ (fun _ => true) HasRoom { w₁ with beginSn := 1 } held
    ({ w₁ with beginSn := 1 }, [.slidingCb 1 false]) (fun _ _ => .error .eAgain) rfl
  have hagain := @Step.slide Unit _ (fun _ => true) HasRoom { w₁ with beginSn := 1 } held
    (slidWindow, [.slidingCb 1 true]) (fun _ _ => .ok ())
    (by
      rw [slide, if_neg (by decide), if_neg (by decide), if_neg (by decide)]
      exact congrArg Prod.snd (if_neg (by decide)))
  obtain ⟨w, hw⟩ := revert_slidWindow
  have hrevert := @Step.revert Unit _ (fun _ => true) HasRoom slidWindow held 0 _ (by decide) hw
  have hrun := ((((Run.nil.snoc hget).snoc hslide).snoc hfail).snoc hagain).snoc hrevert
  obtain ⟨-, -, -, -, -, horder, hcount, hbegin, hfull⟩ := slots_safe hinit hrun
  refine ⟨hinit, _, _, hrun, rfl, hbegin, hfull fun x => ?_, horder, hcount⟩
  rcases eq_or_ne x 0 with rfl | hne
  · rfl
  · simp [hne, held]

/-- A callback that failed is called again for its id; without room in the window two ids in use
share a slot. -/
theorem window_limits :
    uninit.init 0 2 = .ok smallWindow ∧
    (∃ es s, Run (Step (fun _ => true) HasRoom) (smallWindow, fun _ => 0) es s ∧
      cbCalls es = [(0, false), (0, true)]) ∧
    (∃ es w held, Run (Step (fun _ => true) fun _ => True) (smallWindow, fun _ => 0) es
        (w, held) ∧
      0 < held 0 ∧ ¬ w.endSn ≤ 0 + w.size ∧ InUse w held 2 ∧ w.calcIdx 0 = w.calcIdx 2) := by
  have hfail := @Step.slide Unit _ (fun _ => true) HasRoom smallWindow (fun _ => 0)
    (smallWindow, [.slidingCb 0 false]) (fun _ _ => .error .eAgain) rfl
  have hagain := @Step.slide Unit _ (fun _ => true) HasRoom smallWindow (fun _ => 0)
    _ (fun _ _ => .ok ()) rfl
  -- the calls of the second limit
  let w₁ := smallWindow.setRef 0 1
  let held := Function.update (fun _ : Nat => 0) 0 1
  have hget := @Step.get Unit _ (fun _ => true) (fun _ => True) smallWindow w₁ (fun _ => 0) 0 rfl
  have hslide := @Step.slide Unit _ (fun _ => true) (fun _ => True) w₁ held
    ({ w₁ with beginSn := 1 }, [.slidingCb 0 true]) (fun _ _ => .ok ())
    (by
      rw [slide, if_neg (by decide), if_neg (by decide), if_neg (by decide)]
      exact congrArg Prod.snd (if_neg (by decide)))
  have hslide' := @Step.slide Unit _ (fun _ => true) (fun _ => True) { w₁ with beginSn := 1 } held
    ({ w₁ with beginSn := 2 }, [.slidingCb 1 true]) (fun _ _ => .ok ())
    (by
      rw [slide, if_neg (by decide), if_neg (by decide), if_neg (by decide)]
      exact congrArg Prod.snd (if_neg (by decide)))
  have hmove := @Step.truncateAndResetBeginSn Unit _ (fun _ => true) (fun _ => True)
    { w₁ with beginSn := 2 } held 2 ({ w₁ with beginSn := 2, endSn := 4 }, [.resetBeginSn 2])
    trivial (by
      rw [truncateAndResetBeginSn, if_neg (by decide), if_neg (by decide), if_neg (by decide)]
      rfl)
  have hrun := (((Run.nil.snoc hget).snoc hslide).snoc hslide').snoc hmove
  exact ⟨rfl, ⟨_, _, (Run.nil.snoc hfail).snoc hagain, rfl⟩,
    ⟨_, _, _, hrun, by decide, by decide, .inl (by decide), by decide⟩⟩

end Andl.Palf.FixedSlidingWindow
