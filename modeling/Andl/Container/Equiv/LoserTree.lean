import Andl.Container.Equiv.Matches

/-!
# What a loser tree holds
-/

namespace Andl

open Tournament Function

namespace ObLoserTree

variable {T κ : Type} [LinearOrder κ]

/-- The slots that hold a player. -/
def slots (t : ObLoserTree T) : Finset ℕ :=
  Finset.range t.playerCnt \ (Finset.range t.curFreeCnt).image t.freePlayers

/-- The place of the player in slot `s` in the order of the merge. -/
def slotRank (key : T → κ) (iterIdx : T → ℤ) (t : ObLoserTree T) (s : ℕ) : κ ×ₗ ℤ :=
  toLex (key (t.players s), iterIdx (t.players s))

/-- The key of the player in slot `s`. -/
def slotKey (key : T → κ) (t : ObLoserTree T) (s : ℕ) : κ := key (t.players s)

/-- A duel that orders players by key, and those of one key by `iterIdx`. -/
def DuelSpec (key : T → κ) (iterIdx : T → ℤ)
    (duel : ObLoserTree T → T → T → ℕ → ObResult (Bool × Bool)) : Prop :=
  ∀ (t : ObLoserTree T) (o d : T) (i : ℕ), i < t.leafOffset → iterIdx o ≠ iterIdx d →
    duel t o d i = .ok (decide (key o = key d),
      decide (toLex (key o, iterIdx o) < toLex (key d, iterIdx d)))

/-- What holds of the slots of a tree at all times. -/
structure Frame (iterIdx : T → ℤ) (t : ObLoserTree T) : Prop where
  pos : 1 ≤ t.playerCnt
  fits : t.playerCnt ≤ t.leafOffset + 1
  freeCnt : t.curFreeCnt ≤ t.playerCnt
  freeLt : ∀ i, i < t.curFreeCnt → t.freePlayers i < t.playerCnt
  freeInj : ∀ i i', i < t.curFreeCnt → i' < t.curFreeCnt →
    t.freePlayers i = t.freePlayers i' → i = i'
  apart : ∀ s ∈ t.slots, ∀ s' ∈ t.slots, s ≠ s' →
    iterIdx (t.players s) ≠ iterIdx (t.players s')

/-- The stage that the matches of a tree are in. -/
abbrev InStage (key : T → κ) (iterIdx : T → ℤ) (t : ObLoserTree T) (o : ℕ → Option ℕ)
    (D : Set ℕ) (j : ℕ) : Prop :=
  Stage t.leafOffset t.slots (t.slotRank key iterIdx) (t.slotKey key) o D j t.matchResults

variable {key : T → κ} {iterIdx : T → ℤ} {t : ObLoserTree T}
variable {duel : ObLoserTree T → T → T → ℕ → ObResult (Bool × Bool)}

theorem mem_slots_lt {s : ℕ} (h : s ∈ t.slots) : s < t.playerCnt :=
  Finset.mem_range.mp (Finset.mem_sdiff.mp h).1

@[simp] theorem setMatch_matchResults (i : ℕ) (m : MatchResult) :
    (t.setMatch i m).matchResults = Function.update t.matchResults i m := rfl

@[simp] theorem setMatch_slots (i : ℕ) (m : MatchResult) : (t.setMatch i m).slots = t.slots := rfl

/-- A match between two slots of the tree succeeds and writes only its own node, with the replay
mark kept. -/
theorem getMatchResult_spec (hduel : DuelSpec key iterIdx duel) (hf : t.Frame iterIdx)
    {a b : Option ℕ} {k : ℕ} (hk : k < t.leafOffset) (ha : ∀ s, a = some s → s ∈ t.slots)
    (hb : ∀ s, b = some s → s ∈ t.slots) (hab : ∀ s, a = some s → b ≠ some s) :
    ∃ m, t.getMatchResult duel a b k = .ok (t.setMatch k m) ∧
      m.replay = (t.matchResults k).replay ∧
      Played (t.slotRank key iterIdx) (t.slotKey key) a b m := by
  have hrange : ∀ c : Option ℕ, (∀ s, c = some s → s ∈ t.slots) → t.outOfRange c = false := by
    intro c hc
    cases c with
    | none => rfl
    | some s =>
      have := mem_slots_lt (hc s rfl)
      simpa [outOfRange] using this
  have hcheck : ¬ (t.outOfRange a || t.outOfRange b) = true := by
    rw [hrange a ha, hrange b hb]
    simp
  unfold getMatchResult
  rw [if_neg hcheck]
  cases a with
  | none =>
    refine ⟨_, rfl, rfl, ⟨.inr ⟨rfl, rfl⟩, by simp, by simp⟩⟩
  | some x =>
    cases b with
    | none => exact ⟨_, rfl, rfl, ⟨.inl ⟨rfl, rfl⟩, by simp, by simp⟩⟩
    | some y =>
      have hxy : x ≠ y := fun h => hab x rfl (congrArg some h.symm)
      have hapart := hf.apart x (ha x rfl) y (hb y rfl) hxy
      simp only [hduel t _ _ k hk hapart, bind, Except.bind, pure, Except.pure]
      refine ⟨_, rfl, rfl, ?_⟩
      have hlt : t.slotRank key iterIdx x < t.slotRank key iterIdx y ∨
          t.slotRank key iterIdx y < t.slotRank key iterIdx x := by
        refine lt_or_gt_of_ne fun h => hapart ?_
        exact (Prod.mk.inj (toLex.injective h)).2
      rcases hlt with hlt | hlt
      · have hdec : decide (toLex (key (t.players x), iterIdx (t.players x)) <
            toLex (key (t.players y), iterIdx (t.players y))) = true := decide_eq_true hlt
        simp only [hdec, if_true]
        exact ⟨.inl ⟨rfl, rfl⟩, fun z hz => ⟨x, rfl, Option.some.inj hz ▸ hlt⟩, by simp [slotKey]⟩
      · have hdec : decide (toLex (key (t.players x), iterIdx (t.players x)) <
            toLex (key (t.players y), iterIdx (t.players y))) = false :=
          decide_eq_false (not_lt_of_gt hlt)
        simp only [hdec, Bool.false_eq_true, if_false]
        refine ⟨.inr ⟨rfl, rfl⟩, fun z hz => ⟨y, rfl, Option.some.inj hz ▸ hlt⟩, ?_⟩
        simp [slotKey, eq_comm]

theorem getParent_eq (c : ℕ) : getParent c = parent c := rfl

variable {o : ℕ → Option ℕ} {D : Set ℕ} {j : ℕ} {x : T}

/-- Telling the next match after match `j` has got the result `m`. -/
theorem tellParent_spec {m : MatchResult} (h : t.InStage key iterIdx o D (j + 1))
    (hj : j < t.leafOffset) :
    ∃ ms D', (t.setMatch j m).tellParent j (o j) = .ok { t with matchResults := ms } ∧
      (D' = D ∨ D' = insert j D) ∧
      (∀ x, x ≠ j → ∃ r, ms x = { t.matchResults x with replay := r }) ∧
      (∀ x, j < x → (ms x).replay = (t.matchResults x).replay) ∧ ms j = m ∧
      (j ∉ D' → m.winnerIdx = o j) ∧ ∀ k, k < j → (ms k).Marked o D' k := by
  have hmarks : ∀ k, k < j → (t.matchResults k).Marked o D k := fun k hk =>
    (h.waiting k (by omega) (by omega)).2.2
  by_cases hsame : m.replay = .loserChange ∧ o j = m.winnerIdx
  · refine ⟨Function.update t.matchResults j m, D, ?_, .inl rfl, ?_, ?_, ?_, ?_, ?_⟩
    · rw [tellParent, if_pos (by simpa using hsame)]
      rfl
    · intro x hx
      rw [update_of_ne hx]
      exact ⟨_, rfl⟩
    · intro x hx
      rw [update_of_ne (by omega)]
    · exact update_self ..
    · exact fun _ => hsame.2.symm
    · intro k hk
      rw [update_of_ne (by omega)]
      exact hmarks k hk
  · have hcond : ¬ (((t.setMatch j m).matchResults j).replay = .loserChange ∧
        o j = ((t.setMatch j m).matchResults j).winnerIdx) := by
      simpa using hsame
    rw [tellParent, if_neg hcond]
    by_cases hj0 : j = 0
    · subst hj0
      refine ⟨Function.update t.matchResults 0 m, insert 0 D, ?_, .inr rfl, ?_, ?_, ?_, ?_, ?_⟩
      · rw [if_neg (by omega)]
        rfl
      · intro x hx
        rw [update_of_ne hx]
        exact ⟨_, rfl⟩
      · intro x hx
        rw [update_of_ne (by omega)]
      · exact update_self ..
      · exact fun hD => absurd (Set.mem_insert 0 D) hD
      · exact fun k hk => absurd hk (by omega)
    · have hp := parent_lt hj0
      obtain ⟨hpl, hmp⟩ := h.waiting_parent hj0 (by omega) (by omega)
      have hjD : j ∉ D := fun hin => absurd (h.changed j hin) (by omega)
      obtain ⟨r, hr, hmr⟩ := hmp.setReplayType hj0 hjD hpl (fun s hs => h.old_ne hj0 hs) (.inl rfl)
      refine ⟨Function.update (Function.update t.matchResults j m) (parent j)
        { t.matchResults (parent j) with replay := r }, insert j D, ?_, .inr rfl, ?_, ?_, ?_, ?_,
        ?_⟩
      · rw [if_pos (by omega), getParent_eq, setMatch_matchResults,
          update_of_ne (by omega), hr]
        rfl
      · intro x hx
        by_cases hxp : x = parent j
        · subst hxp
          exact ⟨r, update_self ..⟩
        · rw [update_of_ne hxp, update_of_ne hx]
          exact ⟨_, rfl⟩
      · intro x hx
        rw [update_of_ne (by omega), update_of_ne (by omega)]
      · rw [update_of_ne (by omega), update_self]
      · exact fun hD => absurd (Set.mem_insert j D) hD
      · intro k hk
        by_cases hkp : k = parent j
        · subst hkp
          rw [update_self]
          exact hmr
        · rw [update_of_ne hkp, update_of_ne (by omega)]
          exact (hmarks k hk).insert_of_ne (Ne.symm hkp)

/-- **One round of the rebuild** moves the stage by one match. -/
theorem replayMatch_spec (hduel : DuelSpec key iterIdx duel) (hf : t.Frame iterIdx)
    (h : t.InStage key iterIdx o D (j + 1)) (hj : j < t.leafOffset) :
    ∃ ms D', t.replayMatch duel j = .ok { t with matchResults := ms } ∧
      Stage t.leafOffset t.slots (t.slotRank key iterIdx) (t.slotKey key) o D' j ms := by
  obtain ⟨hwin, hold, hmark⟩ := h.waiting j (by omega) hj
  by_cases hr : (t.matchResults j).replay = .noChange
  · refine ⟨t.matchResults, D, ?_, ?_⟩
    · rw [replayMatch]
      simp only [hr, if_true]
    · -- no side has changed, so the old result is right
      have hquiet := hmark.quiet.mp hr
      have hl := h.kept (2 * j + 1) (by omega) (hquiet _ (by omega) (parent_left j))
      have hr' := h.kept (2 * j + 2) (by omega) (hquiet _ (by omega) (parent_right j))
      refine h.advance hj (.inl rfl) (fun x _ => ⟨_, rfl⟩) (fun x _ => rfl) ?_ hr (fun _ => hwin)
        fun k hk => (h.waiting k (by omega) (by omega)).2.2
      rw [hl, hr']
      exact hold
  · obtain ⟨m, hm, hmr, hmp⟩ := getMatchResult_spec hduel hf hj
      (fun s hs => (h.located (2 * j + 1) s hs).2) (fun s hs => (h.located (2 * j + 2) s hs).2)
      (fun s hs => by
        have := h.winner_ne (show 2 * j + 1 ≠ 0 by omega) hs
        rwa [sibling_left] at this)
    have hcode : t.replayMatch duel j = (do
        let t' ← (t.setMatch j m).tellParent j (t.matchResults j).winnerIdx
        return t'.setMatch j { t'.matchResults j with replay := .noChange }) := by
      rw [replayMatch, if_neg hr]
      simp only [getLeft, getRight, hm, bind, Except.bind]
    rw [hcode, hwin]
    obtain ⟨ms, D', htell, hD, hsame, hrep, hmj, hkept, hmarks⟩ := tellParent_spec (m := m) h hj
    rw [htell]
    refine ⟨Function.update ms j { m with replay := .noChange }, D', ?_, ?_⟩
    · simp [bind, Except.bind, pure, Except.pure, setMatch, hmj]
    · refine h.advance hj hD ?_ ?_ ?_ ?_ ?_ ?_
      · intro x hx
        rw [update_of_ne hx]
        exact hsame x hx
      · intro x hx
        rw [update_of_ne (by omega)]
        exact hrep x hx
      · rw [update_self]
        exact hmp
      · rw [update_self]
      · rw [update_self]
        exact hkept
      · intro k hk
        rw [update_of_ne (by omega)]
        exact hmarks k hk

/-- **The rebuild loop** plays every match below `j` again. -/
theorem replayMatches_spec (hduel : DuelSpec key iterIdx duel) (hf : t.Frame iterIdx)
    (h : t.InStage key iterIdx o D j) (hj : j ≤ t.leafOffset) :
    ∃ ms D', replayMatches duel j t = .ok { t with matchResults := ms } ∧
      Stage t.leafOffset t.slots (t.slotRank key iterIdx) (t.slotKey key) o D' 0 ms := by
  induction j generalizing t D with
  | zero => exact ⟨t.matchResults, D, rfl, h⟩
  | succ j ih =>
    obtain ⟨ms, D', hstep, hstage⟩ := replayMatch_spec hduel hf h (by omega)
    obtain ⟨ms', D'', hrun, hstage'⟩ := ih (t := { t with matchResults := ms })
      ⟨hf.pos, hf.fits, hf.freeCnt, hf.freeLt, hf.freeInj, hf.apart⟩ hstage (by
        show j ≤ t.leafOffset
        omega)
    refine ⟨ms', D'', ?_, hstage'⟩
    rw [replayMatches, hstep]
    exact hrun

theorem drawOnPath_iff {ms : ℕ → MatchResult} {fuel child : ℕ} (hfuel : child ≤ fuel) :
    drawOnPath ms fuel child = true ↔
      ∃ c, c ≠ 0 ∧ Under child c ∧ (ms (parent c)).isDraw = true := by
  induction fuel generalizing child with
  | zero =>
    obtain rfl : child = 0 := by omega
    simp only [drawOnPath, Bool.false_eq_true, false_iff]
    rintro ⟨c, hc, hu, -⟩
    exact hc (Nat.le_zero.mp hu.le)
  | succ fuel ih =>
    rw [drawOnPath]
    by_cases h0 : child = 0
    · subst h0
      simp only [if_true, Bool.false_eq_true, false_iff]
      rintro ⟨c, hc, hu, -⟩
      exact hc (Nat.le_zero.mp hu.le)
    · rw [if_neg h0, getParent_eq]
      have hp := parent_lt h0
      by_cases hd : (ms (parent child)).isDraw = true
      · simp only [hd, if_true, true_iff]
        exact ⟨child, h0, .refl, hd⟩
      · rw [if_neg hd, ih (by omega)]
        constructor
        · rintro ⟨c, hc, hu, hdc⟩
          exact ⟨c, hc, (Under.up .refl h0).trans hu, hdc⟩
        · rintro ⟨c, hc, hu, hdc⟩
          by_cases hcc : child = c
          · exact absurd (hcc ▸ hdc) hd
          · exact ⟨c, hc, (hu.parent_of_ne hcc).2, hdc⟩

/-- No match of the tree waits. -/
abbrev AtRest (key : T → κ) (iterIdx : T → ℤ) (t : ObLoserTree T) : Prop :=
  Stage.Rest t.leafOffset t.slots (t.slotRank key iterIdx) (t.slotKey key) t.matchResults

theorem Frame.slot_le (hf : t.Frame iterIdx) {s : ℕ} (hs : s ∈ t.slots) : s ≤ t.leafOffset := by
  have := mem_slots_lt hs
  have := hf.fits
  omega

theorem slotKey_mono {x y : ℕ} (h : t.slotRank key iterIdx x ≤ t.slotRank key iterIdx y) :
    t.slotKey key x ≤ t.slotKey key y :=
  Prod.Lex.monotone_fst _ _ h

/-- The flag says that no other player has the champion's key. -/
def FlagRight (key : T → κ) (t : ObLoserTree T) : Prop :=
  t.isUniqueChampion = true ↔ ∀ z, (t.matchResults 0).winnerIdx = some z →
    ∀ s ∈ t.slots, s ≠ z → t.slotKey key s ≠ t.slotKey key z

/-- `set_unique_champion` sets the flag right. -/
theorem setUniqueChampion_flag (hf : t.Frame iterIdx) (h : t.AtRest key iterIdx) :
    t.setUniqueChampion.FlagRight key := by
  show t.uniqueChampion = true ↔ ∀ z, (t.matchResults 0).winnerIdx = some z →
    ∀ s ∈ t.slots, s ≠ z → t.slotKey key s ≠ t.slotKey key z
  unfold uniqueChampion
  rcases Option.eq_none_or_eq_some (t.matchResults 0).winnerIdx with hz | ⟨z, hz⟩
  · simp [hz]
  · have hzlive := (h.located 0 z hz).2
    have hdraw := h.draw_iff (fun s => hf.slot_le) (fun _ _ => slotKey_mono) hz
    simp only [hz, mem_slots_lt hzlive, if_true, Bool.not_eq_true']
    rw [← Bool.not_eq_true, drawOnPath_iff le_rfl]
    unfold getLeaf
    rw [hdraw]
    constructor
    · intro hno z' hz' s hs hsz hk
      obtain rfl := Option.some.inj hz'
      exact hno ⟨s, hs, hsz, hk⟩
    · rintro hall ⟨s, hs, hsz, hk⟩
      exact hall z rfl s hs hsz hk

/-- **The path loop** puts the best player of the rest at every match above `child`. -/
theorem replayPath_spec (hduel : DuelSpec key iterIdx duel) (hf : t.Frame iterIdx) {live : Finset ℕ}
    (hsub : live ⊆ t.slots) {fuel child : ℕ} (hfuel : child ≤ fuel)
    (hchild : child ≤ 2 * t.leafOffset)
    (h : Climb t.leafOffset live (t.slotRank key iterIdx) (t.slotKey key) child t.matchResults) :
    ∃ ms, replayPath duel fuel child t = .ok { t with matchResults := ms } ∧
      Stage.Rest t.leafOffset live (t.slotRank key iterIdx) (t.slotKey key) ms := by
  induction fuel generalizing t child with
  | zero =>
    obtain rfl : child = 0 := by omega
    exact ⟨t.matchResults, rfl, h.rest⟩
  | succ fuel ih =>
    rw [replayPath]
    by_cases h0 : child = 0
    · subst h0
      exact ⟨t.matchResults, rfl, h.rest⟩
    · have hp := parent_lt h0
      have hpL : parent child < t.leafOffset := by
        unfold parent
        omega
      have hl := h.loser child h0 .refl
      have hside : ∀ s, (t.matchResults (sibling child)).winnerIdx = some s →
          Under (t.leafOffset + s) (sibling child) ∧ s ∈ live :=
        fun s hs => h.located _ s (fun hu => absurd hu (Under.not_sibling h0)) hs
      have hne : ∀ s, (t.matchResults child).winnerIdx = some s →
          (t.matchResults (sibling child)).winnerIdx ≠ some s := fun s hs hs' =>
        (h.located child s (fun _ => rfl) hs).1.disjoint h0 (hside s hs').1
      have hcond : ¬ ((t.matchResults child).winnerIdx =
          (t.matchResults (getParent child)).loserIdx ∧
            (t.matchResults child).winnerIdx ≠ none) := by
        rintro ⟨heq, hsome⟩
        obtain ⟨s, hs⟩ := Option.ne_none_iff_exists'.mp hsome
        exact hne s hs ((heq.trans hl).symm.trans hs)
      obtain ⟨m, hm, hmr, hmp⟩ := getMatchResult_spec hduel hf hpL
        (fun s hs => hsub (h.located child s (fun _ => rfl) hs).2) (fun s hs => hsub (hside s hs).2)
        hne
      obtain ⟨ms, hrun, hrest⟩ := ih (t := t.setMatch (parent child) m)
        ⟨hf.pos, hf.fits, hf.freeCnt, hf.freeLt, hf.freeInj, hf.apart⟩ hsub
        (show parent child ≤ fuel by omega) (by show parent child ≤ 2 * t.leafOffset; omega)
        (h.step h0 hpL hmp (hmr.trans (h.quiet _ hpL)))
      refine ⟨ms, ?_, hrest⟩
      rw [if_neg h0]
      simp only [hcond, if_false]
      rw [getParent_eq, hl, hm]
      exact hrun

/-- `update_champion_path` for the champion. -/
theorem updateChampionPath_spec (hduel : DuelSpec key iterIdx duel) (hf : t.Frame iterIdx)
    (h : t.AtRest key iterIdx) {z : ℕ} (hz : (t.matchResults 0).winnerIdx = some z) :
    ∃ ms, t.updateChampionPath duel z = .ok { t with matchResults := ms } ∧
      Stage.Rest t.leafOffset (t.slots.erase z) (t.slotRank key iterIdx) (t.slotKey key) ms := by
  have hzL := hf.slot_le (h.located 0 z hz).2
  have hstart := Climb.start h hzL hz (m := { t.matchResults (t.getLeaf z) with
    winnerIdx := none, loserIdx := none }) rfl
  exact replayPath_spec (t := t.setMatch (t.getLeaf z) _) hduel
    ⟨hf.pos, hf.fits, hf.freeCnt, hf.freeLt, hf.freeInj, hf.apart⟩ (Finset.erase_subset z t.slots)
    le_rfl (by show t.leafOffset + z ≤ 2 * t.leafOffset; omega) hstart

/-! ### The live players -/

/-- The players that are in the tree. -/
def liveItems (t : ObLoserTree T) : Multiset T := t.slots.val.map t.players

theorem mem_liveItems : x ∈ t.liveItems ↔ ∃ s ∈ t.slots, t.players s = x :=
  Multiset.mem_map

theorem Frame.card_slots (hf : t.Frame iterIdx) : t.slots.card = t.playerCnt - t.curFreeCnt := by
  have hsub : (Finset.range t.curFreeCnt).image t.freePlayers ⊆ Finset.range t.playerCnt := by
    intro s hs
    obtain ⟨i, hi, rfl⟩ := Finset.mem_image.mp hs
    exact Finset.mem_range.mpr (hf.freeLt i (Finset.mem_range.mp hi))
  rw [slots, Finset.card_sdiff_of_subset hsub, Finset.card_range, Finset.card_image_of_injOn,
    Finset.card_range]
  intro i hi i' hi' heq
  exact hf.freeInj i i' (by simpa using hi) (by simpa using hi') heq

theorem next_notMem (hfree : t.curFreeCnt ≠ 0) :
    t.freePlayers (t.curFreeCnt - 1) ∉ t.slots := by
  intro hs
  refine (Finset.mem_sdiff.mp hs).2 (Finset.mem_image_of_mem _ (Finset.mem_range.mpr ?_))
  omega

/-- Taking the last free slot. -/
theorem Frame.slots_take (hf : t.Frame iterIdx) (hfree : t.curFreeCnt ≠ 0) :
    Finset.range t.playerCnt \ (Finset.range (t.curFreeCnt - 1)).image t.freePlayers =
      insert (t.freePlayers (t.curFreeCnt - 1)) t.slots := by
  ext s
  simp only [slots, Finset.mem_sdiff, Finset.mem_range, Finset.mem_image, Finset.mem_insert,
    not_exists, not_and]
  constructor
  · rintro ⟨hs, hno⟩
    by_cases hlast : s = t.freePlayers (t.curFreeCnt - 1)
    · exact .inl hlast
    · refine .inr ⟨hs, fun i hi his => ?_⟩
      by_cases hi' : i = t.curFreeCnt - 1
      · exact hlast (hi' ▸ his.symm)
      · exact hno i (by omega) his
  · rintro (rfl | ⟨hs, hno⟩)
    · refine ⟨hf.freeLt _ (by omega), fun i hi heq => ?_⟩
      have := hf.freeInj i _ (by omega) (by omega) heq
      omega
    · exact ⟨hs, fun i hi => hno i (by omega)⟩

/-- Giving a slot back. -/
theorem slots_give (z : ℕ) :
    Finset.range t.playerCnt \ (Finset.range (t.curFreeCnt + 1)).image
      (Function.update t.freePlayers t.curFreeCnt z) = t.slots.erase z := by
  ext s
  simp only [slots, Finset.mem_sdiff, Finset.mem_range, Finset.mem_image, Finset.mem_erase,
    not_exists, not_and]
  constructor
  · rintro ⟨hs, hno⟩
    refine ⟨fun hsz => hno t.curFreeCnt (by omega) ?_, hs, fun i hi his => hno i (by omega) ?_⟩
    · rw [update_self, hsz]
    · rw [update_of_ne (by omega), his]
  · rintro ⟨hsz, hs, hno⟩
    refine ⟨hs, fun i hi his => ?_⟩
    by_cases hic : i = t.curFreeCnt
    · subst hic
      rw [update_self] at his
      exact hsz his.symm
    · rw [update_of_ne hic] at his
      exact hno i (by omega) his

/-- The tree after the champion of slot `z` has left and the matches have become `ms`. -/
def popped (t : ObLoserTree T) (z : ℕ) (ms : ℕ → MatchResult) : ObLoserTree T :=
  { t with
    matchResults := ms
    freePlayers := Function.update t.freePlayers t.curFreeCnt z
    curFreeCnt := t.curFreeCnt + 1 }

/-- The frame after `pop`. -/
theorem Frame.pop (hf : t.Frame iterIdx) {z : ℕ} (hz : z ∈ t.slots) (ms : ℕ → MatchResult) :
    (t.popped z ms).Frame iterIdx ∧ (t.popped z ms).slots = t.slots.erase z := by
  have hslots : (t.popped z ms).slots = t.slots.erase z := slots_give z
  refine ⟨?_, hslots⟩
  have hzfree : ∀ i, i < t.curFreeCnt → t.freePlayers i ≠ z := fun i hi heq =>
    (Finset.mem_sdiff.mp hz).2 (heq ▸ Finset.mem_image_of_mem _ (Finset.mem_range.mpr hi))
  have hcases : ∀ i, i < t.curFreeCnt + 1 → (i = t.curFreeCnt ∧ (t.popped z ms).freePlayers i = z) ∨
      (i < t.curFreeCnt ∧ (t.popped z ms).freePlayers i = t.freePlayers i) := by
    intro i hi
    by_cases hic : i = t.curFreeCnt
    · subst hic
      exact .inl ⟨rfl, update_self ..⟩
    · exact .inr ⟨by omega, update_of_ne hic ..⟩
  constructor
  · exact hf.pos
  · exact hf.fits
  · show t.curFreeCnt + 1 ≤ t.playerCnt
    have hcard := hf.card_slots
    have := Finset.card_pos.mpr ⟨z, hz⟩
    omega
  · intro i hi
    rcases hcases i hi with ⟨-, heq⟩ | ⟨hi, heq⟩
    · rw [heq]
      exact mem_slots_lt (t := t) hz
    · rw [heq]
      exact hf.freeLt i hi
  · intro i i' hi hi' h
    rcases hcases i hi with ⟨hic, heq⟩ | ⟨hic, heq⟩ <;>
      rcases hcases i' hi' with ⟨hic', heq'⟩ | ⟨hic', heq'⟩ <;> rw [heq, heq'] at h
    · omega
    · exact absurd h.symm (hzfree i' hic')
    · exact absurd h (hzfree i hic)
    · exact hf.freeInj i i' hic hic' h
  · rw [hslots]
    exact fun s hs s' hs' =>
      hf.apart s (Finset.mem_of_mem_erase hs) s' (Finset.mem_of_mem_erase hs')

/-! ### The operations -/

/-- The invariant of a loser tree that orders its players by `key` and then by `iterIdx`. -/
structure Valid (key : T → κ) (iterIdx : T → ℤ) (t : ObLoserTree T) : Prop where
  frame : t.Frame iterIdx
  pending : t.needRebuild = true → t.curFreeCnt < t.playerCnt
  stage : t.playerCnt ≠ 1 → ∃ o D, t.InStage key iterIdx o D t.leafOffset
  rest : t.playerCnt ≠ 1 → t.needRebuild = false → t.AtRest key iterIdx ∧ t.FlagRight key
  single : t.playerCnt = 1 → t.isUniqueChampion = true ∧ t.freePlayers 0 = 0

theorem Valid.card_liveItems (h : t.Valid key iterIdx) : t.liveItems.card = t.count := by
  rw [liveItems, Multiset.card_map, Finset.card_val, h.frame.card_slots, count]

theorem Valid.empty_iff (h : t.Valid key iterIdx) : t.empty = true ↔ t.liveItems = 0 := by
  have hle := h.frame.freeCnt
  rw [← Multiset.card_eq_zero, h.card_liveItems, empty, count, beq_iff_eq]
  omega

/-- A player put into a free slot. -/
theorem map_update_insert {s : Finset ℕ} {i : ℕ} (hi : i ∉ s) (f : ℕ → T) (x : T) :
    (insert i s).val.map (Function.update f i x) = x ::ₘ s.val.map f := by
  rw [Finset.insert_val_of_notMem hi, Multiset.map_cons, update_self]
  congr 1
  refine Multiset.map_congr rfl fun j hj => update_of_ne ?_ _ _
  rintro rfl
  exact hi hj

/-- The tree after `push` of `x`, when the first match of its slot has become `m`. -/
def pushed (t : ObLoserTree T) (x : T) (m : MatchResult) : ObLoserTree T :=
  let idx := t.freePlayers (t.curFreeCnt - 1)
  let t' := t.setMatch (getParent (t.getLeaf idx)) m
  { t'.setMatch (t.getLeaf idx) { t'.matchResults (t.getLeaf idx) with
      winnerIdx := some idx, loserIdx := some idx } with
    players := Function.update t.players idx x
    curFreeCnt := t.curFreeCnt - 1
    needRebuild := true }

/-- The frame after `push`. -/
theorem Frame.push (hf : t.Frame iterIdx) (hfree : t.curFreeCnt ≠ 0)
    (hnew : ∀ y ∈ t.liveItems, iterIdx y ≠ iterIdx x) {u : ObLoserTree T}
    (hpc : u.playerCnt = t.playerCnt) (hlo : u.leafOffset = t.leafOffset)
    (hfp : u.freePlayers = t.freePlayers) (hcf : u.curFreeCnt = t.curFreeCnt - 1)
    (hpl : u.players = Function.update t.players (t.freePlayers (t.curFreeCnt - 1)) x) :
    u.Frame iterIdx ∧ u.slots = insert (t.freePlayers (t.curFreeCnt - 1)) t.slots ∧
      u.liveItems = x ::ₘ t.liveItems := by
  have hslots : u.slots = insert (t.freePlayers (t.curFreeCnt - 1)) t.slots := by
    rw [slots, hpc, hcf, hfp]
    exact hf.slots_take hfree
  have hidx := next_notMem hfree
  refine ⟨?_, hslots, ?_⟩
  · constructor
    · rw [hpc]
      exact hf.pos
    · rw [hpc, hlo]
      exact hf.fits
    · have := hf.freeCnt
      omega
    · intro i hi
      rw [hfp, hpc]
      exact hf.freeLt i (by omega)
    · intro i i' hi hi'
      rw [hfp]
      exact hf.freeInj i i' (by omega) (by omega)
    · -- the new player is apart from the others, which have kept their slots
      have hold : ∀ s ∈ t.slots, u.players s = t.players s := by
        intro s hs
        rw [hpl, update_of_ne]
        rintro rfl
        exact hidx hs
      have hself : u.players (t.freePlayers (t.curFreeCnt - 1)) = x := by
        rw [hpl, update_self]
      intro s hs s' hs' hne
      rw [hslots, Finset.mem_insert] at hs hs'
      rcases hs with rfl | hs <;> rcases hs' with rfl | hs'
      · exact absurd rfl hne
      · rw [hself, hold s' hs']
        exact (hnew _ (mem_liveItems.mpr ⟨s', hs', rfl⟩)).symm
      · rw [hself, hold s hs]
        exact hnew _ (mem_liveItems.mpr ⟨s, hs, rfl⟩)
      · rw [hold s hs, hold s' hs']
        exact hf.apart s hs s' hs' hne
  · rw [liveItems, hslots, hpl, map_update_insert hidx, liveItems]

/-- **`push`** adds a player that is apart from the live ones. -/
theorem push_spec (h : t.Valid key iterIdx) (hroom : t.liveItems.card < t.playerCnt)
    (hnew : ∀ y ∈ t.liveItems, iterIdx y ≠ iterIdx x) :
    ∃ t', t.push x = .ok t' ∧ t'.Valid key iterIdx ∧ t'.liveItems = x ::ₘ t.liveItems ∧
      t'.playerCnt = t.playerCnt ∧ t'.needRebuild = true := by
  have hfree : t.curFreeCnt ≠ 0 := by
    rw [h.card_liveItems, count] at hroom
    have := h.frame.freeCnt
    omega
  have hle := h.frame.freeCnt
  by_cases hone : t.playerCnt = 1
  · have hslot : t.freePlayers (t.curFreeCnt - 1) = 0 := by
      have := h.frame.freeLt (t.curFreeCnt - 1) (by omega)
      omega
    have hsingle : t.isSinglePlayer = true := by rw [isSinglePlayer, hone]; rfl
    obtain ⟨hf, -, hlive⟩ := h.frame.push (x := x) (u := { t with
      players := Function.update t.players 0 x
      curFreeCnt := t.curFreeCnt - 1
      needRebuild := true }) hfree hnew rfl rfl rfl rfl (by rw [hslot])
    refine ⟨_, by rw [push, if_neg hfree, if_pos hsingle], ?_, hlive, rfl, rfl⟩
    refine ⟨hf, fun _ => ?_, fun hn => absurd hone hn, fun hn => absurd hone hn, h.single⟩
    show t.curFreeCnt - 1 < t.playerCnt
    omega
  · obtain ⟨o, D, hstage⟩ := h.stage hone
    have hidx := next_notMem hfree
    have hlt := h.frame.freeLt (t.curFreeCnt - 1) (by omega)
    have hfits := h.frame.fits
    have hpos := h.frame.pos
    have hsingle : ¬ t.isSinglePlayer = true := by simpa [isSinglePlayer] using hone
    have hsame : ∀ s ∈ t.slots,
        (t.pushed x .reset).slotRank key iterIdx s = t.slotRank key iterIdx s ∧
          (t.pushed x .reset).slotKey key s = t.slotKey key s := by
      intro s hs
      have : Function.update t.players (t.freePlayers (t.curFreeCnt - 1)) x s = t.players s := by
        refine update_of_ne ?_ _ _
        rintro rfl
        exact hidx hs
      simp only [slotRank, slotKey, pushed, setMatch, this, and_self]
    obtain ⟨r, hr, hstage'⟩ := hstage.push (by omega) (by omega) hidx hsame
    obtain ⟨hf, hslots, hlive⟩ := h.frame.push (x := x) (u := t.pushed x
      { t.matchResults (parent (t.leafOffset + t.freePlayers (t.curFreeCnt - 1))) with
        replay := r }) hfree hnew rfl rfl rfl rfl rfl
    refine ⟨_, ?_, ?_, hlive, rfl, rfl⟩
    · rw [push, if_neg hfree, if_neg hsingle]
      simp only [getLeaf, getParent_eq, hr]
      rfl
    · refine ⟨hf, fun _ => ?_, fun _ => ?_, fun _ hno => ?_, fun h1 => absurd h1 hone⟩
      · show t.curFreeCnt - 1 < t.playerCnt
        omega
      · refine ⟨o, insert (t.leafOffset + t.freePlayers (t.curFreeCnt - 1)) D, ?_⟩
        rw [InStage, hslots]
        refine hstage' _ ?_
        rfl
      · exact absurd hno (by simp [pushed])

/-- **`rebuild`** keeps the players and brings the tree to rest. -/
theorem rebuild_spec (hduel : DuelSpec key iterIdx duel) (h : t.Valid key iterIdx) :
    ∃ t', t.rebuild duel = .ok t' ∧ t'.Valid key iterIdx ∧ t'.liveItems = t.liveItems ∧
      t'.playerCnt = t.playerCnt ∧ t'.needRebuild = false := by
  by_cases hone : t.playerCnt = 1
  · have hsingle : t.isSinglePlayer = true := by rw [isSinglePlayer, hone]; rfl
    have hf := h.frame
    refine ⟨{ t with needRebuild := false }, by rw [rebuild, if_pos hsingle], ?_, rfl, rfl, rfl⟩
    exact ⟨⟨hf.pos, hf.fits, hf.freeCnt, hf.freeLt, hf.freeInj, hf.apart⟩,
      fun hp => absurd hp (by simp), fun hn => absurd hone hn, fun hn => absurd hone hn, h.single⟩
  · have hsingle : ¬ t.isSinglePlayer = true := by simpa [isSinglePlayer] using hone
    rw [rebuild, if_neg hsingle]
    by_cases hneed : t.needRebuild = true
    · have hempty : ¬ t.empty = true := by
        have := h.pending hneed
        simp only [empty, beq_iff_eq]
        omega
      obtain ⟨o, D, hstage⟩ := h.stage hone
      obtain ⟨ms, D', hrun, hstage'⟩ := replayMatches_spec hduel h.frame hstage le_rfl
      have hf : ({ t with matchResults := ms } : ObLoserTree T).Frame iterIdx :=
        ⟨h.frame.pos, h.frame.fits, h.frame.freeCnt, h.frame.freeLt, h.frame.freeInj,
          h.frame.apart⟩
      have hrest : ({ t with matchResults := ms } : ObLoserTree T).AtRest key iterIdx :=
        hstage'.rest
      have hflag := setUniqueChampion_flag hf hrest
      refine ⟨{ ({ t with matchResults := ms } : ObLoserTree T).setUniqueChampion with
        needRebuild := false }, ?_, ?_, rfl, rfl, rfl⟩
      · rw [if_neg (by simp [hneed]), if_neg hempty, innerRebuild, hrun]
        rfl
      · exact ⟨⟨hf.pos, hf.fits, hf.freeCnt, hf.freeLt, hf.freeInj, hf.apart⟩,
          fun hp => absurd hp (by simp), fun _ => ⟨_, _, hrest⟩, fun _ _ => ⟨hrest, hflag⟩,
          fun h1 => absurd h1 hone⟩
    · refine ⟨t, ?_, h, rfl, rfl, by simpa using hneed⟩
      simp [hneed]

/-- Without a pending push, a tree with players has the least one at the top. -/
theorem Valid.exists_champion (h : t.Valid key iterIdx) (hneed : t.needRebuild = false)
    (hone : t.playerCnt ≠ 1) (hlive : t.liveItems ≠ 0) :
    ∃ z ∈ t.slots, (t.matchResults 0).winnerIdx = some z ∧
      t.liveItems = t.players z ::ₘ (t.slots.erase z).val.map t.players ∧
      (∀ s ∈ t.slots, t.slotRank key iterIdx z ≤ t.slotRank key iterIdx s) ∧
      (t.isUniqueChampion = true ↔
        ∀ y ∈ (t.slots.erase z).val.map t.players, key y ≠ key (t.players z)) := by
  obtain ⟨hrest, hflag⟩ := h.rest hone hneed
  have hne : t.slots.Nonempty := by
    rw [Finset.nonempty_iff_ne_empty]
    rintro hempty
    exact hlive (by rw [liveItems, hempty]; rfl)
  obtain ⟨z, hz, hwin, hmin⟩ := hrest.champion (fun s => h.frame.slot_le) hne
  refine ⟨z, hz, hwin, ?_, hmin, ?_⟩
  · have hval : t.slots.val = z ::ₘ (t.slots.erase z).val := by
      rw [← Finset.insert_val_of_notMem (Finset.notMem_erase z t.slots), Finset.insert_erase hz]
    rw [liveItems, hval, Multiset.map_cons]
  · rw [FlagRight] at hflag
    rw [hflag]
    constructor
    · intro hall y hy
      obtain ⟨s, hs, rfl⟩ := Multiset.mem_map.mp hy
      obtain ⟨hsz, hs⟩ := Finset.mem_erase.mp (Finset.mem_val.mp hs)
      exact hall z hwin s hs hsz
    · intro hall z' hz' s hs hsz
      rw [hwin] at hz'
      obtain rfl := Option.some.inj hz'
      exact hall _ (Multiset.mem_map_of_mem _ (Finset.mem_erase.mpr ⟨hsz, hs⟩))

/-- What `top` and `pop` do to a tree at rest. -/
structure TopSpec (key : T → κ) (iterIdx : T → ℤ)
    (duel : ObLoserTree T → T → T → ℕ → ObResult (Bool × Bool)) (t : ObLoserTree T) (x : T)
    (rest : Multiset T) : Prop where
  liveItems_eq : t.liveItems = x ::ₘ rest
  least : ∀ y ∈ rest, toLex (key x, iterIdx x) ≤ toLex (key y, iterIdx y)
  unique : t.isUniqueChampion = true ↔ ∀ y ∈ rest, key y ≠ key x
  top_eq : t.top = .ok x
  pop_eq : ∃ t', t.pop duel = .ok t' ∧ t'.Valid key iterIdx ∧ t'.liveItems = rest ∧
    t'.playerCnt = t.playerCnt ∧ t'.needRebuild = false

/-- **`top` and `pop`** on a tree with players and no pending push. -/
theorem top_pop_spec (hduel : DuelSpec key iterIdx duel) (h : t.Valid key iterIdx)
    (hneed : t.needRebuild = false) (hlive : t.liveItems ≠ 0) :
    ∃ x rest, TopSpec key iterIdx duel t x rest := by
  have hempty : ¬ t.empty = true := fun he => hlive (h.empty_iff.mp he)
  have hneed' : ¬ t.needRebuild = true := by simp [hneed]
  by_cases hone : t.playerCnt = 1
  · -- the only slot is taken
    have hsingle : t.isSinglePlayer = true := by rw [isSinglePlayer, hone]; rfl
    have hf := h.frame
    have hcf : t.curFreeCnt = 0 := by
      have hc := h.card_liveItems
      have := Multiset.card_pos.mpr hlive
      rw [count] at hc
      omega
    have hslots : t.slots = {0} := by rw [slots, hone, hcf]; rfl
    have hlive' : t.liveItems = t.players 0 ::ₘ 0 := by rw [liveItems, hslots]; rfl
    refine ⟨t.players 0, 0, hlive', by simp, by simp [(h.single hone).1], ?_, ?_⟩
    · rw [top, if_neg hneed', if_neg hempty, if_pos hsingle]
    · refine ⟨{ t with curFreeCnt := t.playerCnt }, ?_, ?_, ?_, rfl, hneed⟩
      · rw [pop, if_neg hneed', if_neg hempty, if_pos hsingle]
      · have hzero : ∀ i, i < t.playerCnt → i = 0 := fun i hi => by omega
        have hslots' : ({ t with curFreeCnt := t.playerCnt } : ObLoserTree T).slots = ∅ := by
          rw [slots, hone, Finset.range_one, Finset.image_singleton, (h.single hone).2]
          rfl
        refine ⟨⟨hf.pos, hf.fits, le_rfl, fun i hi => ?_, fun i i' hi hi' _ => ?_, ?_⟩,
          fun hp => absurd hp hneed', fun hn => absurd hone hn, fun hn => absurd hone hn, h.single⟩
        · show t.freePlayers i < t.playerCnt
          rw [hzero i hi, (h.single hone).2]
          exact hf.pos
        · rw [hzero i hi, hzero i' hi']
        · rw [hslots']
          simp
      · rw [liveItems, slots, hone, Finset.range_one, Finset.image_singleton, (h.single hone).2]
        rfl
  · have hsingle : ¬ t.isSinglePlayer = true := by simpa [isSinglePlayer] using hone
    obtain ⟨z, hz, hwin, hlive', hmin, huniq⟩ := h.exists_champion hneed hone hlive
    have hzlt : ¬ t.playerCnt ≤ z := by
      have := mem_slots_lt hz
      omega
    refine ⟨t.players z, (t.slots.erase z).val.map t.players, hlive', ?_, huniq, ?_, ?_⟩
    · intro y hy
      obtain ⟨s, hs, rfl⟩ := Multiset.mem_map.mp hy
      exact hmin s (Finset.mem_of_mem_erase hs)
    · rw [top, if_neg hneed', if_neg hempty, if_neg hsingle]
      simp only [hwin, if_neg hzlt]
    · obtain ⟨ms, hrun, hrest⟩ := updateChampionPath_spec hduel h.frame (h.rest hone hneed).1 hwin
      obtain ⟨hf, hslots⟩ := h.frame.pop hz ms
      have hrest' : (t.popped z ms).AtRest key iterIdx := by
        rw [AtRest, hslots]
        exact hrest
      refine ⟨(t.popped z ms).setUniqueChampion, ?_, ?_, ?_, rfl, hneed⟩
      · rw [pop, if_neg hneed', if_neg hempty, if_neg hsingle]
        simp only [hwin, if_neg hzlt, hrun]
        rfl
      · exact ⟨⟨hf.pos, hf.fits, hf.freeCnt, hf.freeLt, hf.freeInj, hf.apart⟩,
          fun hp => absurd hp hneed', fun _ => ⟨_, _, hrest'⟩,
          fun _ _ => ⟨hrest', setUniqueChampion_flag hf hrest'⟩, fun h1 => absurd h1 hone⟩
      · show (t.popped z ms).slots.val.map t.players = _
        rw [hslots]

theorem top_empty (h : t.Valid key iterIdx) (hneed : t.needRebuild = false)
    (hlive : t.liveItems = 0) : t.top = .error .emptyResult := by
  rw [top, if_neg (by simp [hneed]), if_pos (h.empty_iff.mpr hlive)]

theorem pop_empty (h : t.Valid key iterIdx) (hneed : t.needRebuild = false)
    (hlive : t.liveItems = 0) : t.pop duel = .error .emptyResult := by
  rw [pop, if_neg (by simp [hneed]), if_pos (h.empty_iff.mpr hlive)]

theorem le_nextPow2 (n : ℕ) (hn : 1 < n) : n ≤ nextPow2 n := by
  have := Nat.lt_pow_succ_log_self (b := 2) (by omega) (n - 1)
  rw [nextPow2, if_pos hn]
  omega

/-- **A tree that was just opened** is valid and holds no player. -/
theorem initBasicInfo_spec [Inhabited T] {n : ℕ} (hn : 1 ≤ n) (key : T → κ) (iterIdx : T → ℤ) :
    ∃ t : ObLoserTree T, initBasicInfo n = .ok t ∧ t.Valid key iterIdx ∧ t.liveItems = 0 ∧
      t.playerCnt = n ∧ t.needRebuild = false := by
  obtain ⟨t, ht⟩ : ∃ t : ObLoserTree T, initBasicInfo n = .ok t :=
    ⟨_, by rw [initBasicInfo, if_neg (by omega)]⟩
  have hshape := ht
  rw [initBasicInfo, if_neg (by omega)] at hshape
  obtain rfl := Except.ok.inj hshape
  have hslots : Finset.range n \ (Finset.range n).image (fun i => n - 1 - i) = ∅ := by
    refine Finset.sdiff_eq_empty_iff_subset.mpr fun s hs => Finset.mem_image.mpr ⟨n - 1 - s, ?_⟩
    rw [Finset.mem_range] at hs ⊢
    omega
  have hfits : n ≤ (getMatchCnt n - 1) / 2 + 1 := by
    unfold getMatchCnt
    by_cases h1 : n ≤ 1
    · rw [if_pos h1]
      omega
    · have := le_nextPow2 n (by omega)
      rw [if_neg h1]
      omega
  refine ⟨_, ht, ?_, ?_, rfl, rfl⟩
  · have hrest : Stage.Rest ((getMatchCnt n - 1) / 2) ∅
        (fun _ => toLex (key default, iterIdx default)) (fun _ => key default)
        (fun _ => MatchResult.reset) := by
      refine Stage.rest (D := ∅) (o := fun _ => none) ⟨?_, ?_, ?_, ?_, ?_, ?_, ?_, ?_⟩ <;>
        simp [MatchResult.reset]
      exact fun k _ => ⟨.inl ⟨rfl, rfl⟩, by simp, by simp⟩
    refine ⟨⟨hn, hfits, le_rfl, ?_, ?_, ?_⟩, by simp, fun _ => ?_, fun _ _ => ?_, ?_⟩
    · intro i hi
      show n - 1 - i < n
      omega
    · intro i i' hi hi' heq
      change i < n at hi
      change i' < n at hi'
      change n - 1 - i = n - 1 - i' at heq
      omega
    · rw [slots, hslots]
      simp
    · refine ⟨fun _ => none, ∅, ?_⟩
      rw [InStage, slots, hslots]
      exact hrest
    · refine ⟨?_, ?_⟩
      · rw [AtRest, slots, hslots]
        exact hrest
      · simp [FlagRight, MatchResult.reset]
    · intro h1
      refine ⟨rfl, ?_⟩
      show n - 1 - 0 = 0
      change n = 1 at h1
      omega
  · rw [liveItems, slots, hslots]
    rfl

end ObLoserTree

end Andl
