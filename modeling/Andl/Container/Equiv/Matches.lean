import Andl.Container.LoserTree
import Andl.Lib.Tournament

/-!
# The matches of a loser tree
-/

namespace Andl

open Tournament Function

namespace MatchResult

/-- The mark of match `k` when the nodes in `D` have changed their winner since it was played
between the winners `o` has for its two sides. -/
structure Marked (o : ℕ → Option ℕ) (D : Set ℕ) (k : ℕ) (m : MatchResult) : Prop where
  quiet : m.replay = .noChange ↔ ∀ c, c ≠ 0 → parent c = k → c ∉ D
  one : ∀ c, c ≠ 0 → parent c = k → c ∈ D → sibling c ∉ D → m.winnerIdx ≠ none →
    (m.winnerIdx = o c ∧ m.replay = .winnerChange) ∨
      (m.winnerIdx ≠ o c ∧ m.replay = .loserChange)

variable {α κ : Type*} [LT α] {rank : ℕ → α} {key : ℕ → κ}
variable {o : ℕ → Option ℕ} {D : Set ℕ} {m : MatchResult} {c : ℕ} {player : Option ℕ}

/-- A mark of a match all of whose sides have changed says no more than that. -/
theorem Marked.of_both {r : ReplayType} (hc : c ≠ 0) (hr : r ≠ .noChange)
    (hall : sibling c ∈ D ∨ m.winnerIdx = none) :
    Marked o (insert c D) (parent c) { m with replay := r } where
  quiet := by
    constructor
    · exact fun h => absurd h hr
    · exact fun h => absurd (Set.mem_insert c D) (h c hc rfl)
  one := by
    intro c' hc' hp hmem hsib hw
    rcases hall with hs | hnone
    · rcases eq_or_eq_sibling hc' hc hp with rfl | rfl
      · exact absurd (Set.mem_insert_of_mem _ hs) hsib
      · refine absurd ?_ hsib
        rw [sibling_sibling hc]
        exact Set.mem_insert _ _
    · exact absurd hnone hw

theorem Marked.of_one {r : ReplayType} (hc : c ≠ 0) (hs : sibling c ∉ D)
    (hside : (m.winnerIdx = o c ∧ r = .winnerChange) ∨ (m.winnerIdx ≠ o c ∧ r = .loserChange)) :
    Marked o (insert c D) (parent c) { m with replay := r } where
  quiet := by
    have hr : r ≠ .noChange := by
      rcases hside with ⟨-, rfl⟩ | ⟨-, rfl⟩ <;> simp
    exact ⟨fun h => absurd h hr, fun h => absurd (Set.mem_insert c D) (h c hc rfl)⟩
  one := by
    intro c' hc' hp hmem _ _
    rcases eq_or_eq_sibling hc' hc hp with rfl | rfl
    · exact hside
    · rcases Set.mem_insert_iff.mp hmem with heq | hmem
      · exact absurd heq (sibling_ne hc)
      · exact absurd hmem hs

/-- **Telling a match** that the winner of its side `c` changes. -/
theorem Marked.setReplayType (h : Marked o D (parent c) m) (hc : c ≠ 0) (hD : c ∉ D)
    (hout : Outcome rank key (o c) (o (sibling c)) m.winnerIdx m.loserIdx m.isDraw)
    (hne : ∀ s, o c = some s → o (sibling c) ≠ some s)
    (hplayer : player = o c ∨ (o c = none ∧ player ≠ m.winnerIdx ∧
      (sibling c ∈ D → o (sibling c) = none))) :
    ∃ r, m.setReplayType player = .ok { m with replay := r } ∧
      Marked o (insert c D) (parent c) { m with replay := r } := by
  rcases Option.eq_none_or_eq_some m.winnerIdx with hw | ⟨w, hw⟩
  · rw [hw] at hout
    refine ⟨.bothChange, ?_, .of_both (r := .bothChange) hc (by simp) (.inr hw)⟩
    rw [MatchResult.setReplayType, if_pos ⟨hw, hout.eq_none.2.2⟩]
  · have hfirst : ¬ (m.winnerIdx = none ∧ m.loserIdx = none) := by simp [hw]
    rw [MatchResult.setReplayType, if_neg hfirst]
    by_cases hs : sibling c ∈ D
    · -- the other side has changed before, so this one is the side that the mark leaves open
      have hone := h.one (sibling c) (sibling_ne_zero hc) (parent_sibling hc) hs
        (by rwa [sibling_sibling hc]) (by simp [hw])
      refine ⟨.bothChange, ?_, .of_both (r := .bothChange) hc (by simp) (.inl hs)⟩
      rcases hone with ⟨hwin, hr⟩ | ⟨hwin, hr⟩
      · have hp : player = o c := by
          rcases hplayer with hp | ⟨-, -, hp⟩
          · exact hp
          · rw [hp hs, hw] at hwin
            exact absurd hwin (by simp)
        have hoc : o c ≠ some w := fun hoc => hne w hoc (hwin.symm.trans hw)
        have hl : m.loserIdx = o c := by
          rcases hout.sides with ⟨hoc', -⟩ | ⟨-, hl⟩
          · exact absurd (hoc'.symm.trans hw) hoc
          · exact hl
        simp only [hr, hp, hw, hl]
        rw [if_neg (Ne.symm hoc), if_pos trivial]
      · obtain ⟨hwc, hl⟩ : m.winnerIdx = o c ∧ m.loserIdx = o (sibling c) := by
          rcases hout.sides with hwl | ⟨hws, -⟩
          · exact hwl
          · exact absurd hws hwin
        have hoc : o c = some w := hwc.symm.trans hw
        have hp : player = o c := by
          rcases hplayer with hp | ⟨hp, -, -⟩
          · exact hp
          · exact absurd (hp.symm.trans hoc) (by simp)
        simp only [hr, hp, hw, hl, hoc]
        rw [if_neg (hne w hoc), if_pos trivial]
    · -- nothing has changed before
      have hr : m.replay = .noChange := by
        refine h.quiet.mpr fun c' hc' hp => ?_
        rcases eq_or_eq_sibling hc' hc hp with rfl | rfl
        · exact hD
        · exact hs
      by_cases hwc : m.winnerIdx = o c
      · have hp : player = o c := by
          rcases hplayer with hp | ⟨hp, -, -⟩
          · exact hp
          · rw [hp, hw] at hwc
            exact absurd hwc (by simp)
        refine ⟨.winnerChange, ?_, .of_one hc hs (.inl ⟨hwc, rfl⟩)⟩
        simp only [hr]
        rw [if_pos (hwc.trans hp.symm)]
      · have hl : m.loserIdx = o c := by
          rcases hout.sides with ⟨hwc', -⟩ | ⟨-, hl⟩
          · exact absurd hwc' hwc
          · exact hl
        have hp : m.winnerIdx ≠ player ∧ (m.loserIdx = player ∨ m.loserIdx = none) := by
          rcases hplayer with hp | ⟨hp, hpw, -⟩
          · exact ⟨fun h => hwc (h.trans hp), .inl (hl.trans hp.symm)⟩
          · exact ⟨hpw.symm, .inr (hl.trans hp)⟩
        refine ⟨.loserChange, ?_, .of_one hc hs (.inr ⟨hwc, rfl⟩)⟩
        simp only [hr]
        rw [if_neg hp.1, if_pos hp.2]

/-- Changes at other matches do not concern a mark. -/
theorem Marked.insert_of_ne {k : ℕ} (h : Marked o D k m) (hk : parent c ≠ k) :
    Marked o (insert c D) k m := by
  have hmem : ∀ c', parent c' = k → (c' ∈ insert c D ↔ c' ∈ D) := by
    intro c' hc'
    refine ⟨fun hin => (Set.mem_insert_iff.mp hin).resolve_left ?_, Set.mem_insert_of_mem c⟩
    rintro rfl
    exact hk hc'
  constructor
  · rw [h.quiet]
    refine forall_congr' fun c' => forall_congr' fun hc' => forall_congr' fun hp => ?_
    rw [hmem c' hp]
  · intro c' hc' hp hin hout hw
    rw [hmem c' hp] at hin
    rw [hmem _ ((parent_sibling hc').trans hp)] at hout
    exact h.one c' hc' hp hin hout hw

end MatchResult

/-! ### Replaying the marked matches -/

section Stage

variable {κ : Type} [LinearOrder κ]

/-- The result in `m` is right for a match between `a` and `b`. -/
abbrev Played (rank : ℕ → κ ×ₗ ℤ) (key : ℕ → κ) (a b : Option ℕ) (m : MatchResult) : Prop :=
  Outcome rank key a b m.winnerIdx m.loserIdx m.isDraw

/-- The matches of a tree with the leaves `L + s` of the slots `s`, of which those in `live` are
taken, when all from `j` on have been played again. -/
structure Stage (L : ℕ) (live : Finset ℕ) (rank : ℕ → κ ×ₗ ℤ) (key : ℕ → κ)
    (o : ℕ → Option ℕ) (D : Set ℕ) (j : ℕ) (ms : ℕ → MatchResult) : Prop where
  leaf : ∀ s, (ms (L + s)).winnerIdx = if s ∈ live then some s else none
  located : ∀ x s, (ms x).winnerIdx = some s → Under (L + s) x ∧ s ∈ live
  oldLocated : ∀ x s, o x = some s → Under (L + s) x ∧ s ∈ live
  kept : ∀ x, j ≤ x → x ∉ D → (ms x).winnerIdx = o x
  changed : ∀ x ∈ D, j ≤ x
  news : ∀ s, L + s ∈ D → s ∈ live ∧ o (L + s) = none
  played : ∀ k, j ≤ k → k < L →
    Played rank key (ms (2 * k + 1)).winnerIdx (ms (2 * k + 2)).winnerIdx (ms k) ∧
      (ms k).replay = .noChange
  waiting : ∀ k, k < j → k < L →
    (ms k).winnerIdx = o k ∧ Played rank key (o (2 * k + 1)) (o (2 * k + 2)) (ms k) ∧
      (ms k).Marked o D k

namespace Stage

variable {L j : ℕ} {live : Finset ℕ} {rank : ℕ → κ ×ₗ ℤ} {key : ℕ → κ}
variable {o : ℕ → Option ℕ} {D D' : Set ℕ} {ms ms' : ℕ → MatchResult}

/-- Match `j` has its new result, and the marks below `j` are those of `D'`. -/
theorem advance (h : Stage L live rank key o D (j + 1) ms) (hj : j < L)
    (hD : D' = D ∨ D' = insert j D) (hsame : ∀ x, x ≠ j → ∃ r, ms' x = { ms x with replay := r })
    (hreplay : ∀ x, j < x → (ms' x).replay = (ms x).replay)
    (hout : Played rank key (ms (2 * j + 1)).winnerIdx (ms (2 * j + 2)).winnerIdx (ms' j))
    (hquiet : (ms' j).replay = .noChange) (hkept : j ∉ D' → (ms' j).winnerIdx = o j)
    (hmarks : ∀ k, k < j → (ms' k).Marked o D' k) : Stage L live rank key o D' j ms' := by
  have hwin : ∀ x, x ≠ j → (ms' x).winnerIdx = (ms x).winnerIdx := by
    intro x hx
    obtain ⟨r, hr⟩ := hsame x hx
    rw [hr]
  have hplayed : ∀ x, x ≠ j → ∀ a b, Played rank key a b (ms x) →
      Played rank key a b (ms' x) := by
    intro x hx a b hab
    obtain ⟨r, hr⟩ := hsame x hx
    rw [hr]
    exact hab
  have hmem : ∀ x, x ≠ j → (x ∈ D' ↔ x ∈ D) := by
    intro x hx
    rcases hD with rfl | rfl
    · exact Iff.rfl
    · exact ⟨fun hin => (Set.mem_insert_iff.mp hin).resolve_left hx, Set.mem_insert_of_mem j⟩
  constructor
  · intro s
    rw [hwin _ (by omega)]
    exact h.leaf s
  · intro x s hs
    by_cases hx : x = j
    · -- the winner of match `j` comes from one of its sides
      subst hx
      have hchild : ∃ c, c ≠ 0 ∧ parent c = x ∧ (ms c).winnerIdx = some s := by
        rcases hout.sides with ⟨hw, -⟩ | ⟨hw, -⟩
        · exact ⟨2 * x + 1, by omega, parent_left x, hw.symm.trans hs⟩
        · exact ⟨2 * x + 2, by omega, parent_right x, hw.symm.trans hs⟩
      obtain ⟨c, hc, rfl, hcs⟩ := hchild
      obtain ⟨hu, hlive⟩ := h.located c s hcs
      exact ⟨hu.up hc, hlive⟩
    · rw [hwin x hx] at hs
      exact h.located x s hs
  · exact h.oldLocated
  · intro x hx hxD
    by_cases hxj : x = j
    · subst hxj
      exact hkept hxD
    · rw [hwin x hxj]
      exact h.kept x (by omega) (fun hin => hxD ((hmem x hxj).mpr hin))
  · intro x hx
    by_cases hxj : x = j
    · exact hxj.ge
    · have := h.changed x ((hmem x hxj).mp hx)
      omega
  · intro s hs
    exact h.news s ((hmem _ (by omega)).mp hs)
  · intro k hk hkL
    by_cases hkj : k = j
    · subst hkj
      rw [hwin _ (by omega), hwin _ (by omega)]
      exact ⟨hout, hquiet⟩
    · obtain ⟨hpl, hr⟩ := h.played k (by omega) hkL
      rw [hwin _ (by omega), hwin _ (by omega)]
      exact ⟨hplayed k hkj _ _ hpl, (hreplay k (by omega)).trans hr⟩
  · intro k hk hkL
    obtain ⟨hw, hpl, -⟩ := h.waiting k (by omega) hkL
    rw [hwin k (by omega)]
    exact ⟨hw, hplayed k (by omega) _ _ hpl, hmarks k hk⟩

/-- The two sides of a match never have one player. -/
theorem winner_ne (h : Stage L live rank key o D j ms) {c s : ℕ} (hc : c ≠ 0)
    (hs : (ms c).winnerIdx = some s) : (ms (sibling c)).winnerIdx ≠ some s := fun hs' =>
  (h.located c s hs).1.disjoint hc (h.located _ s hs').1

theorem old_ne (h : Stage L live rank key o D j ms) {c s : ℕ} (hc : c ≠ 0)
    (hs : o c = some s) : o (sibling c) ≠ some s := fun hs' =>
  (h.oldLocated c s hs).1.disjoint hc (h.oldLocated _ s hs').1

/-- The next match of node `c` seen from `c`, while it waits. -/
theorem waiting_parent (h : Stage L live rank key o D j ms) {c : ℕ} (hc : c ≠ 0)
    (hj : parent c < j) (hL : parent c < L) :
    Played rank key (o c) (o (sibling c)) (ms (parent c)) ∧
      (ms (parent c)).Marked o D (parent c) := by
  obtain ⟨-, hpl, hm⟩ := h.waiting (parent c) hj hL
  refine ⟨?_, hm⟩
  rcases eq_left_or_right hc with hl | hr
  · have hs : sibling c = 2 * parent c + 2 := by rw [hl, sibling_left, parent_left]
    rwa [← hl, ← hs] at hpl
  · have hs : sibling c = 2 * parent c + 1 := by rw [hr, sibling_right, parent_right]
    rw [← hr, ← hs] at hpl
    exact hpl.symm

/-- **A new player** at the free leaf of slot `s`. -/
theorem push {rank' : ℕ → κ ×ₗ ℤ} {key' : ℕ → κ} {s : ℕ}
    (h : Stage L live rank key o D L ms) (hL : 0 < L) (hsL : s ≤ L) (hs : s ∉ live)
    (hsame : ∀ x ∈ live, rank' x = rank x ∧ key' x = key x) :
    ∃ r, (ms (parent (L + s))).setReplayType (some s) =
        .ok { ms (parent (L + s)) with replay := r } ∧
      ∀ m : MatchResult, m.winnerIdx = some s →
        Stage L (insert s live) rank' key' o (insert (L + s) D) L
        (Function.update (Function.update ms (parent (L + s))
          { ms (parent (L + s)) with replay := r }) (L + s) m) := by
  have hc : L + s ≠ 0 := by omega
  have hp : parent (L + s) < L := by
    unfold parent
    omega
  have hcD : L + s ∉ D := fun hin => hs (h.news s hin).1
  have hoc : o (L + s) = none := by
    rw [← h.kept (L + s) (by omega) hcD, h.leaf, if_neg hs]
  obtain ⟨hpl, hmark⟩ := h.waiting_parent hc hp hp
  have hplayer : some s ≠ (ms (parent (L + s))).winnerIdx := fun heq =>
    hs (h.located _ s heq.symm).2
  have hsib : sibling (L + s) ∈ D → o (sibling (L + s)) = none := by
    intro hin
    have hle := h.changed _ hin
    obtain ⟨s', hs'⟩ := Nat.exists_eq_add_of_le hle
    rw [hs'] at hin ⊢
    exact (h.news s' hin).2
  obtain ⟨r, hr, hmr⟩ := hmark.setReplayType hc hcD hpl (by simp [hoc])
    (.inr ⟨hoc, hplayer, hsib⟩)
  refine ⟨r, hr, fun m hm => ?_⟩
  have hwin : ∀ x, x ≠ L + s → (Function.update (Function.update ms (parent (L + s))
      { ms (parent (L + s)) with replay := r }) (L + s) m x).winnerIdx = (ms x).winnerIdx := by
    intro x hx
    rw [update_of_ne hx]
    by_cases hxp : x = parent (L + s)
    · rw [hxp, update_self]
    · rw [update_of_ne hxp]
  constructor
  · intro s'
    by_cases hss : s' = s
    · rw [hss, update_self, hm, if_pos (Finset.mem_insert_self s live)]
    · rw [hwin _ (by omega), h.leaf]
      simp [hss]
  · intro x s' hx
    by_cases hxs : x = L + s
    · subst hxs
      rw [update_self, hm] at hx
      obtain rfl := Option.some.inj hx
      exact ⟨.refl, Finset.mem_insert_self _ _⟩
    · rw [hwin x hxs] at hx
      exact ⟨(h.located x s' hx).1, Finset.mem_insert_of_mem (h.located x s' hx).2⟩
  · intro x s' hx
    exact ⟨(h.oldLocated x s' hx).1, Finset.mem_insert_of_mem (h.oldLocated x s' hx).2⟩
  · intro x hx hxD
    have hxs : x ≠ L + s := fun heq => hxD (heq ▸ Set.mem_insert _ _)
    rw [hwin x hxs]
    exact h.kept x hx fun hin => hxD (Set.mem_insert_of_mem _ hin)
  · intro x hx
    rcases Set.mem_insert_iff.mp hx with rfl | hx
    · omega
    · exact h.changed x hx
  · intro s' hs'
    rcases Set.mem_insert_iff.mp hs' with heq | hs'
    · obtain rfl : s' = s := by omega
      exact ⟨Finset.mem_insert_self _ _, hoc⟩
    · exact ⟨Finset.mem_insert_of_mem (h.news s' hs').1, (h.news s' hs').2⟩
  · intro k hk hkL
    omega
  · intro k hk hkL
    obtain ⟨hw, hpl, hmk⟩ := h.waiting k hk hkL
    -- the players of the old match are live, so the new player does not touch their ranks
    have hpl' : Played rank' key' (o (2 * k + 1)) (o (2 * k + 2)) (ms k) := by
      refine hpl.congr fun x hx => hsame x ?_
      rcases hx with hx | hx
      · exact (h.oldLocated _ x hx).2
      · exact (h.oldLocated _ x hx).2
    rw [hwin k (by omega), update_of_ne (by omega)]
    by_cases hkp : k = parent (L + s)
    · subst hkp
      rw [update_self]
      exact ⟨hw, hpl', hmr⟩
    · rw [update_of_ne hkp]
      exact ⟨hw, hpl', hmk.insert_of_ne (Ne.symm hkp)⟩

/-- No match waits: all are played and no change is pending. -/
def Rest (L : ℕ) (live : Finset ℕ) (rank : ℕ → κ ×ₗ ℤ) (key : ℕ → κ)
    (ms : ℕ → MatchResult) : Prop :=
  Stage L live rank key (fun x => (ms x).winnerIdx) ∅ L ms

theorem rest (h : Stage L live rank key o D 0 ms) : Rest L live rank key ms where
  leaf := h.leaf
  located := h.located
  oldLocated := h.located
  kept := fun _ _ _ => rfl
  changed := by simp
  news := by simp
  played := fun k hk hkL => absurd hkL (by omega)
  waiting := by
    intro k _ hkL
    obtain ⟨hpl, hr⟩ := h.played k (Nat.zero_le k) hkL
    exact ⟨rfl, hpl, ⟨fun _ _ _ _ => Set.notMem_empty _, fun _ => hr⟩,
      fun c _ _ hc => absurd hc (Set.notMem_empty c)⟩

namespace Rest

variable {z : ℕ}

section

variable (h : Rest L live rank key ms)
include h

theorem settled :
    Settled rank key L (fun x => (ms x).winnerIdx) (fun x => (ms x).loserIdx)
      fun x => (ms x).isDraw :=
  fun j hj => (h.waiting j hj hj).2.1

theorem replay_eq {k : ℕ} (hk : k < L) : (ms k).replay = .noChange :=
  (h.waiting k hk hk).2.2.quiet.mpr fun c _ _ => Set.notMem_empty c

theorem leaf_of_mem {s : ℕ} (hs : s ∈ live) : (ms (L + s)).winnerIdx = some s := by
  rw [h.leaf, if_pos hs]

theorem winners_located :
    Located (fun s => L + s) fun x => (ms x).winnerIdx := fun x s hs =>
  ⟨(h.located x s hs).1, h.leaf_of_mem (h.located x s hs).2⟩

/-- With a live player there is a champion, and nobody beats it. -/
theorem champion (hlive : ∀ s ∈ live, s ≤ L) (hne : live.Nonempty) :
    ∃ z ∈ live, (ms 0).winnerIdx = some z ∧ ∀ s ∈ live, rank z ≤ rank s := by
  have hbest : ∀ s ∈ live, ∃ z, (ms 0).winnerIdx = some z ∧ rank z ≤ rank s := by
    intro s hs
    have hsL := hlive s hs
    exact h.settled.le_of_under (by omega) (Under.zero (L + s)) (h.leaf_of_mem hs)
  obtain ⟨s, hs⟩ := hne
  obtain ⟨z, hz, -⟩ := hbest s hs
  refine ⟨z, (h.located 0 z hz).2, hz, fun s hs => ?_⟩
  obtain ⟨z', hz', hle⟩ := hbest s hs
  rw [hz] at hz'
  rwa [← Option.some.inj hz'] at hle

theorem draw_iff (hlive : ∀ s ∈ live, s ≤ L)
    (hmono : ∀ x y, rank x ≤ rank y → key x ≤ key y) (hz : (ms 0).winnerIdx = some z) :
    (∃ c, c ≠ 0 ∧ Under (L + z) c ∧ (ms (parent c)).isDraw = true) ↔
      ∃ s ∈ live, s ≠ z ∧ key s = key z := by
  have hmem : ∀ s, (ms (L + s)).winnerIdx = some s ↔ s ∈ live := by
    intro s
    rw [h.leaf]
    by_cases hs : s ∈ live <;> simp [hs]
  have hiff := h.settled.isDraw_on_path_iff h.winners_located (fun s s' hss => by simpa using hss)
    (fun s hs => ⟨by omega, by have := hlive s ((hmem s).mp hs); omega⟩) hmono hz
  rw [hiff]
  refine exists_congr fun s => ?_
  simp only [hmem]
  tauto

end

end Rest

end Stage

/-! ### Playing the champion's matches again -/

/-- The matches while the champion that was taken out is replaced from its leaf up. -/
structure Climb (L : ℕ) (live : Finset ℕ) (rank : ℕ → κ ×ₗ ℤ) (key : ℕ → κ) (x : ℕ)
    (ms : ℕ → MatchResult) : Prop where
  leaf : ∀ s, (ms (L + s)).winnerIdx = if s ∈ live then some s else none
  located : ∀ y s, (Under x y → y = x) → (ms y).winnerIdx = some s → Under (L + s) y ∧ s ∈ live
  played : ∀ k, k < L → (Under x k → k = x) →
    Played rank key (ms (2 * k + 1)).winnerIdx (ms (2 * k + 2)).winnerIdx (ms k)
  loser : ∀ q, q ≠ 0 → Under x q → (ms (parent q)).loserIdx = (ms (sibling q)).winnerIdx
  quiet : ∀ k, k < L → (ms k).replay = .noChange

namespace Climb

variable {L x z : ℕ} {live : Finset ℕ} {rank : ℕ → κ ×ₗ ℤ} {key : ℕ → κ}
variable {ms : ℕ → MatchResult} {m : MatchResult}

/-- The champion leaves its leaf. -/
theorem start (h : Stage.Rest L live rank key ms) (hzL : z ≤ L)
    (hz : (ms 0).winnerIdx = some z) (hm : m.winnerIdx = none) :
    Climb L (live.erase z) rank key (L + z) (Function.update ms (L + z) m) := by
  have hoff : ∀ y, ¬ Under (L + z) y → Function.update ms (L + z) m y = ms y := by
    intro y hy
    refine update_of_ne ?_ _ _
    rintro rfl
    exact hy .refl
  constructor
  · intro s
    by_cases hs : s = z
    · subst hs
      rw [update_self, hm, if_neg (Finset.notMem_erase s live)]
    · rw [update_of_ne (by omega), h.leaf]
      simp [hs]
  · intro y s hy hs
    by_cases hyz : Under (L + z) y
    · rw [hy hyz, update_self, hm] at hs
      exact absurd hs (by simp)
    · rw [hoff y hyz] at hs
      obtain ⟨hu, hlive⟩ := h.located y s hs
      refine ⟨hu, Finset.mem_erase.mpr ⟨?_, hlive⟩⟩
      rintro rfl
      exact hyz hu
  · intro k hk hky
    have hkz : ¬ Under (L + z) k := fun hu => absurd (hky hu) (by omega)
    have hl : ¬ Under (L + z) (2 * k + 1) := fun hu => hkz (by
      have := hu.up (by omega)
      rwa [parent_left] at this)
    have hr : ¬ Under (L + z) (2 * k + 2) := fun hu => hkz (by
      have := hu.up (by omega)
      rwa [parent_right] at this)
    rw [hoff _ hkz, hoff _ hl, hoff _ hr]
    exact h.settled k hk
  · intro q hq hu
    have hqL : parent q < L := by
      have := hu.le
      unfold parent
      omega
    rw [update_of_ne (by omega), hoff _ (hu.disjoint hq)]
    exact h.settled.loser_on_path h.winners_located (by show L + z ≤ 2 * L; omega) hz hq hu
  · intro k hk
    rw [update_of_ne (by omega)]
    exact h.replay_eq hk

/-- The next match of node `x` gets its new result. -/
theorem step (h : Climb L live rank key x ms) (hx : x ≠ 0) (hxL : parent x < L)
    (hm : Played rank key (ms x).winnerIdx (ms (sibling x)).winnerIdx m)
    (hr : m.replay = .noChange) :
    Climb L live rank key (parent x) (Function.update ms (parent x) m) := by
  have hpath : ∀ y, y ≠ parent x → (Under (parent x) y → y = parent x) →
      (Under x y → y = x) := by
    intro y hy hyp hu
    by_contra hyx
    exact hy (hyp (hu.parent_of_ne (Ne.symm hyx)).2)
  constructor
  · intro s
    rw [update_of_ne (by omega)]
    exact h.leaf s
  · intro y s hy hs
    by_cases hyp : y = parent x
    · subst hyp
      rw [update_self] at hs
      rcases hm.sides with ⟨hw, -⟩ | ⟨hw, -⟩
      · obtain ⟨hu, hlive⟩ := h.located x s (fun _ => rfl) (hw.symm.trans hs)
        exact ⟨hu.up hx, hlive⟩
      · obtain ⟨hu, hlive⟩ := h.located (sibling x) s
          (fun hu => absurd hu (Under.not_sibling hx)) (hw.symm.trans hs)
        have := hu.up (sibling_ne_zero hx)
        rw [parent_sibling hx] at this
        exact ⟨this, hlive⟩
    · rw [update_of_ne hyp] at hs
      exact h.located y s (hpath y hyp hy) hs
  · intro k hk hky
    by_cases hkp : k = parent x
    · subst hkp
      rw [update_self, update_of_ne (by omega), update_of_ne (by omega)]
      rcases eq_left_or_right hx with hl | hr
      · rw [← hl]
        have hs : 2 * parent x + 2 = sibling x := by rw [hl, sibling_left, parent_left]
        rw [hs]
        exact hm
      · rw [← hr]
        have hs : 2 * parent x + 1 = sibling x := by rw [hr, sibling_right, parent_right]
        rw [hs]
        exact hm.symm
    · have hnot : ¬ Under (parent x) k := fun hu => hkp (hky hu)
      have hl : 2 * k + 1 ≠ parent x := by
        intro heq
        refine hnot ?_
        rw [← heq]
        have := Under.up (x := 2 * k + 1) .refl (by omega)
        rwa [parent_left] at this
      have hr : 2 * k + 2 ≠ parent x := by
        intro heq
        refine hnot ?_
        rw [← heq]
        have := Under.up (x := 2 * k + 2) .refl (by omega)
        rwa [parent_right] at this
      rw [update_of_ne hkp, update_of_ne hl, update_of_ne hr]
      exact h.played k hk (hpath k hkp hky)
  · intro q hq hu
    have hqp := parent_lt hq
    have hqx := hu.le
    have hsib : sibling q ≠ parent x := by
      intro heq
      refine Under.not_sibling (sibling_ne_zero hq) ?_
      rw [sibling_sibling hq, heq]
      exact hu
    rw [update_of_ne (by omega), update_of_ne hsib]
    exact h.loser q hq ((Under.up .refl hx).trans hu)
  · intro k hk
    by_cases hkp : k = parent x
    · subst hkp
      rw [update_self, hr]
    · rw [update_of_ne hkp]
      exact h.quiet k hk

/-- Arrived at the final. -/
theorem rest (h : Climb L live rank key 0 ms) : Stage.Rest L live rank key ms := by
  have hall : ∀ y, Under 0 y → y = 0 := fun y hu => Nat.le_zero.mp hu.le
  refine Stage.rest (D := ∅) (o := fun x => (ms x).winnerIdx) ?_
  exact
    { leaf := h.leaf
      located := fun x s => h.located x s (hall x)
      oldLocated := fun x s => h.located x s (hall x)
      kept := fun _ _ _ => rfl
      changed := by simp
      news := by simp
      played := fun k _ hk => ⟨h.played k hk (hall k), h.quiet k hk⟩
      waiting := fun k hk => absurd hk (by omega) }

end Climb

end Stage

end Andl
