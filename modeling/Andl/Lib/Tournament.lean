import Mathlib

/-!
# Knockout tournaments

The matches of a tournament are the nodes of an implicit binary tree: node `j` is played by the
winners of the nodes `2 * j + 1` and `2 * j + 2`, and the winner of node 0 is the champion.
-/

namespace Andl.Tournament

/-! ### The tree -/

/-- The match that the winner of node `c` goes on to. -/
def parent (c : ℕ) : ℕ := (c - 1) / 2

/-- The opponent's node in the next match. -/
def sibling (c : ℕ) : ℕ := if c % 2 = 1 then c + 1 else c - 1

theorem parent_lt {c : ℕ} (h : c ≠ 0) : parent c < c := by
  unfold parent
  omega

@[simp] theorem parent_left (j : ℕ) : parent (2 * j + 1) = j := by
  unfold parent
  omega

@[simp] theorem parent_right (j : ℕ) : parent (2 * j + 2) = j := by
  unfold parent
  omega

@[simp] theorem sibling_left (j : ℕ) : sibling (2 * j + 1) = 2 * j + 2 := by
  unfold sibling
  rw [if_pos (by omega)]

@[simp] theorem sibling_right (j : ℕ) : sibling (2 * j + 2) = 2 * j + 1 := by
  unfold sibling
  rw [if_neg (by omega)]
  omega

theorem eq_left_or_right {c : ℕ} (h : c ≠ 0) : c = 2 * parent c + 1 ∨ c = 2 * parent c + 2 := by
  unfold parent
  omega

theorem sibling_ne_zero {c : ℕ} (h : c ≠ 0) : sibling c ≠ 0 := by
  rcases eq_left_or_right h with hc | hc <;> rw [hc] <;> simp

theorem parent_sibling {c : ℕ} (h : c ≠ 0) : parent (sibling c) = parent c := by
  rcases eq_left_or_right h with hc | hc <;> rw [hc] <;> simp

theorem sibling_sibling {c : ℕ} (h : c ≠ 0) : sibling (sibling c) = c := by
  rcases eq_left_or_right h with hc | hc <;> rw [hc] <;> simp

theorem sibling_ne {c : ℕ} (h : c ≠ 0) : sibling c ≠ c := by
  unfold sibling
  split_ifs <;> omega

theorem eq_or_eq_sibling {c d : ℕ} (hd : d ≠ 0) (hc : c ≠ 0) (h : parent d = parent c) :
    d = c ∨ d = sibling c := by
  rcases eq_left_or_right hc with hc | hc <;> rcases eq_left_or_right hd with hd | hd <;>
    rw [hc, hd, h] <;> simp

/-- `Under x j`: node `x` is in the tree below node `j`, or is `j`. -/
inductive Under (x : ℕ) : ℕ → Prop
  | refl : Under x x
  | up {c : ℕ} : Under x c → c ≠ 0 → Under x (parent c)

namespace Under

variable {x y j k c : ℕ}

theorem le (h : Under x j) : j ≤ x := by
  induction h with
  | refl => exact Nat.le_refl x
  | up _ hc ih => exact (Nat.le_of_lt (parent_lt hc)).trans ih

theorem trans (hxy : Under x y) (hyj : Under y j) : Under x j := by
  induction hyj with
  | refl => exact hxy
  | up _ hc ih => exact ih.up hc

/-- Every node is below the final. -/
theorem zero (x : ℕ) : Under x 0 := by
  induction x using Nat.strongRecOn with
  | _ x ih =>
    by_cases hx : x = 0
    · rw [hx]
      exact .refl
    · exact (Under.up .refl hx).trans (ih _ (parent_lt hx))

/-- The first step of the path from `x` up to `j`. -/
theorem parent_of_ne (h : Under x j) (hne : x ≠ j) : x ≠ 0 ∧ Under (parent x) j := by
  induction h with
  | refl => exact absurd rfl hne
  | @up c h hc ih =>
    by_cases hxc : x = c
    · subst hxc
      exact ⟨hc, .refl⟩
    · exact ⟨(ih hxc).1, (ih hxc).2.up hc⟩

theorem exists_child (h : Under x j) (hne : x ≠ j) : ∃ c, c ≠ 0 ∧ parent c = j ∧ Under x c := by
  cases h with
  | refl => exact absurd rfl hne
  | up h hc => exact ⟨_, hc, rfl, h⟩

/-- The nodes above a node are on one path. -/
theorem comparable (hj : Under x j) (hk : Under x k) : Under j k ∨ Under k j := by
  induction hj with
  | refl => exact .inl hk
  | @up c h hc ih =>
    rcases ih with ih | ih
    · by_cases hck : c = k
      · rw [← hck]
        exact .inr (.up .refl hc)
      · exact .inl (ih.parent_of_ne hck).2
    · exact .inr (ih.up hc)

theorem not_sibling (hc : c ≠ 0) : ¬ Under c (sibling c) := by
  intro h
  have hp := (h.parent_of_ne (sibling_ne hc).symm).2.le
  rw [← parent_sibling hc] at hp
  exact absurd (parent_lt (sibling_ne_zero hc)) (by omega)

/-- The two sides of a match have no node in common. -/
theorem disjoint (hc : c ≠ 0) (h : Under x c) : ¬ Under x (sibling c) := by
  intro h'
  rcases h.comparable h' with hcs | hsc
  · exact not_sibling hc hcs
  · have hss := not_sibling (sibling_ne_zero hc)
    rw [sibling_sibling hc] at hss
    exact hss hsc

theorem path_or_separated (hx : Under x j) (hy : Under y j) :
    Under y x ∨ Under x y ∨ ∃ c, c ≠ 0 ∧ Under x c ∧ Under y (sibling c) := by
  induction hx with
  | refl => exact .inl hy
  | @up c h hc ih =>
    by_cases hyp : y = parent c
    · rw [hyp]
      exact .inr (.inl (h.up hc))
    · obtain ⟨d, hd, hdc, hyd⟩ := hy.exists_child hyp
      rcases eq_or_eq_sibling hd hc hdc with hdc | hdc
      · exact ih (hdc ▸ hyd)
      · exact .inr (.inr ⟨c, hc, h, hdc ▸ hyd⟩)

/-- The leaves `L`, …, `2 * L` have nothing below them. -/
theorem eq_of_leaf {L : ℕ} (hx : x ≤ 2 * L) (hj : L ≤ j) (h : Under x j) : x = j := by
  by_contra hne
  obtain ⟨hx0, hp⟩ := h.parent_of_ne hne
  have hle := hp.le
  unfold parent at hle
  omega

end Under

/-! ### Matches -/

section Settled

variable {ι α κ : Type*}

/-- The result of a match between the winners `a` and `b` of two nodes. -/
structure Outcome [LT α] (rank : ι → α) (key : ι → κ) (a b w l : Option ι) (isDraw : Bool) :
    Prop where
  sides : (w = a ∧ l = b) ∨ (w = b ∧ l = a)
  best : ∀ y, l = some y → ∃ x, w = some x ∧ rank x < rank y
  draw : isDraw = true ↔ ∃ x y, w = some x ∧ l = some y ∧ key x = key y

namespace Outcome

variable [LT α] {rank rank' : ι → α} {key key' : ι → κ} {a b w l : Option ι} {d : Bool}

theorem symm (h : Outcome rank key a b w l d) : Outcome rank key b a w l d :=
  ⟨h.sides.symm, h.best, h.draw⟩

/-- An outcome only depends on the players of the match. -/
theorem congr (h : Outcome rank key a b w l d)
    (hcongr : ∀ x, a = some x ∨ b = some x → rank' x = rank x ∧ key' x = key x) :
    Outcome rank' key' a b w l d := by
  have hw : ∀ x, w = some x → rank' x = rank x ∧ key' x = key x := by
    intro x hx
    rcases h.sides with ⟨rfl, -⟩ | ⟨rfl, -⟩
    · exact hcongr x (.inl hx)
    · exact hcongr x (.inr hx)
  have hl : ∀ x, l = some x → rank' x = rank x ∧ key' x = key x := by
    intro x hx
    rcases h.sides with ⟨-, rfl⟩ | ⟨-, rfl⟩
    · exact hcongr x (.inr hx)
    · exact hcongr x (.inl hx)
  refine ⟨h.sides, ?_, h.draw.trans ?_⟩
  · intro y hy
    obtain ⟨x, hx, hlt⟩ := h.best y hy
    exact ⟨x, hx, by rw [(hw x hx).1, (hl y hy).1]; exact hlt⟩
  · constructor
    · rintro ⟨x, y, hx, hy, hk⟩
      exact ⟨x, y, hx, hy, by rw [(hw x hx).2, (hl y hy).2, hk]⟩
    · rintro ⟨x, y, hx, hy, hk⟩
      exact ⟨x, y, hx, hy, by rw [← (hw x hx).2, ← (hl y hy).2, hk]⟩

/-- Without a winner there was nobody on either side. -/
theorem eq_none (h : Outcome rank key a b none l d) : a = none ∧ b = none ∧ l = none := by
  have hl : l = none := by
    cases l with
    | none => rfl
    | some y =>
      obtain ⟨x, hx, -⟩ := h.best y rfl
      exact absurd hx (by simp)
  rcases h.sides with ⟨rfl, rfl⟩ | ⟨rfl, rfl⟩
  · exact ⟨rfl, hl, hl⟩
  · exact ⟨hl, rfl, hl⟩

end Outcome

variable [LinearOrder α] {rank : ι → α} {key : ι → κ}
variable {w l : ℕ → Option ι} {d : ℕ → Bool} {L : ℕ}

/-- Every winner comes up from its leaf. -/
def Located (leaf : ι → ℕ) (w : ℕ → Option ι) : Prop :=
  ∀ x s, w x = some s → Under (leaf s) x ∧ w (leaf s) = some s

/-- All matches are played: `w`, `l` and `d` are the winners, the losers and the draws of a
tournament with the matches `0`, …, `L - 1`. -/
def Settled (rank : ι → α) (key : ι → κ) (L : ℕ) (w l : ℕ → Option ι) (d : ℕ → Bool) : Prop :=
  ∀ j < L, Outcome rank key (w (2 * j + 1)) (w (2 * j + 2)) (w j) (l j) (d j)

namespace Settled

/-- The match after node `c`, seen from `c`. -/
theorem outcome (h : Settled rank key L w l d) {c : ℕ} (hc : c ≠ 0) (hp : parent c < L) :
    Outcome rank key (w c) (w (sibling c)) (w (parent c)) (l (parent c)) (d (parent c)) := by
  have hj := h _ hp
  rcases eq_left_or_right hc with hl | hr
  · rw [hl, sibling_left, parent_left]
    exact hj
  · rw [hr, sibling_right, parent_right]
    exact hj.symm

/-- Nobody below a match beats its winner. -/
theorem le_of_under (h : Settled rank key L w l d) {x j : ℕ} {s : ι} (hx : x ≤ 2 * L)
    (hj : Under x j) (hs : w x = some s) : ∃ z, w j = some z ∧ rank z ≤ rank s := by
  induction hj with
  | refl => exact ⟨s, hs, le_rfl⟩
  | @up c hxc hc ih =>
    obtain ⟨z, hz, hle⟩ := ih
    have hcL : parent c < L := by
      have := hxc.le
      unfold parent
      omega
    have hout := h.outcome hc hcL
    rcases hout.sides with ⟨hw, -⟩ | ⟨-, hl⟩
    · exact ⟨z, hw.trans hz, hle⟩
    · obtain ⟨y, hy, hlt⟩ := hout.best z (hl.trans hz)
      exact ⟨y, hy, hlt.le.trans hle⟩

variable {leaf : ι → ℕ} {z : ι}

/-- The champion has won all matches above its leaf. -/
theorem winner_on_path (h : Settled rank key L w l d) (hloc : Located leaf w)
    (hleaf : leaf z ≤ 2 * L) (h0 : w 0 = some z) {p : ℕ} (hp : Under (leaf z) p) :
    w p = some z := by
  -- downwards from the final
  induction p using Nat.strongRecOn with
  | _ p ih =>
    by_cases hp0 : p = 0
    · rw [hp0, h0]
    · have hwp := ih _ (parent_lt hp0) (hp.up hp0)
      have hpL : parent p < L := by
        have := hp.le
        unfold parent
        omega
      rcases (h.outcome hp0 hpL).sides with ⟨hw, -⟩ | ⟨hw, -⟩
      · rw [← hw, hwp]
      · exact absurd (hloc _ z (hw.symm.trans hwp)).1 (hp.disjoint hp0)

/-- What the champion beat in each match is the winner of the other side. -/
theorem loser_on_path (h : Settled rank key L w l d) (hloc : Located leaf w)
    (hleaf : leaf z ≤ 2 * L) (h0 : w 0 = some z) {c : ℕ} (hc : c ≠ 0) (hz : Under (leaf z) c) :
    l (parent c) = w (sibling c) := by
  have hcL : parent c < L := by
    have := hz.le
    unfold parent
    omega
  rcases (h.outcome hc hcL).sides with ⟨-, hl⟩ | ⟨hw, -⟩
  · exact hl
  · have hwp := h.winner_on_path hloc hleaf h0 (hz.up hc)
    exact absurd (hloc _ z (hw.symm.trans hwp)).1 (hz.disjoint hc)

/-- **Unique champion**: the champion has a draw on its way up exactly when another player has its
key. -/
theorem isDraw_on_path_iff [LinearOrder κ] (h : Settled rank key L w l d)
    (hloc : Located leaf w) (hinj : Function.Injective leaf)
    (hleaf : ∀ s, w (leaf s) = some s → L ≤ leaf s ∧ leaf s ≤ 2 * L)
    (hmono : ∀ x y, rank x ≤ rank y → key x ≤ key y) (h0 : w 0 = some z) :
    (∃ c, c ≠ 0 ∧ Under (leaf z) c ∧ d (parent c) = true) ↔
      ∃ s, s ≠ z ∧ w (leaf s) = some s ∧ key s = key z := by
  have hlz := hleaf z (hloc 0 z h0).2
  constructor
  · rintro ⟨c, hc, hz, hd⟩
    have hcL : parent c < L := by
      have := hz.le
      unfold parent
      omega
    obtain ⟨x, y, hx, hy, hk⟩ := (h.outcome hc hcL).draw.mp hd
    have hxz : x = z := by
      rw [h.winner_on_path hloc hlz.2 h0 (hz.up hc)] at hx
      exact (Option.some.inj hx).symm
    rw [h.loser_on_path hloc hlz.2 h0 hc hz] at hy
    refine ⟨y, ?_, (hloc _ y hy).2, by rw [← hk, hxz]⟩
    intro hyz
    exact hz.disjoint hc (hyz ▸ (hloc _ y hy).1)
  · rintro ⟨s, hsz, hs, hk⟩
    have hls := hleaf s hs
    rcases (Under.zero (leaf z)).path_or_separated (Under.zero (leaf s)) with hu | hu | hu
    · exact absurd (hinj (hu.eq_of_leaf hls.2 hlz.1)) hsz
    · exact absurd (hinj (hu.eq_of_leaf hlz.2 hls.1)).symm hsz
    · obtain ⟨c, hc, hz, hsc⟩ := hu
      have hcL : parent c < L := by
        have := hz.le
        unfold parent
        omega
      have hout := h.outcome hc hcL
      obtain ⟨y, hy, hle⟩ := h.le_of_under hls.2 hsc hs
      have hl := (h.loser_on_path hloc hlz.2 h0 hc hz).trans hy
      have hwp := h.winner_on_path hloc hlz.2 h0 (hz.up hc)
      refine ⟨c, hc, hz, hout.draw.mpr ⟨z, y, hwp, hl, ?_⟩⟩
      obtain ⟨x, hx, hlt⟩ := hout.best y hl
      rw [hwp] at hx
      obtain rfl := Option.some.inj hx
      exact le_antisymm (hmono _ _ hlt.le) ((hmono _ _ hle).trans hk.le)

end Settled

end Settled

end Andl.Tournament
