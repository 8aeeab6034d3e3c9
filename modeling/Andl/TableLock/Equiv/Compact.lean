import Andl.Lib.Brackets
import Andl.TableLock.ObjLock

/-!
# What the compaction of a lock list removes
-/

namespace Andl.TableLock

open List

/-- The complete out-trans locks and unlocks of a list, by owner. -/
def ownerMarks : Marks ObTableLockOpLinkNode ObTableLockOwnerID where
  opens owner node := node.isCompleteOuttransLock && decide (node.lockOp.ownerId = owner)
  closes owner node := node.isCompleteOuttransUnlock && decide (node.lockOp.ownerId = owner)
  opens_unique := by
    intro k k' node h h'
    simp only [Bool.and_eq_true, decide_eq_true_eq] at h h'
    exact h.2.symm.trans h'.2
  closes_unique := by
    intro k k' node h h'
    simp only [Bool.and_eq_true, decide_eq_true_eq] at h h'
    exact h.2.symm.trans h'.2
  not_closes := by
    intro k k' node h
    simp only [ObTableLockOpLinkNode.isCompleteOuttransLock, Bool.and_eq_true,
      decide_eq_true_eq] at h
    simp [ObTableLockOpLinkNode.isCompleteOuttransUnlock, h.1.1]

/-- The second list is the first without some complete out-trans locks, each taken out together with
a complete out-trans unlock of the same owner. -/
inductive PairsRemoved : ObTableLockOpList → ObTableLockOpList → Prop where
  | refl (ops : ObTableLockOpList) : PairsRemoved ops ops
  | step {X Y Z ops : ObTableLockOpList} {a b : ObTableLockOpLinkNode}
      (owner : ObTableLockOwnerID) (hpair : ownerMarks.IsPair owner a b)
      (hrest : PairsRemoved (X ++ (Y ++ Z)) ops) : PairsRemoved (X ++ a :: (Y ++ b :: Z)) ops

/-! ### The search for a pair -/

section FindPair

variable {q : ObTableLockOwnerID}

/-- No complete out-trans lock and no complete out-trans unlock of an owner. -/
def Unmarked (q : ObTableLockOwnerID) (ops : ObTableLockOpList) : Prop :=
  ∀ e ∈ ops, ownerMarks.opens q e = false ∧ ownerMarks.closes q e = false

/-- What the pointers say about the part of the list that has been searched, as long as one of them
is not set. -/
inductive Searched (q : ObTableLockOwnerID) :
    ObTableLockOpList → Option ℕ → Option ℕ → Prop where
  | start {P : ObTableLockOpList} (hP : Unmarked q P) : Searched q P none none
  | lock {X Y : ObTableLockOpList} {a : ObTableLockOpLinkNode}
      (ha : ownerMarks.opens q a = true) (hX : ∀ e ∈ X, ownerMarks.closes q e = false)
      (hY : Unmarked q Y) : Searched q (X ++ a :: Y) (some X.length) none
  | unlock {X Y : ObTableLockOpList} {a : ObTableLockOpLinkNode}
      (ha : ownerMarks.closes q a = true) (hX : ∀ e ∈ X, ownerMarks.opens q e = false)
      (hY : Unmarked q Y) : Searched q (X ++ a :: Y) none (some X.length)

/-- The two pointers at the end of the search. -/
inductive Found (q : ObTableLockOwnerID) (ops : ObTableLockOpList) : Option ℕ × Option ℕ → Prop
  | nothing {l u : Option ℕ} (h : Searched q ops l u) : Found q ops (l, u)
  | lockUnlock {X Y Z : ObTableLockOpList} {a b : ObTableLockOpLinkNode}
      (hops : ops = X ++ a :: (Y ++ b :: Z)) (ha : ownerMarks.opens q a = true)
      (hb : ownerMarks.closes q b = true) (hX : ∀ e ∈ X, ownerMarks.closes q e = false)
      (hY : Unmarked q Y) : Found q ops (some X.length, some (X.length + 1 + Y.length))
  | unlockLock {X Y Z : ObTableLockOpList} {a b : ObTableLockOpLinkNode}
      (hops : ops = X ++ a :: (Y ++ b :: Z)) (ha : ownerMarks.closes q a = true)
      (hb : ownerMarks.opens q b = true) (hX : ∀ e ∈ X, ownerMarks.opens q e = false)
      (hY : Unmarked q Y) : Found q ops (some (X.length + 1 + Y.length), some X.length)

variable {e : ObTableLockOpLinkNode} {P : ObTableLockOpList} {l u : Option ℕ}

theorem Unmarked.concat {ops : ObTableLockOpList} (h : Unmarked q ops)
    (ho : ownerMarks.opens q e = false) (hc : ownerMarks.closes q e = false) :
    Unmarked q (ops ++ [e]) := by
  intro x hx
  rcases mem_append.mp hx with hx | hx
  · exact h x hx
  · rw [mem_singleton.mp hx]
    exact ⟨ho, hc⟩

theorem Searched.skip (h : Searched q P l u) (ho : ownerMarks.opens q e = false)
    (hc : ownerMarks.closes q e = false) : Searched q (P ++ [e]) l u := by
  cases h with
  | start hP => exact .start (hP.concat ho hc)
  | lock ha hX hY =>
    rw [append_assoc, cons_append]
    exact .lock ha hX (hY.concat ho hc)
  | unlock ha hX hY =>
    rw [append_assoc, cons_append]
    exact .unlock ha hX (hY.concat ho hc)

theorem Unmarked.nil : Unmarked q [] := fun _ h => absurd h not_mem_nil

theorem opens_iff {owner : ObTableLockOwnerID} {node : ObTableLockOpLinkNode} :
    ownerMarks.opens owner node = true ↔
      node.isCompleteOuttransLock = true ∧ node.lockOp.ownerId = owner := by
  simp [ownerMarks]

theorem closes_iff {owner : ObTableLockOwnerID} {node : ObTableLockOpLinkNode} :
    ownerMarks.closes owner node = true ↔
      node.isCompleteOuttransUnlock = true ∧ node.lockOp.ownerId = owner := by
  simp [ownerMarks]

theorem Searched.not_both (h : Searched q P l u) : ¬(l.isSome = true ∧ u.isSome = true) := by
  cases h <;> simp

/-- The next operation is a lock of the owner. -/
theorem Searched.meet_lock (h : Searched q P l u) (rest : ObTableLockOpList)
    (he : ownerMarks.opens q e = true) :
    (u = none ∧ Searched q (P ++ [e]) (some P.length) none) ∨
      (u.isSome = true ∧ Found q (P ++ e :: rest) (some P.length, u)) := by
  cases h with
  | start hP => exact .inl ⟨rfl, .lock he (fun x hx => (hP x hx).2) .nil⟩
  | lock ha hX hY =>
    refine .inl ⟨rfl, .lock he ?_ .nil⟩
    intro x hx
    rcases mem_append.mp hx with hx | hx
    · exact hX x hx
    · rcases mem_cons.mp hx with rfl | hx
      · exact ownerMarks.not_closes ha
      · exact (hY x hx).2
  | @unlock X Y a ha hX hY =>
    refine .inr ⟨rfl, ?_⟩
    have hlen : (X ++ a :: Y).length = X.length + 1 + Y.length := by
      simp only [length_append, length_cons]
      omega
    rw [hlen]
    exact .unlockLock (Z := rest) (by simp) ha he hX hY

/-- The next operation is an unlock of the owner. -/
theorem Searched.meet_unlock (h : Searched q P l u) (rest : ObTableLockOpList)
    (he : ownerMarks.closes q e = true) :
    (l = none ∧ Searched q (P ++ [e]) none (some P.length)) ∨
      (l.isSome = true ∧ Found q (P ++ e :: rest) (l, some P.length)) := by
  cases h with
  | start hP => exact .inl ⟨rfl, .unlock he (fun x hx => (hP x hx).1) .nil⟩
  | unlock ha hX hY =>
    refine .inl ⟨rfl, .unlock he ?_ .nil⟩
    intro x hx
    rcases mem_append.mp hx with hx | hx
    · exact hX x hx
    · rcases mem_cons.mp hx with rfl | hx
      · exact Marks.opens_eq_false ha
      · exact (hY x hx).1
  | @lock X Y a ha hX hY =>
    refine .inr ⟨rfl, ?_⟩
    have hlen : (X ++ a :: Y).length = X.length + 1 + Y.length := by
      simp only [length_append, length_cons]
      omega
    rw [hlen]
    exact .lockUnlock (Z := rest) (by simp) ha he hX hY

/-- **The pair of one round**, in a list of one mode. -/
theorem findPair_spec (unlockOp : ObTableLockOp) (rest P : ObTableLockOpList) (l u : Option ℕ)
    (hmode : ∀ e ∈ rest, e.lockOp.lockMode = unlockOp.lockMode)
    (h : Searched unlockOp.ownerId P l u) :
    Found unlockOp.ownerId (P ++ rest) (findPair unlockOp rest P.length l u) := by
  induction rest generalizing P l u with
  | nil =>
    rw [append_nil]
    exact .nothing h
  | cons e rest ih =>
    have ih' : ∀ {l' u' : Option ℕ}, Searched unlockOp.ownerId (P ++ [e]) l' u' →
        Found unlockOp.ownerId (P ++ e :: rest) (findPair unlockOp rest (P.length + 1) l' u') := by
      intro l' u' h'
      have := ih (P ++ [e]) l' u' (fun x hx => hmode x (mem_cons_of_mem _ hx)) h'
      rwa [append_assoc, singleton_append, length_append] at this
    by_cases howner : e.lockOp.ownerId = unlockOp.ownerId
    · have hsame : e.lockOp.ownerId = unlockOp.ownerId ∧
          e.lockOp.lockMode = unlockOp.lockMode := ⟨howner, hmode e mem_cons_self⟩
      cases hl : e.isCompleteOuttransLock with
      | true =>
        have he : ownerMarks.opens unlockOp.ownerId e = true := opens_iff.mpr ⟨hl, howner⟩
        rcases h.meet_lock rest he with ⟨rfl, h'⟩ | ⟨hu, h'⟩
        · simpa [findPair, hsame, hl] using ih' h'
        · simpa [findPair, hsame, hl, hu] using h'
      | false =>
        cases hu : e.isCompleteOuttransUnlock with
        | true =>
          have he : ownerMarks.closes unlockOp.ownerId e = true := closes_iff.mpr ⟨hu, howner⟩
          rcases h.meet_unlock rest he with ⟨rfl, h'⟩ | ⟨hl', h'⟩
          · simpa [findPair, hsame, hl, hu] using ih' h'
          · simpa [findPair, hsame, hl, hu, hl'] using h'
        | false =>
          have h' := ih' (h.skip (e := e) (by simp [ownerMarks, hl]) (by simp [ownerMarks, hu]))
          have hnb := h.not_both
          simp only [findPair, hsame, and_self, if_true, hl, hu, Bool.false_eq_true, if_false,
            and_false, if_neg hnb]
          exact h'
    · have h' := ih' (h.skip (e := e) (by simp [ownerMarks, howner])
        (by simp [ownerMarks, howner]))
      rw [findPair, if_neg (fun hc => howner hc.1)]
      exact h'

end FindPair

/-! ### One round -/

section Round

theorem removeNodes_append (ptrs : List ℕ) (A B : ObTableLockOpList) (pos : ℕ) :
    removeNodes ptrs (A ++ B) pos =
      removeNodes ptrs A pos ++ removeNodes ptrs B (pos + A.length) := by
  induction A generalizing pos with
  | nil => rfl
  | cons e A ih =>
    have hpos : pos + 1 + A.length = pos + (e :: A).length := by
      rw [length_cons]
      omega
    by_cases he : pos ∈ ptrs
    · simp only [cons_append, removeNodes, if_pos he, ih, hpos]
    · simp only [cons_append, removeNodes, if_neg he, ih, hpos]

theorem removeNodes_of_outside {ptrs : List ℕ} {A : ObTableLockOpList} {pos : ℕ}
    (h : ∀ i ∈ ptrs, i < pos ∨ pos + A.length ≤ i) : removeNodes ptrs A pos = A := by
  induction A generalizing pos with
  | nil => rfl
  | cons e A ih =>
    have hpos : pos ∉ ptrs := by
      intro hmem
      have := h pos hmem
      rw [length_cons] at this
      omega
    rw [removeNodes, if_neg hpos, ih]
    intro i hi
    have := h i hi
    rw [length_cons] at this
    omega

theorem removeNodes_pair {ptrs : List ℕ} (X Y Z : ObTableLockOpList) (a b : ObTableLockOpLinkNode)
    (hptrs : ∀ i, i ∈ ptrs ↔ i = X.length ∨ i = X.length + 1 + Y.length) :
    removeNodes ptrs (X ++ a :: (Y ++ b :: Z)) 0 = X ++ (Y ++ Z) := by
  have hX : removeNodes ptrs X 0 = X := by
    apply removeNodes_of_outside
    intro i hi
    have := (hptrs i).mp hi
    omega
  have hY : removeNodes ptrs Y (X.length + 1) = Y := by
    apply removeNodes_of_outside
    intro i hi
    have := (hptrs i).mp hi
    omega
  have hZ : removeNodes ptrs Z (X.length + 1 + Y.length + 1) = Z := by
    apply removeNodes_of_outside
    intro i hi
    have := (hptrs i).mp hi
    omega
  rw [removeNodes_append, hX, Nat.zero_add, removeNodes, if_pos ((hptrs _).mpr (.inl rfl)),
    removeNodes_append, hY, removeNodes, if_pos ((hptrs _).mpr (.inr rfl)), hZ]

variable {ops : ObTableLockOpList}

/-- The operations before the first complete unlock close nothing. -/
theorem getFirstCompleteUnlockOp_eq_some {unlockOp : ObTableLockOp}
    (h : getFirstCompleteUnlockOp ops = some unlockOp) :
    ∃ X u Z, ops = X ++ u :: Z ∧ u.lockOp = unlockOp ∧
      ownerMarks.closes unlockOp.ownerId u = true ∧
      ∀ k, ∀ e ∈ X, ownerMarks.closes k e = false := by
  obtain ⟨u, hu, rfl⟩ := Option.map_eq_some_iff.mp h
  obtain ⟨hclose, X, Z, rfl, hX⟩ := find?_eq_some_iff_append.mp hu
  refine ⟨X, u, Z, rfl, rfl, closes_iff.mpr ⟨hclose, rfl⟩, ?_⟩
  intro k e he
  have := hX e he
  simp only [Bool.not_eq_true'] at this
  simp [ownerMarks, this]

theorem getFirstCompleteUnlockOp_eq_none (h : getFirstCompleteUnlockOp ops = none)
    (k : ObTableLockOwnerID) : ownerMarks.closeCount k ops = 0 := by
  rw [getFirstCompleteUnlockOp, Option.map_eq_none_iff, find?_eq_none] at h
  rw [Marks.closeCount, countP_eq_zero]
  intro e he hc
  exact h e he (closes_iff.mp hc).1

/-- What a round leaves: a pair is gone, and the list is held up as before, or the first complete
unlock has no lock and the list is as it was. -/
inductive Round (ops : ObTableLockOpList) : ObTableLockOpList → Bool → Prop
  | pair {X Y Z : ObTableLockOpList} {a b : ObTableLockOpLinkNode} (owner : ObTableLockOwnerID)
      (hops : ops = X ++ a :: (Y ++ b :: Z)) (hpair : ownerMarks.IsPair owner a b)
      (hheld : ownerMarks.HeldUp ops ↔ ownerMarks.HeldUp (X ++ (Y ++ Z))) :
      Round ops (X ++ (Y ++ Z)) true
  | stuck (hheld : ownerMarks.HeldUp ops ↔
      ∃ owner, 0 < ownerMarks.openCount owner ops ∧ 0 < ownerMarks.closeCount owner ops) :
      Round ops ops false

/-- **One round of the compaction** of a list of one mode. -/
theorem compactOp_spec {unlockOp : ObTableLockOp}
    (hmode : ∀ e ∈ ops, e.lockOp.lockMode = unlockOp.lockMode)
    (h : getFirstCompleteUnlockOp ops = some unlockOp) :
    ∃ ops' isCompact, compactOp unlockOp ops false = .ok (ops', isCompact) ∧
      Round ops ops' isCompact := by
  obtain ⟨X0, u, Z0, hops, rfl, hu, hX0⟩ := getFirstCompleteUnlockOp_eq_some h
  have hvalid : ¬ u.lockOp.isValid = false := by simp [u.valid]
  -- a closing mark of any owner in a prefix stands behind the first complete unlock
  have hfirst : ∀ k n, 0 < ownerMarks.closeCount k (ops.take n) →
      0 < ownerMarks.closeCount u.lockOp.ownerId (ops.take n) := by
    intro k n hk
    have hn : X0.length < n := by
      by_contra hle
      rw [Marks.closeCount, hops, take_append_of_le_length (by omega),
        countP_pos_iff] at hk
      obtain ⟨e, he, hc⟩ := hk
      rw [hX0 k e (mem_of_mem_take he)] at hc
      cases hc
    rw [Marks.closeCount, countP_pos_iff]
    refine ⟨u, ?_, hu⟩
    have hn' : n - X0.length = (n - X0.length - 1) + 1 := by omega
    rw [hops, take_append, hn', take_succ_cons]
    simp
  have hfound := findPair_spec u.lockOp ops [] none none hmode (.start .nil)
  rw [nil_append, length_nil] at hfound
  have hmem : u ∈ ops := by
    rw [hops]
    simp
  generalize hp : findPair u.lockOp ops 0 none none = p at hfound
  rw [compactOp, if_neg hvalid, hp]
  cases hfound with
  | nothing hs =>
    cases hs with
    | start hP => rw [(hP u hmem).2] at hu; cases hu
    | lock ha hX hY =>
      rcases mem_append.mp hmem with hm | hm
      · rw [hX u hm] at hu; cases hu
      rcases mem_cons.mp hm with rfl | hm
      · rw [ownerMarks.not_closes ha] at hu; cases hu
      · rw [(hY u hm).2] at hu; cases hu
    | @unlock X Y a ha hX hY =>
      refine ⟨X ++ a :: Y, false, ?_, .stuck ?_⟩
      · simp [removeNodes_of_outside]
      · have hopen : ownerMarks.openCount u.lockOp.ownerId (X ++ a :: Y) = 0 := by
          rw [Marks.openCount, countP_eq_zero]
          intro e he
          rcases mem_append.mp he with he | he
          · simp [hX e he]
          rcases mem_cons.mp he with rfl | he
          · simp [Marks.opens_eq_false ha]
          · simp [(hY e he).1]
        have hnone : ∀ k, ownerMarks.closeCount k X0 = 0 := by
          intro k
          rw [Marks.closeCount, countP_eq_zero]
          intro e he
          simp [hX0 k e he]
        rw [hops] at hopen ⊢
        exact Marks.heldUp_iff_of_stuck hu hnone hopen
  | @lockUnlock X Y Z a b hXY ha hb hX hY =>
    subst hXY
    refine ⟨X ++ (Y ++ Z), true, ?_, .pair u.lockOp.ownerId rfl (.inl ⟨ha, hb⟩) ?_⟩
    · simp [removeNodes_pair]
    · exact Marks.heldUp_remove_open_close ha hb hX (fun e he => (hY e he).2) hfirst
  | @unlockLock X Y Z a b hXY ha hb hX hY =>
    subst hXY
    refine ⟨X ++ (Y ++ Z), true, ?_, .pair u.lockOp.ownerId rfl (.inr ⟨ha, hb⟩) ?_⟩
    · simp [removeNodes_pair, or_comm]
    · exact Marks.heldUp_remove_close_open ha hb hX hY hfirst

end Round

/-! ### The loop -/

/-- On a list of one mode the loop ends, removes pairs only, and leaves an owner with a lock and an
unlock exactly if the list holds it up. -/
theorem compactLoop_spec {mode : ObTableLockMode} (fuel : ℕ) (ops : ObTableLockOpList)
    (isCompact : Bool) (hfuel : ops.length < fuel) (hmode : ∀ e ∈ ops, e.lockOp.lockMode = mode) :
    ∃ ops' isCompact', compactLoop false fuel ops isCompact = some (.ok (ops', isCompact')) ∧
      PairsRemoved ops ops' ∧
      (ownerMarks.HeldUp ops ↔
        ∃ owner, 0 < ownerMarks.openCount owner ops' ∧ 0 < ownerMarks.closeCount owner ops') := by
  induction fuel generalizing ops isCompact with
  | zero => omega
  | succ fuel ih =>
    rw [compactLoop]
    cases hfirst : getFirstCompleteUnlockOp ops with
    | none =>
      have hzero := getFirstCompleteUnlockOp_eq_none hfirst
      refine ⟨ops, isCompact, rfl, .refl ops, ?_⟩
      refine iff_of_false (Marks.not_heldUp_of_closeCount hzero) ?_
      rintro ⟨owner, -, hc⟩
      rw [hzero owner] at hc
      exact Nat.lt_irrefl 0 hc
    | some unlockOp =>
      have hunlock : unlockOp.lockMode = mode := by
        obtain ⟨X, u, Z, rfl, rfl, -, -⟩ := getFirstCompleteUnlockOp_eq_some hfirst
        exact hmode u (by simp)
      obtain ⟨ops', b, hop, hround⟩ := compactOp_spec
        (fun e he => (hmode e he).trans hunlock.symm) hfirst
      simp only [hop]
      cases hround with
      | stuck hheld => exact ⟨ops, isCompact, rfl, .refl ops, hheld⟩
      | @pair X Y Z a c owner hops hpair hheld =>
        subst hops
        have hlen : (X ++ (Y ++ Z)).length < fuel := by
          simp only [length_append, length_cons] at hfuel ⊢
          omega
        have hmode' : ∀ e ∈ X ++ (Y ++ Z), e.lockOp.lockMode = mode := by
          intro e he
          apply hmode e
          simp only [mem_append, mem_cons] at he ⊢
          tauto
        obtain ⟨ops', b, hloop, hrem, hend⟩ := ih (X ++ (Y ++ Z)) true hlen hmode'
        exact ⟨ops', b, hloop, .step owner hpair hrem, hheld.trans hend⟩

/-- More rounds do not change a result. -/
theorem compactLoop_mono {isForce : Bool} {fuel fuel' : ℕ} {ops : ObTableLockOpList}
    {isCompact : Bool} {r : ObResult (ObTableLockOpList × Bool)} (hle : fuel ≤ fuel')
    (h : compactLoop isForce fuel ops isCompact = some r) :
    compactLoop isForce fuel' ops isCompact = some r := by
  induction fuel generalizing fuel' ops isCompact with
  | zero => cases h
  | succ fuel ih =>
    obtain ⟨fuel', rfl⟩ : ∃ n, fuel' = n + 1 := ⟨fuel' - 1, by omega⟩
    rw [compactLoop] at h ⊢
    split at h
    · exact h
    · split at h
      · exact h
      · exact ih (by omega) h
      · exact h

/-- **The compaction of the list of one mode ends, and removes only complete out-trans locks
together with a complete out-trans unlock of the same owner.** When it returns, no owner has both
left exactly when the list is not held up. -/
theorem compactList_exact (mode : ObTableLockMode) (opList : Option ObTableLockOpList)
    (hmode : ∀ e ∈ opList.getD [], e.lockOp.lockMode = mode) :
    ∃ opList' isCompact,
      (∀ fuel, (opList.getD []).length < fuel →
        compactList false fuel opList = some (.ok (opList', isCompact))) ∧
      PairsRemoved (opList.getD []) (opList'.getD []) ∧
      ((∀ owner, ¬(0 < ownerMarks.openCount owner (opList'.getD []) ∧
          0 < ownerMarks.closeCount owner (opList'.getD []))) ↔
        ¬ ownerMarks.HeldUp (opList.getD [])) := by
  cases opList with
  | none =>
    refine ⟨none, false, fun _ _ => rfl, .refl _, ?_⟩
    refine iff_of_true (fun owner => ?_) (Marks.not_heldUp_of_closeCount fun _ => rfl)
    simp [Marks.openCount]
  | some ops =>
    obtain ⟨ops', isCompact, hloop, hrem, hheld⟩ :=
      compactLoop_spec (ops.length + 1) ops false (Nat.lt_succ_self _) hmode
    have hlist : ∀ fuel, ops.length < fuel →
        compactLoop false fuel ops false = some (.ok (ops', isCompact)) :=
      fun fuel hfuel => compactLoop_mono hfuel hloop
    have hiff : (∀ owner, ¬(0 < ownerMarks.openCount owner ops' ∧
        0 < ownerMarks.closeCount owner ops')) ↔ ¬ ownerMarks.HeldUp ops := by
      rw [hheld, not_exists]
    by_cases hdrop : (getFirstCompleteUnlockOp ops).isSome = true ∧ ops' = []
    · refine ⟨none, isCompact, fun fuel hfuel => ?_, ?_, ?_⟩
      · simp only [compactList, hlist fuel hfuel, Option.map_some]
        exact congrArg some (if_pos hdrop)
      · simpa [hdrop.2] using hrem
      · simpa [hdrop.2] using hiff
    · refine ⟨some ops', isCompact, fun fuel hfuel => ?_, hrem, hiff⟩
      simp only [compactList, hlist fuel hfuel, Option.map_some]
      exact congrArg some (if_neg hdrop)

/-- A committed operation in share mode on table 1. -/
def committedOp (owner : ℤ) (opType : ObTableLockOpType) : ObTableLockOp :=
  ⟨⟨.table, 1⟩, .share, ⟨0, owner⟩, 1, opType, .complete, SCN.invalid⟩

/-- A committed lock and a committed unlock, by their owners. -/
def sampleLock : ObTableLockOpLinkNode := ⟨committedOp 2 .outTransLock, by decide⟩
/-- The unlock of `sampleLock`. -/
def sampleUnlock : ObTableLockOpLinkNode := ⟨committedOp 2 .outTransUnlock, by decide⟩

/-- An unlock of an owner without a lock. -/
def loneUnlock : ObTableLockOpLinkNode := ⟨committedOp 1 .outTransUnlock, by decide⟩

/-- The pair goes first, and the unlock without a lock stays. -/
theorem compactList_exact_sample :
    (∀ e ∈ (some [sampleUnlock, sampleLock, loneUnlock]).getD [], e.lockOp.lockMode = .share) ∧
      ∃ opList' isCompact,
        (∀ fuel, 3 < fuel → compactList false fuel (some [sampleUnlock, sampleLock, loneUnlock]) =
          some (.ok (opList', isCompact))) ∧
        PairsRemoved [sampleUnlock, sampleLock, loneUnlock] (opList'.getD []) ∧
        ((∀ owner, ¬(0 < ownerMarks.openCount owner (opList'.getD []) ∧
            0 < ownerMarks.closeCount owner (opList'.getD []))) ↔
          ¬ ownerMarks.HeldUp [sampleUnlock, sampleLock, loneUnlock]) :=
  have hmode : ∀ e ∈ (some [sampleUnlock, sampleLock, loneUnlock]).getD [],
      e.lockOp.lockMode = .share := by decide
  ⟨hmode, compactList_exact .share (some [sampleUnlock, sampleLock, loneUnlock]) hmode⟩

example : compactList false 4 (some [sampleUnlock, sampleLock, loneUnlock]) =
    some (.ok (some [loneUnlock], true)) := rfl

/-- A lone unlock at the head keeps a pair. -/
theorem loneUnlock_keeps_pair :
    compactList false 4 (some [loneUnlock, sampleLock, sampleUnlock]) =
        some (.ok (some [loneUnlock, sampleLock, sampleUnlock], false)) ∧
      0 < ownerMarks.openCount ⟨0, 2⟩ [loneUnlock, sampleLock, sampleUnlock] ∧
      0 < ownerMarks.closeCount ⟨0, 2⟩ [loneUnlock, sampleLock, sampleUnlock] :=
  ⟨rfl, by decide, by decide⟩

end Andl.TableLock
