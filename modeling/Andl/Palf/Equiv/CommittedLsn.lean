import Andl.Palf.CommittedLsn

/-!
# When the leader commits behind a quorum
-/

namespace Andl.Palf.LogSlidingWindow

open Andl.Quorum

/-! ### Majorities of a member list -/

/-- At least `replicaNum / 2 + 1` members of the list have flushed their log up to `lsn`. -/
def ReachedMajority (sw : LogSlidingWindow) (memberList : ObMemberList) (replicaNum : Int)
    (lsn : LSN) : Prop :=
  replicaNum / 2 + 1 ≤ (reached sw.matchLsnMap lsn memberList.servers : Int)

instance (sw : LogSlidingWindow) (memberList : ObMemberList) (replicaNum : Int) (lsn : LSN) :
    Decidable (sw.ReachedMajority memberList replicaNum lsn) :=
  inferInstanceAs (Decidable (_ ≤ _))

/-- At least `replicaNum / 2 + 1` members of the list have an entry in the map. -/
def ReportedMajority (sw : LogSlidingWindow) (memberList : ObMemberList) (replicaNum : Int) :
    Prop :=
  replicaNum / 2 + 1 ≤ (reported sw.matchLsnMap memberList.servers : Int)

instance (sw : LogSlidingWindow) (memberList : ObMemberList) (replicaNum : Int) :
    Decidable (sw.ReportedMajority memberList replicaNum) :=
  inferInstanceAs (Decidable (_ ≤ _))

section Majority

variable {sw : LogSlidingWindow} {memberList : ObMemberList} {replicaNum : Int}

/-- Whoever has flushed up to `lsn'` has flushed up to any smaller `lsn`. -/
theorem ReachedMajority.anti {lsn lsn' : LSN} (h : sw.ReachedMajority memberList replicaNum lsn')
    (hle : lsn ≤ lsn') : sw.ReachedMajority memberList replicaNum lsn := by
  have := reached_anti sw.matchLsnMap hle memberList.servers
  unfold ReachedMajority at h ⊢
  omega

theorem getMajorityLsn_not_reported (hr : 0 < replicaNum)
    (h : ¬ sw.ReportedMajority memberList replicaNum) (resultLsn : LSN) :
    sw.getMajorityLsn memberList replicaNum resultLsn = .ok resultLsn := by
  unfold ReportedMajority at h
  unfold getMajorityLsn
  simp only [length_filterMap_eq_reported]
  rw [if_neg (by omega), if_pos (by omega)]

/-- With reports from a majority, `get_majority_lsn` returns the largest LSN that a majority has
reached. -/
theorem getMajorityLsn_reported (hr : 0 < replicaNum)
    (h : sw.ReportedMajority memberList replicaNum) (resultLsn : LSN) :
    (∃ lsn, sw.getMajorityLsn memberList replicaNum resultLsn = .ok lsn ∧ lsn.isValid = true ∧
      ∀ l, l ≤ lsn ↔ sw.ReachedMajority memberList replicaNum l) ∨
    (sw.getMajorityLsn memberList replicaNum resultLsn = .error .errUnexpected ∧
      sw.ReachedMajority memberList replicaNum LSN.invalid) := by
  unfold ReportedMajority at h
  set lsnArray := memberList.servers.filterMap sw.matchLsnMap with hArray
  set sorted := lsnArray.insertionSort fun x y => y ≤ x with hSorted
  have hlen : lsnArray.length = reported sw.matchLsnMap memberList.servers :=
    length_filterMap_eq_reported _ _
  -- the array has at most seven entries, so the asserted bound on the position holds
  have hseven : lsnArray.length ≤ obMaxMemberNumber := by
    refine (List.length_filterMap_le _ _).trans ?_
    rw [ObMemberList.servers, List.length_map]
    exact memberList.length_le
  have hpos : (replicaNum / 2).toNat < sorted.length := by
    rw [hSorted, List.length_insertionSort]
    omega
  have hcount : ∀ l, l ≤ sorted[(replicaNum / 2).toNat] ↔
      sw.ReachedMajority memberList replicaNum l := by
    intro l
    rw [le_getElem_insertionSort_iff, hArray, countP_filterMap_eq_reached]
    unfold ReachedMajority
    omega
  have heq : sw.getMajorityLsn memberList replicaNum resultLsn =
      if sorted[(replicaNum / 2).toNat].isValid then .ok sorted[(replicaNum / 2).toNat]
      else .error .errUnexpected := by
    unfold getMajorityLsn
    simp only [← hArray, ← hSorted]
    rw [if_neg (by omega), if_neg (by omega), if_neg (by omega), List.getElem?_eq_getElem hpos]
  rw [heq]
  by_cases hv : sorted[(replicaNum / 2).toNat].isValid = true
  · left
    exact ⟨_, if_pos hv, hv, hcount⟩
  · right
    refine ⟨if_neg hv, (hcount LSN.invalid).mp ?_⟩
    rw [LSN.isValid_iff, not_not] at hv
    exact hv.ge

theorem getMajorityLsn_ok_of_not_reached (hr : 0 < replicaNum) {lsn : LSN}
    (h : ¬ sw.ReachedMajority memberList replicaNum lsn) :
    ∃ l, sw.getMajorityLsn memberList replicaNum LSN.invalid = .ok l ∧
      (¬ sw.ReportedMajority memberList replicaNum → l = LSN.invalid) := by
  by_cases hrep : sw.ReportedMajority memberList replicaNum
  · rcases getMajorityLsn_reported hr hrep LSN.invalid with ⟨l, hl, -, -⟩ | ⟨-, hinv⟩
    · exact ⟨l, hl, fun hn => absurd hrep hn⟩
    · exact absurd (hinv.anti (LSN.le_invalid lsn)) h
  · exact ⟨_, getMajorityLsn_not_reported hr hrep _, fun _ => rfl⟩

theorem replicaNum_pos_of_getMajorityLsn {l : LSN}
    (h : sw.getMajorityLsn memberList replicaNum LSN.invalid = .ok l) : 0 < replicaNum := by
  by_contra hr
  rw [getMajorityLsn, if_pos (by omega)] at h
  cases h

theorem ne_invalid_of_reported {l : LSN}
    (h : sw.getMajorityLsn memberList replicaNum LSN.invalid = .ok l)
    (hrep : sw.ReportedMajority memberList replicaNum) : l ≠ LSN.invalid := by
  have hr := replicaNum_pos_of_getMajorityLsn h
  rcases getMajorityLsn_reported hr hrep LSN.invalid with ⟨l', hl', hv, -⟩ | ⟨he, -⟩
  · rw [h] at hl'
    cases hl'
    exact (LSN.isValid_iff l).mp hv
  · rw [h] at he
    cases he

theorem reachedMajority_of_getMajorityLsn {l : LSN}
    (h : sw.getMajorityLsn memberList replicaNum LSN.invalid = .ok l) (hl : l ≠ LSN.invalid) :
    sw.ReachedMajority memberList replicaNum l := by
  have hr := replicaNum_pos_of_getMajorityLsn h
  by_cases hrep : sw.ReportedMajority memberList replicaNum
  · rcases getMajorityLsn_reported hr hrep LSN.invalid with ⟨l', hl', -, hiff⟩ | ⟨he, -⟩
    · rw [h] at hl'
      cases hl'
      exact (hiff l).mp le_rfl
    · rw [h] at he
      cases he
  · rw [getMajorityLsn_not_reported hr hrep] at h
    cases h
    exact absurd rfl hl

end Majority

/-! ### What a call does to the committed end LSN -/

theorem committedEndLsn_tryAdvanceCommittedLsn (sw : LogSlidingWindow) (endLsn : LSN) :
    (sw.tryAdvanceCommittedLsn endLsn).committedEndLsn =
      if endLsn ≠ LSN.invalid ∧ sw.committedEndLsn < endLsn then endLsn
      else sw.committedEndLsn := by
  unfold tryAdvanceCommittedLsn
  by_cases hv : endLsn.isValid = true
  · have hne := (LSN.isValid_iff endLsn).mp hv
    rw [if_neg (by simp [hv])]
    by_cases hlt : sw.committedEndLsn < endLsn
    · rw [if_pos hlt, if_pos ⟨hne, hlt⟩]
    · rw [if_neg hlt, if_neg fun h => hlt h.2]
  · have hinv : ¬ endLsn ≠ LSN.invalid := fun h => hv ((LSN.isValid_iff endLsn).mpr h)
    rw [if_pos (by simpa using hv), if_neg fun h => hinv h.1]

theorem tryAdvanceCommittedLsn_raise {sw : LogSlidingWindow} {endLsn : LSN}
    (h : sw.committedEndLsn < (if sw.isChangingConfigWithArb then sw
      else sw.tryAdvanceCommittedLsn endLsn).committedEndLsn) :
    sw.isChangingConfigWithArb = false ∧ endLsn ≠ LSN.invalid ∧
      (if sw.isChangingConfigWithArb then sw
        else sw.tryAdvanceCommittedLsn endLsn).committedEndLsn = endLsn := by
  cases ha : sw.isChangingConfigWithArb with
  | true =>
    rw [ha, if_pos rfl] at h
    exact absurd h (lt_irrefl _)
  | false =>
    rw [ha, if_neg Bool.false_ne_true, committedEndLsn_tryAdvanceCommittedLsn] at h
    rw [if_neg Bool.false_ne_true, committedEndLsn_tryAdvanceCommittedLsn]
    split_ifs at h ⊢ with hc
    · exact ⟨rfl, hc.1, rfl⟩
    · exact absurd h (lt_irrefl _)

/-- Past the barrier only the current member list commits. -/
theorem genCommittedEndLsn_after_barrier {sw : LogSlidingWindow} (hi : sw.mm.isInit = true)
    (hb : sw.isBeforeBarrier = false) {c : LSN}
    (hc : sw.getMajorityLsn sw.mm.curr.config.logSyncMemberlist sw.mm.curr.config.logSyncReplicaNum
      LSN.invalid = .ok c) :
    sw.genCommittedEndLsn =
      (.ok c, if sw.isChangingConfigWithArb then sw else sw.tryAdvanceCommittedLsn c) := by
  simp [genCommittedEndLsn, getLogSyncMemberListForGenerateCommittedLsn, hi, hb, hc,
    combineMajorityLsn]

/-- Before the barrier both member lists may commit, up to the barrier. -/
theorem genCommittedEndLsn_before_barrier {sw : LogSlidingWindow} (hi : sw.mm.isInit = true)
    (hb : sw.isBeforeBarrier = true) {c p : LSN}
    (hc : sw.getMajorityLsn sw.mm.curr.config.logSyncMemberlist sw.mm.curr.config.logSyncReplicaNum
      LSN.invalid = .ok c)
    (hp : sw.getMajorityLsn sw.mm.prev.config.logSyncMemberlist sw.mm.prev.config.logSyncReplicaNum
      LSN.invalid = .ok p) :
    sw.genCommittedEndLsn = (.ok (min (max p c) sw.mm.reconfigBarrier.prevEndLsn),
      if sw.isChangingConfigWithArb then sw
      else sw.tryAdvanceCommittedLsn (min (max p c) sw.mm.reconfigBarrier.prevEndLsn)) := by
  simp [genCommittedEndLsn, getLogSyncMemberListForGenerateCommittedLsn, hi, hb, hc, hp,
    combineMajorityLsn]

/-- The committed end LSN rises to the majority LSN of the current members, before a barrier limited
by the previous members and the barrier. -/
theorem genCommittedEndLsn_raise {sw : LogSlidingWindow}
    (h : sw.committedEndLsn < sw.genCommittedEndLsn.2.committedEndLsn) :
    sw.mm.isInit = true ∧ sw.isChangingConfigWithArb = false ∧
    ∃ c, sw.getMajorityLsn sw.mm.curr.config.logSyncMemberlist sw.mm.curr.config.logSyncReplicaNum
        LSN.invalid = .ok c ∧
      ((sw.isBeforeBarrier = false ∧ c ≠ LSN.invalid ∧
          sw.genCommittedEndLsn.2.committedEndLsn = c) ∨
        (sw.isBeforeBarrier = true ∧
          ∃ p, sw.getMajorityLsn sw.mm.prev.config.logSyncMemberlist
            sw.mm.prev.config.logSyncReplicaNum LSN.invalid = .ok p ∧
          sw.genCommittedEndLsn.2.committedEndLsn =
            min (max p c) sw.mm.reconfigBarrier.prevEndLsn)) := by
  have hi : sw.mm.isInit = true := by
    by_contra hi
    simp [genCommittedEndLsn, getLogSyncMemberListForGenerateCommittedLsn,
      Bool.eq_false_of_not_eq_true hi] at h
  cases hc : sw.getMajorityLsn sw.mm.curr.config.logSyncMemberlist
      sw.mm.curr.config.logSyncReplicaNum LSN.invalid with
  | error e =>
    cases hb : sw.isBeforeBarrier <;>
      simp [genCommittedEndLsn, getLogSyncMemberListForGenerateCommittedLsn, hi, hb, hc] at h
  | ok c =>
    cases hb : sw.isBeforeBarrier with
    | false =>
      rw [genCommittedEndLsn_after_barrier hi hb hc] at h ⊢
      obtain ⟨ha, hne, heq⟩ := tryAdvanceCommittedLsn_raise h
      exact ⟨hi, ha, c, rfl, Or.inl ⟨rfl, hne, heq⟩⟩
    | true =>
      cases hp : sw.getMajorityLsn sw.mm.prev.config.logSyncMemberlist
          sw.mm.prev.config.logSyncReplicaNum LSN.invalid with
      | error e =>
        simp [genCommittedEndLsn, getLogSyncMemberListForGenerateCommittedLsn, hi, hb, hc,
          hp] at h
      | ok p =>
        rw [genCommittedEndLsn_before_barrier hi hb hc hp] at h ⊢
        obtain ⟨ha, -, heq⟩ := tryAdvanceCommittedLsn_raise h
        exact ⟨hi, ha, c, rfl, Or.inr ⟨rfl, p, rfl, heq⟩⟩

/-! ### Commitment and quorums -/

/-- A call that raises the committed end LSN raises it to an LSN that a majority of the current list
has reached or, before the barrier and not past it, a majority of the previous list. -/
def CommitsBehindQuorum (sw : LogSlidingWindow) : Prop :=
  sw.committedEndLsn < sw.genCommittedEndLsn.2.committedEndLsn →
    sw.ReachedMajority sw.mm.curr.config.logSyncMemberlist sw.mm.curr.config.logSyncReplicaNum
      sw.genCommittedEndLsn.2.committedEndLsn ∨
    (sw.isBeforeBarrier = true ∧
      sw.genCommittedEndLsn.2.committedEndLsn ≤ sw.mm.reconfigBarrier.prevEndLsn ∧
      sw.ReachedMajority sw.mm.prev.config.logSyncMemberlist sw.mm.prev.config.logSyncReplicaNum
        sw.genCommittedEndLsn.2.committedEndLsn)

/-- The leader may consult the majorities: nothing is consulted (not initialised, a configuration
change with arbitration is under way, or a replica number fails the assertion), only the current
list is (past the barrier), both lists have a majority of their members in the map, or a majority of
one of them has reached the barrier. -/
def MajoritiesKnown (sw : LogSlidingWindow) : Prop :=
  sw.mm.isInit = false ∨ sw.isChangingConfigWithArb = true ∨ sw.isBeforeBarrier = false ∨
  sw.mm.curr.config.logSyncReplicaNum ≤ 0 ∨ sw.mm.prev.config.logSyncReplicaNum ≤ 0 ∨
  (sw.ReportedMajority sw.mm.curr.config.logSyncMemberlist sw.mm.curr.config.logSyncReplicaNum ∧
    sw.ReportedMajority sw.mm.prev.config.logSyncMemberlist sw.mm.prev.config.logSyncReplicaNum) ∨
  sw.ReachedMajority sw.mm.curr.config.logSyncMemberlist sw.mm.curr.config.logSyncReplicaNum
    sw.mm.reconfigBarrier.prevEndLsn ∨
  sw.ReachedMajority sw.mm.prev.config.logSyncMemberlist sw.mm.prev.config.logSyncReplicaNum
    sw.mm.reconfigBarrier.prevEndLsn

theorem isBeforeBarrier_iff (sw : LogSlidingWindow) :
    sw.isBeforeBarrier = true ↔
      sw.committedEndLsn < sw.mm.reconfigBarrier.prevEndLsn ∧
      sw.mm.reconfigBarrier.prevEndLsn ≠ LSN.invalid ∧
      sw.lastSubmitModePid = sw.mm.reconfigBarrier.prevModePid := by
  simp [isBeforeBarrier, LSN.isValid_iff, and_assoc]

theorem reached_of_min_max {sw : LogSlidingWindow} {c p barrier : LSN}
    (hc : sw.getMajorityLsn sw.mm.curr.config.logSyncMemberlist sw.mm.curr.config.logSyncReplicaNum
      LSN.invalid = .ok c)
    (hp : sw.getMajorityLsn sw.mm.prev.config.logSyncMemberlist sw.mm.prev.config.logSyncReplicaNum
      LSN.invalid = .ok p)
    (hcv : c ≠ LSN.invalid) (hpv : p ≠ LSN.invalid) :
    sw.ReachedMajority sw.mm.curr.config.logSyncMemberlist sw.mm.curr.config.logSyncReplicaNum
      (min (max p c) barrier) ∨
    sw.ReachedMajority sw.mm.prev.config.logSyncMemberlist sw.mm.prev.config.logSyncReplicaNum
      (min (max p c) barrier) := by
  rcases le_total p c with hle | hle
  · left
    rw [max_eq_right hle]
    exact (reachedMajority_of_getMajorityLsn hc hcv).anti (min_le_left _ _)
  · right
    rw [max_eq_left hle]
    exact (reachedMajority_of_getMajorityLsn hp hpv).anti (min_le_left _ _)

/-- With the majorities known, a commit is behind a quorum. -/
theorem commitsBehindQuorum_of_majoritiesKnown {sw : LogSlidingWindow}
    (hk : sw.MajoritiesKnown) : sw.CommitsBehindQuorum := by
  intro hraise
  obtain ⟨hi, ha, c, hc, ⟨-, hcv, hL⟩ | ⟨hb, p, hp, hL⟩⟩ := genCommittedEndLsn_raise hraise
  · -- past the barrier: the current list alone
    rw [hL]
    exact Or.inl (reachedMajority_of_getMajorityLsn hc hcv)
  · have hbar : sw.genCommittedEndLsn.2.committedEndLsn ≤ sw.mm.reconfigBarrier.prevEndLsn := by
      rw [hL]
      exact min_le_right _ _
    rcases hk with h | h | h | h | h | ⟨hcr, hpr⟩ | h | h
    · exact absurd hi (by simp [h])
    · exact absurd h (by simp [ha])
    · exact absurd hb (by simp [h])
    · rw [getMajorityLsn, if_pos h] at hc
      cases hc
    · rw [getMajorityLsn, if_pos h] at hp
      cases hp
    · rw [hL] at hbar ⊢
      rcases reached_of_min_max hc hp (ne_invalid_of_reported hc hcr)
        (ne_invalid_of_reported hp hpr) with h | h
      · exact Or.inl h
      · exact Or.inr ⟨hb, hbar, h⟩
    · exact Or.inl (h.anti hbar)
    · exact Or.inr ⟨hb, hbar, h.anti hbar⟩

theorem genCommittedEndLsn_of_not_majoritiesKnown {sw : LogSlidingWindow}
    (hk : ¬ sw.MajoritiesKnown) :
    sw.committedEndLsn < sw.mm.reconfigBarrier.prevEndLsn ∧
    sw.genCommittedEndLsn.2.committedEndLsn = sw.mm.reconfigBarrier.prevEndLsn := by
  unfold MajoritiesKnown at hk
  push Not at hk
  obtain ⟨hi, ha, hb, hcr, hpr, hrep, hcb, hpb⟩ := hk
  replace hi : sw.mm.isInit = true := by simpa using hi
  replace hb : sw.isBeforeBarrier = true := by simpa using hb
  obtain ⟨hlt, hbv, -⟩ := (isBeforeBarrier_iff sw).mp hb
  obtain ⟨c, hc, hcinv⟩ := getMajorityLsn_ok_of_not_reached hcr hcb
  obtain ⟨p, hp, hpinv⟩ := getMajorityLsn_ok_of_not_reached hpr hpb
  -- one of the two results is the invalid LSN, which wins the maximum
  have hmax : max p c = LSN.invalid := by
    by_cases hcrep : sw.ReportedMajority sw.mm.curr.config.logSyncMemberlist
        sw.mm.curr.config.logSyncReplicaNum
    · rw [hpinv (hrep hcrep)]
      exact max_eq_left (LSN.le_invalid c)
    · rw [hcinv hcrep]
      exact max_eq_right (LSN.le_invalid p)
  refine ⟨hlt, ?_⟩
  rw [genCommittedEndLsn_before_barrier hi hb hc hp, if_neg ha,
    committedEndLsn_tryAdvanceCommittedLsn, hmax, min_eq_right (LSN.le_invalid _),
    if_pos ⟨hbv, hlt⟩]

/-- **Commitment and quorums**: a call of `gen_committed_end_lsn_` never commits past a
quorum exactly when the majorities it consults are known. -/
theorem commitsBehindQuorum_iff (sw : LogSlidingWindow) :
    sw.CommitsBehindQuorum ↔ sw.MajoritiesKnown := by
  constructor
  · intro h
    by_contra hk
    obtain ⟨hlt, hL⟩ := genCommittedEndLsn_of_not_majoritiesKnown hk
    have hq := h (by rw [hL]; exact hlt)
    rw [hL] at hq
    apply hk
    unfold MajoritiesKnown
    rcases hq with hq | ⟨-, -, hq⟩
    · simp only [hq, true_or, or_true]
    · simp only [hq, or_true]
  · exact commitsBehindQuorum_of_majoritiesKnown

/-! ### A leader that commits without a quorum -/

/-- The first of two servers. -/
def serverA : ObMember := ⟨⟨.ipv4, 1, 2882⟩, 1, 0⟩

/-- The second of two servers. -/
def serverB : ObMember := ⟨⟨.ipv4, 2, 2882⟩, 1, 0⟩

/-- An unlocked configuration without learners or arbitration member. -/
def plainConfig (logSyncMemberlist : ObMemberList) (logSyncReplicaNum configSeq : Int) :
    LogConfigInfoV2 where
  version := 1
  config :=
    { logSyncMemberlist := logSyncMemberlist
      logSyncReplicaNum := logSyncReplicaNum
      arbitrationMember := ObMember.reset
      learnerlist := GlobalLearnerList.empty
      degradedLearnerlist := GlobalLearnerList.empty
      configVersion := ⟨1, configSeq⟩ }
  lockMeta := ⟨1, obInvalidConfigChangeLockOwner, lockNothing, obInvalidTimestamp⟩

/-- `A` has just removed `B`, and with it the map entry of `B`, from a group of two. -/
def leaderAfterRemoval : LogSlidingWindow where
  matchLsnMap := fun server => if server = serverA.server then some (LSN.ofNat 50) else none
  committedEndLsn := LSN.ofNat 40
  mm :=
    { isInit := true
      self := serverA.server
      proposalId := 1
      checkConfigMetaSize := fun _ => true
      prev := plainConfig ⟨[serverA, serverB], by decide, by decide, by decide⟩ 2 1
      curr := plainConfig ⟨[serverA], by decide, by decide, by decide⟩ 1 2
      reconfigBarrier := ⟨LSN.ofNat 100, 1⟩ }
  lastSubmitModePid := 1
  isChangingConfigWithArb := false

/-- The leader commits the barrier LSN, which nobody has flushed. -/
theorem commits_barrier_without_quorum :
    leaderAfterRemoval.genCommittedEndLsn.2.committedEndLsn = LSN.ofNat 100 ∧
    ¬ leaderAfterRemoval.CommitsBehindQuorum := by
  have hL : leaderAfterRemoval.genCommittedEndLsn.2.committedEndLsn = LSN.ofNat 100 := by decide
  refine ⟨hL, fun h => ?_⟩
  have hq := h (by rw [hL]; decide)
  rw [hL] at hq
  revert hq
  decide

end Andl.Palf.LogSlidingWindow
