import Andl.Palf.Equiv.CommittedLsn
import Andl.Palf.Equiv.ConfigMgr

/-!
# Committed logs are on every majority

A leader and the servers that acknowledge its log: acks may be delayed, lost, repeated and
reordered.
-/

namespace Andl.Palf

open List LogSlidingWindow Quorum

/-- The leader, how much of its log each server has flushed, and the acks sent so far. -/
structure AckNet where
  sw : LogSlidingWindow
  flushed : ObAddr → LSN
  acks : List (ObAddr × LSN)

namespace AckNet

/-- A step of the leader, a server or the network. -/
inductive Step : AckNet → AckNet → Prop
  /-- a server flushes more of the leader's log -/
  | flush {n : AckNet} {server : ObAddr} {lsn : LSN} (hle : n.flushed server ≤ lsn) :
      Step n { n with flushed := Function.update n.flushed server lsn }
  /-- a server acknowledges what it has flushed -/
  | send {n : AckNet} {server : ObAddr} {lsn : LSN} (hle : lsn ≤ n.flushed server) :
      Step n { n with acks := (server, lsn) :: n.acks }
  /-- the ack stays in the network, and may come again -/
  | deliver {n : AckNet} {server : ObAddr} {lsn : LSN} (isLeaderActive : Bool)
      (hack : (server, lsn) ∈ n.acks) :
      Step n { n with sw := (n.sw.ackLog isLeaderActive server lsn).2 }
  /-- the leader's own flush callback -/
  | flushed {n : AckNet} {lsn : LSN} (isLeaderActive : Bool)
      (hle : lsn ≤ n.flushed n.sw.mm.self) :
      Step n { n with sw := n.sw.afterFlushLog isLeaderActive lsn }

/-- The leader has just taken over, past the barrier of the last reconfiguration, with a
configuration that passes the check every new configuration has to pass. -/
structure Started (n : AckNet) : Prop where
  acks : n.acks = []
  barrier : n.sw.isBeforeBarrier = false
  majority : LogConfigMgr.canMemberlistMajority
    n.sw.mm.curr.config.logSyncMemberlist.getMemberNumber
    n.sw.mm.curr.config.logSyncReplicaNum = true
  reset : ∃ (sw : LogSlidingWindow) (lsn : LSN), lsn ≤ n.flushed n.sw.mm.self ∧
    sw.resetMatchLsnMap lsn = .ok n.sw

/-- What holds in a run that started in `n₀`. -/
structure Inv (n₀ n : AckNet) : Prop where
  committed_le : n₀.sw.committedEndLsn ≤ n.sw.committedEndLsn
  barrier : n.sw.isBeforeBarrier = false
  mm_eq : n.sw.mm = n₀.sw.mm
  acks {server : ObAddr} {lsn : LSN} : (server, lsn) ∈ n.acks → lsn ≤ n.flushed server
  /-- what was not acknowledged was committed before -/
  matched {server : ObAddr} {lsn : LSN} : n.sw.matchLsnMap server = some lsn →
    lsn ≤ n.flushed server ∨ lsn ≤ n₀.sw.committedEndLsn
  held : n₀.sw.committedEndLsn < n.sw.committedEndLsn →
    n.sw.mm.curr.config.logSyncReplicaNum / 2 + 1 ≤
      (reached (some ∘ n.flushed) n.sw.committedEndLsn
        n.sw.mm.curr.config.logSyncMemberlist.servers : Int)

variable {n₀ n n' : AckNet} {server : ObAddr} {lsn : LSN}

/-- Generating the committed end changes nothing else, and never lowers it. -/
theorem genCommittedEndLsn_eq (sw : LogSlidingWindow) :
    ∃ lsn, sw.committedEndLsn ≤ lsn ∧
      sw.genCommittedEndLsn.2 = { sw with committedEndLsn := lsn } := by
  have hadvance (endLsn : LSN) : ∃ lsn, sw.committedEndLsn ≤ lsn ∧
      sw.tryAdvanceCommittedLsn endLsn = { sw with committedEndLsn := lsn } := by
    unfold tryAdvanceCommittedLsn
    split_ifs with hvalid hlt
    · exact ⟨_, le_rfl, rfl⟩
    · exact ⟨_, hlt.le, rfl⟩
    · exact ⟨_, le_rfl, rfl⟩
  have hsame : ∃ lsn, sw.committedEndLsn ≤ lsn ∧ sw = { sw with committedEndLsn := lsn } :=
    ⟨_, le_rfl, rfl⟩
  unfold genCommittedEndLsn
  repeat' split
  all_goals first | exact hsame | exact hadvance _

/-- The committed end that `gen_committed_end_lsn_` finds has been flushed by a majority. -/
theorem Inv.gen (h : Inv n₀ n) : Inv n₀ { n with sw := n.sw.genCommittedEndLsn.2 } := by
  obtain ⟨lsn, hle, heq⟩ := genCommittedEndLsn_eq n.sw
  have hraise := @genCommittedEndLsn_raise n.sw
  rw [heq] at hraise ⊢
  have hb := h.barrier
  refine ⟨h.committed_le.trans hle, ?_, h.mm_eq, h.acks, h.matched, fun hlt => ?_⟩
  · -- past the barrier once, past it for good
    by_contra hbefore
    have hbefore := (isBeforeBarrier_iff _).mp (by simpa using hbefore)
    rw [(isBeforeBarrier_iff n.sw).mpr ⟨hle.trans_lt hbefore.1, hbefore.2⟩] at hb
    cases hb
  rcases hle.eq_or_lt with rfl | hnew
  · exact h.held hlt
  obtain ⟨-, -, c, hc, ⟨-, hvalid, rfl⟩ | ⟨hb', -⟩⟩ := hraise hnew
  · refine (reachedMajority_of_getMajorityLsn hc hvalid).trans ?_
    norm_cast
    refine countP_mono_left fun server _ hreached => ?_
    obtain ⟨l, hl, hle'⟩ := (Option.any_eq_true _ _).mp hreached
    have hle' : lsn ≤ l := of_decide_eq_true hle'
    refine decide_eq_true ((h.matched hl).elim hle'.trans fun hold => ?_)
    exact absurd (hlt.trans_le (hle'.trans hold)) (lt_irrefl _)
  · rw [hb] at hb'
    cases hb'

/-- Recording what a server has flushed keeps the invariant. -/
theorem Inv.update (h : Inv n₀ n) (hle : lsn ≤ n.flushed server) :
    Inv n₀ { n with sw := (n.sw.tryUpdateMatchLsnMap server lsn).2 } := by
  have hupdated : Inv n₀ { n with sw := { n.sw with
      matchLsnMap := Function.update n.sw.matchLsnMap server (some lsn) } } := by
    refine ⟨h.committed_le, h.barrier, h.mm_eq, h.acks, fun {server' lsn'} hmatch => ?_, h.held⟩
    dsimp only at hmatch
    by_cases hs : server' = server
    · subst hs
      rw [Function.update_self] at hmatch
      exact .inl (Option.some.inj hmatch ▸ hle)
    · rw [Function.update_of_ne hs] at hmatch
      exact h.matched hmatch
  unfold tryUpdateMatchLsnMap
  repeat' split
  all_goals first | exact h | exact hupdated

/-- Every step of the leader, of a follower or of the network keeps the invariant. -/
theorem Inv.step (h : Inv n₀ n) (hstep : Step n n') : Inv n₀ n' := by
  cases hstep with
  | @flush server lsn hle =>
    have hgrow (s : ObAddr) : n.flushed s ≤ Function.update n.flushed server lsn s := by
      by_cases hs : s = server
      · rwa [hs, Function.update_self]
      · rw [Function.update_of_ne hs]
    refine ⟨h.committed_le, h.barrier, h.mm_eq, fun hack => (h.acks hack).trans (hgrow _),
      fun hmatch => (h.matched hmatch).imp_left fun hle => hle.trans (hgrow _), fun hlt => ?_⟩
    refine (h.held hlt).trans ?_
    norm_cast
    refine countP_mono_left fun s _ hs => ?_
    exact decide_eq_true ((of_decide_eq_true hs : _ ≤ n.flushed s).trans (hgrow s))
  | send hle =>
    refine ⟨h.committed_le, h.barrier, h.mm_eq, fun hack => ?_, h.matched, h.held⟩
    rcases mem_cons.mp hack with heq | hack
    · cases heq
      exact hle
    · exact h.acks hack
  | @deliver server lsn isLeaderActive hack =>
    have hupdate := h.update (h.acks hack)
    rcases htry : n.sw.tryUpdateMatchLsnMap server lsn with ⟨e | u, sw⟩
    all_goals
      rw [htry] at hupdate
      simp only [ackLog, htry]
      split_ifs
      all_goals first | exact h | exact hupdate | exact hupdate.gen
  | @flushed lsn isLeaderActive hle =>
    have hupdate := h.update hle
    cases isLeaderActive with
    | false => exact hupdate
    | true => exact hupdate.gen

theorem Started.inv (h : n₀.Started) : Inv n₀ n₀ := by
  refine ⟨le_rfl, h.barrier, rfl, fun hack => ?_, fun {server lsn} hmatch => ?_,
    fun hlt => absurd hlt (lt_irrefl _)⟩
  · rw [h.acks] at hack
    exact absurd hack not_mem_nil
  · obtain ⟨sw, max, hmax, hreset⟩ := h.reset
    unfold resetMatchLsnMap at hreset
    split_ifs at hreset
    rw [← Except.ok.inj hreset] at hmatch hmax ⊢
    dsimp only at hmatch hmax ⊢
    split_ifs at hmatch with hmem hself
    · rw [← Option.some.inj hmatch, ← hself]
      exact .inl hmax
    · exact .inr (Option.some.inj hmatch).ge

/-- Some server of each majority of a configuration has flushed all that is committed. -/
def HeldByMajorities (n : AckNet) (c : LogConfigInfo) : Prop :=
  ∀ q : Finset ObAddr, q ⊆ c.logSyncMemberlist.servers.toFinset →
    c.logSyncReplicaNum / 2 + 1 ≤ (q.card : Int) →
    ∃ server ∈ q, n.sw.committedEndLsn ≤ n.flushed server

/-- What is committed is on every majority of the current configuration, and on every majority of
any new configuration whose majorities meet those of the current one. -/
def OnMajorities (n : AckNet) : Prop :=
  n.HeldByMajorities n.sw.mm.curr.config ∧
    ∀ new, QuorumsMeet n.sw.mm.curr.config new → n.HeldByMajorities new

theorem Inv.heldByMajorities (h : Inv n₀ n)
    (hlt : n₀.sw.committedEndLsn < n.sw.committedEndLsn) {new : LogConfigInfo}
    (hmeet : QuorumsMeet n.sw.mm.curr.config new) : n.HeldByMajorities new := by
  intro q hq hcard
  have hheld := h.held hlt
  let l := n.sw.mm.curr.config.logSyncMemberlist
  rw [reached, countP_eq_length_filter, ← toFinset_card_of_nodup (l.nodup_servers.filter _)] at hheld
  obtain ⟨server, hs, hsq⟩ := hmeet _ q
    (fun s hs => mem_toFinset.mpr (mem_of_mem_filter (mem_toFinset.mp hs))) hheld hq hcard
  exact ⟨server, hsq, of_decide_eq_true (mem_filter.mp (mem_toFinset.mp hs)).2⟩

/-- Two majorities of the current configuration meet: it has no more members than replicas. -/
theorem Started.quorumsMeet (h : n₀.Started) :
    QuorumsMeet n₀.sw.mm.curr.config n₀.sw.mm.curr.config := by
  have hle := ((LogConfigMgr.canMemberlistMajority_iff _ _).mp h.majority).1
  exact quorumsMeet_of_oneServerChange (.same rfl) hle hle

/-- **Committed logs are on every majority**, whatever becomes of the acks: the committed end never
decreases, and once it has been raised some server of every majority has flushed the log up to it.
-/
theorem committed_on_majorities (hstart : n₀.Started) (hrun : Relation.ReflTransGen Step n₀ n) :
    n₀.sw.committedEndLsn ≤ n.sw.committedEndLsn ∧
      (n₀.sw.committedEndLsn < n.sw.committedEndLsn → n.OnMajorities) := by
  have h : Inv n₀ n := by
    induction hrun with
    | refl => exact hstart.inv
    | tail _ hstep ih => exact ih.step hstep
  have hmeet : QuorumsMeet n.sw.mm.curr.config n.sw.mm.curr.config := by
    rw [h.mm_eq]
    exact hstart.quorumsMeet
  exact ⟨h.committed_le, fun hlt => ⟨h.heldByMajorities hlt hmeet,
    fun new => h.heldByMajorities hlt⟩⟩

theorem committed_on_majorities_twoServers : ∃ n₀ n, Started n₀ ∧
    Relation.ReflTransGen Step n₀ n ∧ n.sw.committedEndLsn = LSN.ofNat 50 ∧ n.OnMajorities := by
  -- the two servers before the removal
  let sw := { leaderAfterRemoval with mm := { leaderAfterRemoval.mm with
    curr := leaderAfterRemoval.mm.prev
    reconfigBarrier := ⟨LSN.ofNat 40, 1⟩ } }
  let n₀ : AckNet :=
    ⟨(sw.resetMatchLsnMap (LSN.ofNat 50)).toOption.getD sw, fun _ => LSN.ofNat 50, []⟩
  have hstart : Started n₀ := ⟨rfl, by decide, by decide, sw, LSN.ofNat 50, le_rfl, rfl⟩
  have hsend := @Step.send n₀ serverB.server (LSN.ofNat 50) le_rfl
  have hrun := (Relation.ReflTransGen.single hsend).tail (.deliver true mem_cons_self)
  exact ⟨_, _, hstart, hrun, by decide, (committed_on_majorities hstart hrun).2 (by decide)⟩

end AckNet

end Andl.Palf
