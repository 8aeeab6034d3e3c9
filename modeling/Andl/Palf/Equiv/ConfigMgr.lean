import Andl.Palf.ConfigMgr

/-!
# Single-step reconfiguration keeps quorums intersecting
-/

namespace Andl.Palf

open LogConfigChangeType List

namespace LogConfigInfo

/-! ### Disjoint lists -/

/-- The servers of a configuration, list by list: the arbitration member, the log-sync members, the
degraded learners and the learners. -/
def serverLists (c : LogConfigInfo) : List (List ObAddr) :=
  [if c.arbitrationMember.isValid then [c.arbitrationMember.server] else [],
    c.logSyncMemberlist.servers,
    c.degradedLearnerlist.learners.map ObMember.server,
    c.learnerlist.learners.map ObMember.server]

theorem addLearner_ok {l l' : GlobalLearnerList} {m : ObMember} (h : l.addLearner m = .ok l') :
    l'.learners = l.learners ++ [m] ∧ m.isValid = true := by
  unfold GlobalLearnerList.addLearner at h
  split_ifs at h with hv hn hc
  cases h
  exact ⟨rfl, by simpa using hv⟩

theorem checkListUnique_ok {ms : List ObMember} :
    ∀ {s s' : GlobalLearnerList}, checkListUnique s ms = .ok s' →
      s'.learners = s.learners ++ ms ∧
      ((s.learners.map ObMember.server).Nodup → (s'.learners.map ObMember.server).Nodup) := by
  induction ms with
  | nil =>
    intro s s' h
    cases h
    exact ⟨(append_nil _).symm, id⟩
  | cons m ms ih =>
    intro s s' h
    unfold checkListUnique at h
    split_ifs at h with hc
    cases hadd : s.addLearner m with
    | error e => rw [hadd] at h; cases h
    | ok t =>
      rw [hadd] at h
      obtain ⟨ht, hmv⟩ := addLearner_ok hadd
      obtain ⟨hs', hnd⟩ := ih h
      refine ⟨by rw [hs', ht, append_assoc, singleton_append], fun hs => hnd ?_⟩
      -- the server was looked up before it was added
      have hnot : m.server ∉ s.learners.map ObMember.server := by
        intro hmem
        obtain ⟨x, hx, hxs⟩ := mem_map.mp hmem
        apply hc
        rw [GlobalLearnerList.containsServer, Bool.and_eq_true]
        exact ⟨hmv, any_eq_true.mpr ⟨x, hx, by simpa using hxs⟩⟩
      rw [ht, map_append, nodup_append]
      refine ⟨hs, nodup_singleton _, fun a ha b hb hab => hnot ?_⟩
      rw [map_singleton, mem_singleton] at hb
      rwa [← hb, ← hab]

/-- `is_all_list_unique` makes the server lists of a configuration disjoint. -/
theorem pairwise_disjoint_serverLists {c : LogConfigInfo} (h : c.isAllListUnique = true) :
    c.serverLists.Pairwise List.Disjoint := by
  simp only [isAllListUnique, ObResult.toBool_eq_true, ObResult.bind_eq_ok] at h
  obtain ⟨s3, s0, h0, s1, h1, s2, h2, h3⟩ := h
  have harb : s0.learners.map ObMember.server =
      if c.arbitrationMember.isValid then [c.arbitrationMember.server] else [] := by
    unfold arbitrationServerList at h0
    split_ifs at h0 with ha
    · rw [(addLearner_ok h0).1, if_pos ha]
      rfl
    · cases h0
      rw [if_neg ha]
      rfl
  obtain ⟨e1, n1⟩ := checkListUnique_ok h1
  obtain ⟨e2, n2⟩ := checkListUnique_ok h2
  obtain ⟨e3, n3⟩ := checkListUnique_ok h3
  have hnodup : (s3.learners.map ObMember.server).Nodup := by
    apply n3; apply n2; apply n1
    rw [harb]
    split_ifs
    · exact nodup_singleton _
    · exact nodup_nil
  have hflat : s3.learners.map ObMember.server = c.serverLists.flatten := by
    rw [e3, e2, e1]
    simp [serverLists, harb, ObMemberList.servers]
  rw [hflat] at hnodup
  exact (nodup_flatten.mp hnodup).2

/-- The version plays no part in comparing the lists. -/
theorem isAllListUnique_configVersion (c : LogConfigInfo) (v : LogConfigVersion) :
    ({ c with configVersion := v } : LogConfigInfo).isAllListUnique = c.isAllListUnique := rfl

end LogConfigInfo

/-! ### Majorities of neighbouring lists -/

/-- The second list is the first, with at most one server more or less. -/
inductive OneServerChange (l l' : ObMemberList) : Prop
  | same (h : l'.servers = l.servers)
  | add (server : ObAddr) (h : l'.servers.Perm (server :: l.servers))
  | remove (server : ObAddr) (h : l.servers.Perm (server :: l'.servers))

theorem OneServerChange.exists_superset {l l' : ObMemberList} (h : OneServerChange l l') :
    ∃ u : Finset ObAddr, l.servers.toFinset ⊆ u ∧ l'.servers.toFinset ⊆ u ∧
      (u.card = l.members.length ∧ l'.members.length ≤ l.members.length ∧
          l.members.length ≤ l'.members.length + 1 ∨
        u.card = l'.members.length ∧ l'.members.length = l.members.length + 1) := by
  have hcard : l.servers.toFinset.card = l.members.length := by
    rw [toFinset_card_of_nodup l.nodup_servers, ObMemberList.servers,
      length_map]
  have hcard' : l'.servers.toFinset.card = l'.members.length := by
    rw [toFinset_card_of_nodup l'.nodup_servers, ObMemberList.servers,
      length_map]
  have hlen : l.servers.length = l.members.length := length_map _
  have hlen' : l'.servers.length = l'.members.length := length_map _
  rcases h with h | ⟨server, h⟩ | ⟨server, h⟩
  · refine ⟨l.servers.toFinset, Finset.Subset.refl _, by rw [h], Or.inl ⟨hcard, ?_⟩⟩
    rw [h] at hlen'
    omega
  · have hle := h.length_eq
    rw [length_cons] at hle
    refine ⟨l'.servers.toFinset, ?_, Finset.Subset.refl _, Or.inr ⟨hcard', by omega⟩⟩
    intro a ha
    rw [mem_toFinset] at ha ⊢
    exact h.mem_iff.mpr (mem_cons_of_mem _ ha)
  · have hle := h.length_eq
    rw [length_cons] at hle
    refine ⟨l.servers.toFinset, Finset.Subset.refl _, ?_, Or.inl ⟨hcard, by omega⟩⟩
    intro a ha
    rw [mem_toFinset] at ha ⊢
    exact h.mem_iff.mpr (mem_cons_of_mem _ ha)

/-- Every majority of the old log-sync list shares a server with every majority of the new one. -/
def QuorumsMeet (old new : LogConfigInfo) : Prop :=
  ∀ q q' : Finset ObAddr,
    q ⊆ old.logSyncMemberlist.servers.toFinset → old.logSyncReplicaNum / 2 + 1 ≤ (q.card : Int) →
    q' ⊆ new.logSyncMemberlist.servers.toFinset → new.logSyncReplicaNum / 2 + 1 ≤ (q'.card : Int) →
    ∃ server, server ∈ q ∧ server ∈ q'

/-- Majorities of two configurations that differ in one log sync member meet. -/
theorem quorumsMeet_of_oneServerChange {old new : LogConfigInfo}
    (h : OneServerChange old.logSyncMemberlist new.logSyncMemberlist)
    (hold : (old.logSyncMemberlist.members.length : Int) ≤ old.logSyncReplicaNum)
    (hnew : (new.logSyncMemberlist.members.length : Int) ≤ new.logSyncReplicaNum) :
    QuorumsMeet old new := by
  intro q q' hq hqc hq' hqc'
  obtain ⟨u, hu, hu', hcard⟩ := h.exists_superset
  have hlt : u.card < q.card + q'.card := by
    rcases hcard with ⟨hc, h1, h2⟩ | ⟨hc, h1⟩ <;> omega
  obtain ⟨server, hs⟩ := Finset.inter_nonempty_of_card_lt_card_add_card (hq.trans hu)
    (hq'.trans hu') hlt
  exact ⟨server, Finset.mem_inter.mp hs⟩

/-! ### What the stages do to the log-sync list -/

namespace LogConfigMgr

variable {c c' : LogConfigInfo} {args : LogConfigChangeArgs}

/-- The log-sync list after a command that is not forced. -/
inductive LogSyncChange (c : LogConfigInfo) (args : LogConfigChangeArgs) (l' : ObMemberList) :
    Prop
  | add (ht : args.type.isAddLogSyncMemberList = true)
      (h : l'.servers.Perm (args.server.server :: c.logSyncMemberlist.servers))
  | remove (ht : args.type.isRemoveLogSyncMemberList = true)
      (hc : c.logSyncMemberlist.contains args.server = true)
      (h : l' = c.logSyncMemberlist.eraseServer args.server.server)
  | same (ha : args.type.isAddLogSyncMemberList = false)
      (hr : args.type.isRemoveLogSyncMemberList = true →
        c.logSyncMemberlist.contains args.server = false)
      (h : l' = c.logSyncMemberlist)

/-- The arbitration member after a command that is not forced. -/
def arbitrationMemberAfter (c : LogConfigInfo) (args : LogConfigChangeArgs) : ObMember :=
  if args.type == addArbMember then args.server
  else if args.type == removeArbMember then ObMember.reset
  else c.arbitrationMember

theorem not_isRemove_of_isAdd {t : LogConfigChangeType} (h : t.isAddLogSyncMemberList = true) :
    t.isRemoveMemberList = false ∧ t ≠ addArbMember ∧ t ≠ removeArbMember := by
  cases t <;> simp_all [isAddLogSyncMemberList, isRemoveMemberList, isRemoveLogSyncMemberList]

theorem not_isArb_of_isRemove {t : LogConfigChangeType}
    (h : t.isRemoveLogSyncMemberList = true) : t ≠ addArbMember ∧ t ≠ removeArbMember := by
  cases t <;> simp_all [isRemoveLogSyncMemberList]

variable {l l' : ObMemberList} {pid now : Int} {mgr : LogConfigMgr}

theorem mem_servers_of_contains {m : ObMember} (h : l.contains m = true) :
    m.server ∈ l.servers := by
  obtain ⟨x, hx, hxm⟩ := any_eq_true.mp h
  rw [← (beq_iff_eq.mp hxm)]
  exact mem_map_of_mem hx

theorem addToMemberList_ok (h : addToMemberList c args = .ok c') :
    (args.type.isAddLogSyncMemberList = true ∧
      ∃ l, c.logSyncMemberlist.addMember args.server.resetMigrating = .ok l ∧
        c' = { c with logSyncMemberlist := l }) ∨
    (args.type.isAddLogSyncMemberList = false ∧
      c' = { c with
        arbitrationMember :=
          if args.type == addArbMember then args.server else c.arbitrationMember }) := by
  unfold addToMemberList at h
  split_ifs at h with hl ha
  · left
    obtain ⟨l, hl', hc⟩ := ObResult.bind_eq_ok.mp h
    exact ⟨ha, l, hl', (ObResult.pure_eq_ok.mp hc).symm⟩
  · right
    have harb : args.type = addArbMember := by simpa [isAddMemberList, ha] using hl
    cases h
    exact ⟨by simpa using ha, by simp [harb]⟩
  · right
    have hn : args.type.isAddLogSyncMemberList = false ∧ args.type ≠ addArbMember := by
      simpa [isAddMemberList] using hl
    cases h
    exact ⟨hn.1, by simp [hn.2]⟩

theorem removeFromMemberList_ok (h : removeFromMemberList c args = .ok c') :
    (args.type.isRemoveLogSyncMemberList = true ∧
      ((c.logSyncMemberlist.contains args.server = true ∧
          c' = { c with
            logSyncMemberlist := c.logSyncMemberlist.eraseServer args.server.server }) ∨
        (c.logSyncMemberlist.contains args.server = false ∧
          ∃ l, c' = { c with degradedLearnerlist := l }))) ∨
    (args.type.isRemoveLogSyncMemberList = false ∧
      c' = { c with
        arbitrationMember :=
          if args.type == removeArbMember then ObMember.reset else c.arbitrationMember }) := by
  unfold removeFromMemberList at h
  split_ifs at h with hl hr hc hd
  · left
    obtain ⟨l, hl', hc'⟩ := ObResult.bind_eq_ok.mp h
    unfold ObMemberList.removeServer at hl'
    split_ifs at hl'
    cases hl'
    exact ⟨hr, Or.inl ⟨hc, (ObResult.pure_eq_ok.mp hc').symm⟩⟩
  · left
    obtain ⟨l, -, hc'⟩ := ObResult.bind_eq_ok.mp h
    exact ⟨hr, Or.inr ⟨by simpa using hc, l, (ObResult.pure_eq_ok.mp hc').symm⟩⟩
  · right
    have harb : args.type = removeArbMember := by simpa [isRemoveMemberList, hr] using hl
    cases h
    exact ⟨by simpa using hr, by simp [harb]⟩
  · right
    have hn : args.type.isRemoveLogSyncMemberList = false ∧ args.type ≠ removeArbMember := by
      simpa [isRemoveMemberList] using hl
    cases h
    exact ⟨hn.1, by simp [hn.2]⟩

/-- Both learner stages replace one of the two learner lists, if any. -/
theorem learnerStage_ok {p q r : Prop} [Decidable p] [Decidable q] [Decidable r]
    {x y z : ObResult GlobalLearnerList}
    (h : (if p then
        if q then do return { c with degradedLearnerlist := ← x }
        else if r then do return { c with learnerlist := ← y }
        else do return { c with learnerlist := ← z }
      else .ok c) = .ok c') :
    ∃ l l', c' = { c with learnerlist := l, degradedLearnerlist := l' } := by
  split_ifs at h
  · obtain ⟨l, -, hc⟩ := ObResult.bind_eq_ok.mp h
    exact ⟨c.learnerlist, l, (ObResult.pure_eq_ok.mp hc).symm⟩
  · obtain ⟨l, -, hc⟩ := ObResult.bind_eq_ok.mp h
    exact ⟨l, c.degradedLearnerlist, (ObResult.pure_eq_ok.mp hc).symm⟩
  · obtain ⟨l, -, hc⟩ := ObResult.bind_eq_ok.mp h
    exact ⟨l, c.degradedLearnerlist, (ObResult.pure_eq_ok.mp hc).symm⟩
  · cases h
    exact ⟨c.learnerlist, c.degradedLearnerlist, rfl⟩

/-- The two commands that replace the lists wholesale. -/
def IsForced (t : LogConfigChangeType) : Prop := t = forceSingleMember ∨ t = forceSetMemberList

/-- The two member stages together. -/
theorem memberStages_ok {c1 c2 : LogConfigInfo} (h1 : addToMemberList c args = .ok c1)
    (h2 : removeFromMemberList c1 args = .ok c2) :
    LogSyncChange c args c2.logSyncMemberlist ∧
    c2.arbitrationMember = arbitrationMemberAfter c args ∧
    c2.configVersion = c.configVersion := by
  rcases addToMemberList_ok h1 with ⟨ha, l, hadd, rfl⟩ | ⟨ha, rfl⟩
  · -- an added member: the removal stage has nothing to do
    obtain ⟨hr, harb, harb'⟩ := not_isRemove_of_isAdd ha
    rw [removeFromMemberList, if_neg (by simp [hr])] at h2
    cases h2
    refine ⟨LogSyncChange.add ha ?_, ?_, rfl⟩
    · exact (ObMemberList.addMember_ok hadd).1.map ObMember.server
    · simp [arbitrationMemberAfter, harb, harb']
  · rcases removeFromMemberList_ok h2 with ⟨hr, ⟨hc, rfl⟩ | ⟨hc, l, rfl⟩⟩ | ⟨hr, rfl⟩
    · obtain ⟨harb, harb'⟩ := not_isArb_of_isRemove hr
      exact ⟨LogSyncChange.remove hr hc rfl, by simp [arbitrationMemberAfter, harb, harb'], rfl⟩
    · obtain ⟨harb, harb'⟩ := not_isArb_of_isRemove hr
      refine ⟨LogSyncChange.same ha (fun _ => hc) rfl, ?_, rfl⟩
      simp [arbitrationMemberAfter, harb, harb']
    · refine ⟨LogSyncChange.same ha (fun h => absurd h (by simp [hr])) rfl, ?_, rfl⟩
      by_cases hadd : args.type = addArbMember
      · simp [arbitrationMemberAfter, hadd]
      · simp [arbitrationMemberAfter, hadd]

/-- An unforced change moves at most one log sync member and computes the arbitration member and the
replica number from the old configuration. -/
theorem changeLists_ok (hf : ¬ IsForced args.type) (h : changeLists c args = .ok c') :
    LogSyncChange c args c'.logSyncMemberlist ∧
    c'.arbitrationMember = arbitrationMemberAfter c args ∧
    c'.configVersion = c.configVersion ∧
    newLogSyncReplicaNum c args = .ok c'.logSyncReplicaNum := by
  simp only [changeLists, ObResult.bind_eq_ok, ObResult.pure_eq_ok] at h
  obtain ⟨num, hnum, c1, h1, c2, h2, c3, h3, c4, h4, rfl⟩ := h
  obtain ⟨hlog, harb, hver⟩ := memberStages_ok h1 h2
  obtain ⟨l3, l3', rfl⟩ := learnerStage_ok h3
  obtain ⟨l4, l4', rfl⟩ := learnerStage_ok h4
  have hforce : ∀ d, forceMemberList d args = d := by
    intro d
    unfold IsForced at hf
    rw [forceMemberList, if_neg (by simpa using fun h => hf (Or.inl h)),
      if_neg (by simpa using fun h => hf (Or.inr h))]
  rw [hforce]
  exact ⟨hlog, harb, hver, hnum⟩

/-! ### Length, replica number and leader after a change -/

/-- The length of the log-sync list after a command that is not forced. -/
def logSyncLenAfter (c : LogConfigInfo) (args : LogConfigChangeArgs) : Int :=
  if args.type.isAddLogSyncMemberList then c.logSyncMemberlist.getMemberNumber + 1
  else if args.type.isRemoveLogSyncMemberList && c.logSyncMemberlist.contains args.server then
    c.logSyncMemberlist.getMemberNumber - 1
  else c.logSyncMemberlist.getMemberNumber

/-- The replica number after a command that is not forced. A number in the command counts the
degraded learners that stay; a degraded learner leaving takes no vote with it, and leaves the number
alone when the remaining members are exactly half of it. -/
def logSyncReplicaNumAfter (c : LogConfigInfo) (args : LogConfigChangeArgs) : Int :=
  let degraded : Int := c.degradedLearnerlist.getMemberNumber
  match args.type with
  | changeReplicaNum | addMember | switchLearnerToAcceptor => args.newReplicaNum - degraded
  | addMemberAndNum | upgradeLearnerToAcceptor | switchLearnerToAcceptorAndNum =>
    c.logSyncReplicaNum + 1
  | removeMember | switchAcceptorToLearner =>
    if c.degradedLearnerlist.contains args.server then
      if (c.logSyncMemberlist.getMemberNumber : Int) * 2 = args.newReplicaNum - (degraded - 1) then
        c.logSyncReplicaNum
      else args.newReplicaNum - (degraded - 1)
    else args.newReplicaNum - degraded
  | removeMemberAndNum | degradeAcceptorToLearner =>
    if c.degradedLearnerlist.contains args.server then c.logSyncReplicaNum
    else c.logSyncReplicaNum - 1
  | _ => c.logSyncReplicaNum

theorem newLogSyncReplicaNum_eq (hf : ¬ IsForced args.type) :
    newLogSyncReplicaNum c args = .ok (logSyncReplicaNumAfter c args) := by
  unfold IsForced at hf
  unfold newLogSyncReplicaNum requestedLogSyncReplicaNum logSyncReplicaNumAfter
    isRemoveDegradedLearner
  cases ht : args.type <;> simp only [ht] at hf ⊢ <;>
    first
    | exact absurd hf (by decide)
    | (cases hd : c.degradedLearnerlist.contains args.server <;>
        simp [isMayChangeReplicaNum, isAddMemberList, isRemoveMemberList,
          isAddLogSyncMemberList, isRemoveLogSyncMemberList, isUseReplicaNumArgs,
          isArbMemberChangeType, bind, Except.bind, pure, Except.pure] <;>
        split_ifs <;> rfl)

theorem LogSyncChange.oneServerChange (h : LogSyncChange c args l') :
    OneServerChange c.logSyncMemberlist l' := by
  rcases h with ⟨-, h⟩ | ⟨-, hc, rfl⟩ | ⟨-, -, rfl⟩
  · exact OneServerChange.add _ h
  · -- the erased server in front of the rest is the old list again
    refine OneServerChange.remove args.server.server ?_
    obtain ⟨x, hx, hxs⟩ := mem_map.mp (mem_servers_of_contains hc)
    have hperm : c.logSyncMemberlist.servers.Perm
        (args.server.server :: c.logSyncMemberlist.servers.erase args.server.server) :=
      perm_cons_erase (mem_servers_of_contains hc)
    refine hperm.trans (List.Perm.cons _ ?_)
    refine (perm_ext_iff_of_nodup ?_ (ObMemberList.nodup_servers _)).mpr ?_
    · exact c.logSyncMemberlist.nodup_servers.erase _
    · intro a
      rw [c.logSyncMemberlist.nodup_servers.mem_erase_iff]
      simp only [ObMemberList.servers, mem_map, ObMemberList.mem_eraseServer]
      constructor
      · rintro ⟨hne, m, hm, rfl⟩
        exact ⟨m, ⟨hm, hne⟩, rfl⟩
      · rintro ⟨m, ⟨hm, hne⟩, rfl⟩
        exact ⟨hne, m, hm, rfl⟩
  · exact OneServerChange.same rfl

theorem LogSyncChange.length_eq (h : LogSyncChange c args l') :
    (l'.getMemberNumber : Int) = logSyncLenAfter c args := by
  unfold logSyncLenAfter ObMemberList.getMemberNumber
  rcases h with ⟨ht, h⟩ | ⟨ht, hc, rfl⟩ | ⟨ha, hr, rfl⟩
  · have hlen := h.length_eq
    simp only [ObMemberList.servers, length_map, length_cons] at hlen
    rw [if_pos ht]
    omega
  · have hna : args.type.isAddLogSyncMemberList = false := by
      by_contra hna
      have := (not_isRemove_of_isAdd (by simpa using hna)).1
      simp [isRemoveMemberList, ht] at this
    have hlen := ObMemberList.length_eraseServer (mem_servers_of_contains hc)
    rw [hna, if_neg Bool.false_ne_true, if_pos (by simp [ht, hc])]
    omega
  · rw [ha, if_neg Bool.false_ne_true, if_neg]
    intro hb
    rw [Bool.and_eq_true] at hb
    exact absurd hb.2 (by simp [hr hb.1])

theorem LogSyncChange.mem_servers_iff (h : LogSyncChange c args l') {self : ObAddr}
    (hself : ¬ (args.type.isRemoveMemberList = true ∧ self = args.server.server)) :
    self ∈ l'.servers ↔ self ∈ c.logSyncMemberlist.servers ∨
      (args.type.isAddLogSyncMemberList = true ∧ self = args.server.server) := by
  rcases h with ⟨ht, h⟩ | ⟨ht, hc, rfl⟩ | ⟨ha, -, rfl⟩
  · rw [h.mem_iff, mem_cons]
    simp only [ht, true_and]
    exact or_comm
  · have hrem : args.type.isRemoveMemberList = true := by simp [isRemoveMemberList, ht]
    have hne : self ≠ args.server.server := fun he => hself ⟨hrem, he⟩
    simp only [ObMemberList.servers, mem_map, ObMemberList.mem_eraseServer, hne, and_false,
      or_false]
    constructor
    · rintro ⟨m, ⟨hm, -⟩, rfl⟩
      exact ⟨m, hm, rfl⟩
    · rintro ⟨m, hm, rfl⟩
      exact ⟨m, ⟨hm, hne⟩, rfl⟩
  · simp [ha]

/-! ### Accepted commands -/

/-- A configuration is fit to run. -/
structure HasMajority (c : LogConfigInfo) : Prop where
  logSync : canMemberlistMajority c.logSyncMemberlist.getMemberNumber c.logSyncReplicaNum = true
  complete : ∃ l n, c.convertToCompleteConfig = .ok (l, n) ∧
    canMemberlistMajority l.getMemberNumber n = true

theorem canMemberlistMajority_iff (len num : Int) :
    canMemberlistMajority len num = true ↔ len ≤ num ∧ num / 2 + 1 ≤ len := by
  unfold canMemberlistMajority
  split_ifs with h1 h2 <;> simp only [false_iff, true_iff] <;> omega

/-- The complete list counts the arbitration member, if there is one. -/
theorem convertToCompleteConfig_ok {n : Int} (h : c.convertToCompleteConfig = .ok (l, n)) :
    (l.getMemberNumber : Int) = c.logSyncMemberlist.getMemberNumber +
        (if c.arbitrationMember.isValid then 1 else 0) ∧
    n = c.logSyncReplicaNum + (if c.arbitrationMember.isValid then 1 else 0) ∧
    ∀ a ∈ c.logSyncMemberlist.servers, a ∈ l.servers := by
  unfold LogConfigInfo.convertToCompleteConfig at h
  split_ifs at h with hg ha
  · simp only [ObResult.bind_eq_ok, ObResult.pure_eq_ok, Prod.mk.injEq] at h
    obtain ⟨_, -, _, -, l', hadd, rfl, rfl⟩ := h
    obtain ⟨hperm, -, -⟩ := ObMemberList.addMember_ok hadd
    refine ⟨?_, by rw [if_pos ha], fun a hmem => ?_⟩
    · have hlen := hperm.length_eq
      rw [length_cons] at hlen
      rw [ObMemberList.getMemberNumber, if_pos ha, hlen]
      rfl
    · exact (hperm.map ObMember.server).mem_iff.mpr (mem_cons_of_mem _ hmem)
  · simp only [ObResult.bind_eq_ok, ObResult.pure_eq_ok, Prod.mk.injEq] at h
    obtain ⟨_, -, _, -, rfl, rfl⟩ := h
    exact ⟨by rw [if_neg ha, Int.add_zero], by rw [if_neg ha, Int.add_zero], fun a hmem => hmem⟩

/-- A version that has been counted up is valid and greater. -/
theorem incUpdateVersion_ok {v v' : LogConfigVersion} (h : v.incUpdateVersion pid = .ok v') :
    v'.isValid = true ∧ v'.gt v = true := by
  unfold LogConfigVersion.incUpdateVersion at h
  split_ifs at h with hv hp
  push Not at hv hp
  cases h
  have hvv : v.isValid = true := by simp [LogConfigVersion.isValid, hv.1, hv.2]
  have hvv' : (⟨pid, v.configSeq + 1⟩ : LogConfigVersion).isValid = true := by
    have := hv.2
    simp only [LogConfigVersion.isValid, ne_eq, hp.1, not_false_eq_true, decide_true,
      Bool.true_and, decide_eq_true_eq]
    omega
  refine ⟨hvv', ?_⟩
  rw [LogConfigVersion.gt, hvv, hvv', if_pos (by rfl)]
  rcases hp.2.lt_or_eq with hlt | heq
  · simp [hlt]
  · have hseq : v.configSeq < v.configSeq + 1 := by omega
    simp [heq, hseq]

/-- What `generate_new_config_info_` makes of the configuration `old`. -/
structure Generated (old : LogConfigInfo) (args : LogConfigChangeArgs) (new : LogConfigInfo) :
    Prop where
  change : LogSyncChange old args new.logSyncMemberlist
  arbitrationMember : new.arbitrationMember = arbitrationMemberAfter old args
  replicaNum : new.logSyncReplicaNum = logSyncReplicaNumAfter old args
  isValid : old.isValid = true → new.isValid = true
  version_gt : new.configVersion.gt old.configVersion = true

/-- **One step of reconfiguration**, for a command that is not forced. -/
theorem generateNewConfigInfo_ok {new : LogConfigInfoV2} (hf : ¬ IsForced args.type)
    (h : mgr.generateNewConfigInfo pid now args = .ok new) :
    Generated mgr.curr.config args new.config := by
  unfold generateNewConfigInfo at h
  split_ifs at h with hg hs
  · -- only the version changes
    obtain ⟨version, hver, h⟩ := ObResult.bind_eq_ok.mp h
    obtain ⟨hvv, hgt⟩ := incUpdateVersion_ok hver
    replace hs : args.type = startworking := by simpa using hs
    cases ObResult.pure_eq_ok.mp h
    refine ⟨LogSyncChange.same ?_ ?_ rfl, ?_, ?_, fun hv => ?_, hgt⟩
    · simp [hs, isAddLogSyncMemberList]
    · simp [hs, isRemoveLogSyncMemberList]
    · simp [hs, arbitrationMemberAfter]
    · simp [hs, logSyncReplicaNumAfter]
    · simp only [LogConfigInfo.isValid, LogConfigInfo.isAllListUnique_configVersion,
        Bool.and_eq_true, hvv, and_true] at hv ⊢
      exact hv.1
  · simp only [ObResult.bind_eq_ok] at h
    obtain ⟨version, hver, config, hc, lockMeta, -, h⟩ := h
    obtain ⟨-, hgt⟩ := incUpdateVersion_ok hver
    split_ifs at h with hvalid
    cases ObResult.pure_eq_ok.mp h
    obtain ⟨hlog, harb, hcv, hnum⟩ := changeLists_ok hf hc
    rw [newLogSyncReplicaNum_eq hf] at hnum
    simp only [LogConfigInfoV2.isValid, Bool.and_eq_true] at hvalid
    refine ⟨?_, harb, ?_, fun _ => hvalid.1.2, ?_⟩
    · rcases hlog with ⟨ht, h⟩ | ⟨ht, hc, h⟩ | ⟨ha, hr, h⟩
      · exact LogSyncChange.add ht h
      · exact LogSyncChange.remove ht hc h
      · exact LogSyncChange.same ha hr h
    · exact (Except.ok.inj hnum).symm
    · show config.configVersion.gt _ = true
      rw [hcv]
      exact hgt

theorem checkConfigChangeArgs_ok (h : mgr.checkConfigChangeArgs now args = .ok false) :
    ¬ (args.type.isRemoveMemberList = true ∧ mgr.self = args.server.server) ∧
    ∃ new, mgr.generateNewConfigInfo mgr.proposalId now args = .ok new ∧
      ∃ l n, new.config.convertToCompleteConfig = .ok (l, n) ∧
        (mgr.self ∈ new.config.logSyncMemberlist.servers → HasMajority new.config) := by
  simp only [checkConfigChangeArgs] at h
  split_ifs at h with hv hr hl hgt hver
  · -- a command for another version is accepted only as already finished
    obtain ⟨fin, -, h⟩ := ObResult.bind_eq_ok.mp h
    split_ifs at h
    exact absurd (ObResult.pure_eq_ok.mp h) (by simp)
  obtain ⟨fin, -, h⟩ := ObResult.bind_eq_ok.mp h
  split_ifs at h with hfin
  · exact absurd (ObResult.pure_eq_ok.mp h) (by simp)
  obtain ⟨u, hnew, -⟩ := ObResult.bind_eq_ok.mp h
  refine ⟨by simpa using hr, ?_⟩
  simp only [checkNewConfigInfo, ObResult.bind_eq_ok] at hnew
  obtain ⟨new, hgen, ⟨l, n⟩, hconv, hnew⟩ := hnew
  refine ⟨new, hgen, l, n, hconv, fun hself => ?_⟩
  have hself' := (convertToCompleteConfig_ok hconv).2.2 _ hself
  dsimp only at hnew
  rw [if_neg (by
    simp only [Bool.or_eq_true, Bool.not_eq_true', ← Bool.not_eq_true,
      ObMemberList.containsServer_iff, not_or, not_not]
    exact ⟨hself', hself⟩)] at hnew
  split_ifs at hnew with hmaj
  · simp only [Bool.or_eq_true, Bool.not_eq_true', not_or, Bool.not_eq_false] at hmaj
    exact ⟨hmaj.1, l, n, hconv, hmaj.2⟩

/-- The time of the call ends up in the lock only. -/
theorem generateNewConfigInfo_config_eq {now' : Int} {new new' : LogConfigInfoV2}
    (h : mgr.generateNewConfigInfo pid now args = .ok new)
    (h' : mgr.generateNewConfigInfo pid now' args = .ok new') : new.config = new'.config := by
  unfold generateNewConfigInfo at h h'
  split_ifs at h h' with hg hs
  · rw [h] at h'
    cases h'
    rfl
  · simp only [ObResult.bind_eq_ok] at h h'
    obtain ⟨v, hv, c, hc, lock, -, h⟩ := h
    obtain ⟨v', hv', c', hc', lock', -, h'⟩ := h'
    rw [hv] at hv'
    cases hv'
    rw [hc] at hc'
    cases hc'
    split_ifs at h h'
    rw [← ObResult.pure_eq_ok.mp h, ← ObResult.pure_eq_ok.mp h']

/-! ### Reconfiguration and quorums -/

/-- The new configuration is fit to run, newer than the old one, and its majorities meet those of
the old one. -/
structure KeepsQuorums (old new : LogConfigInfo) : Prop where
  isValid : new.isValid = true
  hasMajority : HasMajority new
  version_gt : new.configVersion.gt old.configVersion = true
  disjoint : new.serverLists.Pairwise List.Disjoint
  quorumsMeet : QuorumsMeet old new

/-- The replica number the command leads to fits the list it leads to, without and with the
arbitration member. -/
def FitsReplicaNum (c : LogConfigInfo) (args : LogConfigChangeArgs) : Prop :=
  let arb : Int := if (arbitrationMemberAfter c args).isValid then 1 else 0
  canMemberlistMajority (logSyncLenAfter c args) (logSyncReplicaNumAfter c args) = true ∧
  canMemberlistMajority (logSyncLenAfter c args + arb) (logSyncReplicaNumAfter c args + arb) = true

theorem Generated.hasMajority_iff {old new : LogConfigInfo} (h : Generated old args new) {n : Int}
    (hconv : new.convertToCompleteConfig = .ok (l, n)) :
    HasMajority new ↔ FitsReplicaNum old args := by
  obtain ⟨hlen, hnum, -⟩ := convertToCompleteConfig_ok hconv
  simp only [FitsReplicaNum]
  rw [← h.change.length_eq, ← h.replicaNum, ← h.arbitrationMember, ← hlen, ← hnum]
  constructor
  · rintro ⟨hlog, l', n', hconv', hcomp⟩
    rw [hconv] at hconv'
    cases hconv'
    exact ⟨hlog, hcomp⟩
  · rintro ⟨hlog, hcomp⟩
    exact ⟨hlog, l, n, hconv, hcomp⟩

theorem Generated.keepsQuorums {old new : LogConfigInfo} (h : Generated old args new)
    (hvalid : old.isValid = true) (hold : HasMajority old) (hnew : HasMajority new) :
    KeepsQuorums old new := by
  have hv := h.isValid hvalid
  have hunique : new.isAllListUnique = true := by
    simp only [LogConfigInfo.isValid, Bool.and_eq_true] at hv
    exact hv.1.1.1.2
  refine ⟨hv, hnew, h.version_gt, LogConfigInfo.pairwise_disjoint_serverLists hunique, ?_⟩
  exact quorumsMeet_of_oneServerChange h.change.oneServerChange
    ((canMemberlistMajority_iff _ _).mp hold.logSync).1
    ((canMemberlistMajority_iff _ _).mp hnew.logSync).1

/-- An accepted unforced change keeps the quorums if and only if the leader stays a log sync member,
adds itself, or the new members fit the new replica number. -/
theorem keepsQuorums_iff {mgr : LogConfigMgr} {now now' : Int} {new : LogConfigInfoV2}
    (hvalid : mgr.curr.config.isValid = true) (hmaj : HasMajority mgr.curr.config)
    (hf : ¬ IsForced args.type) (hacc : mgr.checkConfigChangeArgs now args = .ok false)
    (hgen : mgr.generateNewConfigInfo mgr.proposalId now' args = .ok new) :
    KeepsQuorums mgr.curr.config new.config ↔
      mgr.self ∈ mgr.curr.config.logSyncMemberlist.servers ∨
      (args.type.isAddLogSyncMemberList = true ∧ mgr.self = args.server.server) ∨
      FitsReplicaNum mgr.curr.config args := by
  obtain ⟨hself, new₀, hgen₀, l, n, hconv, hcheck⟩ := checkConfigChangeArgs_ok hacc
  rw [generateNewConfigInfo_config_eq hgen₀ hgen] at hconv hcheck
  have hg := generateNewConfigInfo_ok hf hgen
  have hfit := hg.hasMajority_iff hconv
  rw [hg.change.mem_servers_iff hself] at hcheck
  constructor
  · intro h
    exact Or.inr (Or.inr (hfit.mp h.hasMajority))
  · rintro (h | h | h)
    · exact hg.keepsQuorums hvalid hmaj (hcheck (Or.inl h))
    · exact hg.keepsQuorums hvalid hmaj (hcheck (Or.inr h))
    · exact hg.keepsQuorums hvalid hmaj (hfit.mpr h)

/-! ### A command that is accepted without a majority -/

/-- The server with IPv4 address `ip`, for the example below. -/
def exampleMember (ip : Nat) : ObMember := ⟨⟨.ipv4, ip, 2882⟩, 1, 0⟩

/-- The servers 1 and 2 with replica number 2. -/
def twoMembers : LogConfigInfoV2 where
  version := 1
  config :=
    { logSyncMemberlist := ⟨[exampleMember 1, exampleMember 2], by decide, by decide, by decide⟩
      logSyncReplicaNum := 2
      arbitrationMember := ObMember.reset
      learnerlist := GlobalLearnerList.empty
      degradedLearnerlist := GlobalLearnerList.empty
      configVersion := ⟨1, 1⟩ }
  lockMeta := ⟨1, obInvalidConfigChangeLockOwner, lockNothing, obInvalidTimestamp⟩

/-- A leader on server 9 of the group of servers 1 and 2. -/
def outsideLeader : LogConfigMgr where
  isInit := true
  self := (exampleMember 9).server
  prev := twoMembers
  curr := twoMembers
  reconfigBarrier := ⟨LSN.initial, 1⟩
  proposalId := 1
  checkConfigMetaSize := fun _ => true

/-- `ADD_MEMBER` of server 3, with replica number 1. -/
def addThirdMember : LogConfigChangeArgs where
  server := exampleMember 3
  currMemberList := ObMemberList.empty
  currReplicaNum := 0
  newReplicaNum := 1
  configVersion := ⟨1, 1⟩
  lockOwner := obInvalidConfigChangeLockOwner
  lockType := lockNothing
  type := addMember
  addedList := ObMemberList.empty
  removedList := ObMemberList.empty
  newMemberList := ObMemberList.empty

/-- The servers 1, 2 and 3 with replica number 1. -/
def threeMembers : LogConfigInfo where
  logSyncMemberlist :=
    ⟨[exampleMember 1, exampleMember 2, exampleMember 3], by decide, by decide, by decide⟩
  logSyncReplicaNum := 1
  arbitrationMember := ObMember.reset
  learnerlist := GlobalLearnerList.empty
  degradedLearnerlist := GlobalLearnerList.empty
  configVersion := ⟨1, 2⟩

/-- A leader outside of the members skips the check of the majority. -/
theorem accepted_without_majority :
    outsideLeader.curr.config.isValid = true ∧ HasMajority outsideLeader.curr.config ∧
    ¬ IsForced addThirdMember.type ∧
    outsideLeader.checkConfigChangeArgs 0 addThirdMember = .ok false ∧
    outsideLeader.generateNewConfigInfo 1 0 addThirdMember =
      .ok { twoMembers with config := threeMembers } ∧
    ¬ KeepsQuorums outsideLeader.curr.config threeMembers := by
  refine ⟨by decide, ⟨by decide, _, _, rfl, by decide⟩, by unfold IsForced; decide, by decide,
    by rfl, fun h => ?_⟩
  obtain ⟨server, hs, hs'⟩ := h.quorumsMeet
    {(exampleMember 1).server, (exampleMember 2).server} {(exampleMember 3).server}
    (by decide) (by decide) (by decide) (by decide)
  revert hs
  rw [Finset.mem_singleton.mp hs']
  decide

/-- The same server added by a leader on server 1, with replica number 3. -/
theorem keepsQuorums_third_member :
    KeepsQuorums twoMembers.config { threeMembers with logSyncReplicaNum := 3 } := by
  refine (@keepsQuorums_iff { addThirdMember with newReplicaNum := 3 }
    { outsideLeader with self := (exampleMember 1).server } 0 0
    { twoMembers with config := { threeMembers with logSyncReplicaNum := 3 } }
    (by decide) ⟨by decide, _, _, rfl, by decide⟩ (by unfold IsForced; decide) (by decide)
    (by rfl)).mpr (Or.inl ?_)
  decide

end LogConfigMgr

end Andl.Palf
