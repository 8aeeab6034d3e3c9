import Andl.Deadlock.LclNode

/-!
# Detected deadlocks are deadlocks
-/

namespace Andl

open Relation List Function

/-! ### One node -/

namespace ObLCLNode

variable {κ : Type*} (n : ObLCLNode κ)

theorem publicLabel_updateLclPeriodIfNecessary (s : LclState) (ts : ℕ) :
    (n.updateLclPeriodIfNecessary s ts).publicLabel = s.publicLabel ∨
      (n.updateLclPeriodIfNecessary s ts).publicLabel = n.privateLabel := by
  unfold updateLclPeriodIfNecessary
  split
  · exact .inr rfl
  · exact .inl rfl

theorem publicLabel_processMsgAsLclpMsg (s : LclState) (m : ObLCLMessage κ) :
    (processMsgAsLclpMsg s m).publicLabel = s.publicLabel := by
  unfold processMsgAsLclpMsg
  split <;> rfl

/-- An LCLS message leaves the public label or takes the one of the message. -/
theorem publicLabel_processMsgAsLclsMsg (s : LclState) (m : ObLCLMessage κ) :
    (n.processMsgAsLclsMsg s m).1.publicLabel = s.publicLabel ∨
      (n.processMsgAsLclsMsg s m).1.publicLabel = m.label := by
  unfold processMsgAsLclsMsg
  dsimp only
  split
  · split
    · split <;> exact .inl rfl
    · split
      · exact .inr rfl
      · exact .inl rfl
  · exact .inl rfl

variable {m : ObLCLMessage κ}

/-- `detected_flag` is set by the node's own label only. -/
theorem label_of_detected {s : LclState} (h : (n.processMsgAsLclsMsg s m).2 = true) :
    m.label = n.privateLabel := by
  by_contra hne
  have hguard : ¬ (m.lclv = m.lclv ∧ m.label = n.privateLabel) := fun hown => hne hown.2
  unfold processMsgAsLclsMsg at h
  dsimp only at h
  rw [if_neg hguard] at h
  split at h
  · split at h <;> exact Bool.false_ne_true h
  · exact Bool.false_ne_true h

theorem publicLabel_processLclMessage (s : LclState) (m : ObLCLMessage κ) (pts ts : ℕ) :
    (n.processLclMessage s m pts ts).1.publicLabel = s.publicLabel ∨
      (n.processLclMessage s m pts ts).1.publicLabel = n.privateLabel ∨
      (n.processLclMessage s m pts ts).1.publicLabel = m.label := by
  have hperiod := n.publicLabel_updateLclPeriodIfNecessary s pts
  unfold processLclMessage
  dsimp only
  split
  · exact hperiod.imp_right .inl
  · split
    · rw [publicLabel_processMsgAsLclpMsg]
      exact hperiod.imp_right .inl
    · rcases n.publicLabel_processMsgAsLclsMsg (n.updateLclPeriodIfNecessary s pts) m with h | h
      · rw [h]
        exact hperiod.imp_right .inl
      · exact .inr (.inr h)

theorem label_of_processLclMessage {s : LclState} {pts ts : ℕ}
    (h : (n.processLclMessage s m pts ts).2 = true) : m.label = n.privateLabel := by
  unfold processLclMessage at h
  dsimp only at h
  split at h
  · exact absurd h Bool.false_ne_true
  · split at h
    · exact absurd h Bool.false_ne_true
    · exact n.label_of_detected h

/-- What is pushed goes to a node of the block list, with the public label. -/
theorem mem_pushStateToDownstreams {s : LclState} {cnt : ℕ} {clock : ℕ → ℕ}
    (h : m ∈ n.pushStateToDownstreams s cnt clock) :
    m.dest ∈ n.blockList ∧ m.label = s.publicLabel := by
  unfold pushStateToDownstreams at h
  split at h
  · exact absurd h not_mem_nil
  · obtain ⟨idx, hidx, rfl⟩ := mem_mapIdx.mp h
    exact ⟨getElem_mem hidx, rfl⟩

theorem lowestPriorityLoop_eq_zero {infos : List (ObDetectorInnerReportInfo κ)}
    {lowest : ObDetectorPriority} {lowestIdx i : ℤ} (hi : 0 < i) :
    lowestPriorityLoop lowest lowestIdx i infos = 0 ↔
      lowestIdx = 0 ∧ ∀ info ∈ infos, ¬ info.priority.lt lowest := by
  induction infos generalizing lowest lowestIdx i with
  | nil => simp [lowestPriorityLoop]
  | cons info infos ih =>
    rw [lowestPriorityLoop, forall_mem_cons]
    split
    next hlt =>
      rw [ih (by omega)]
      exact ⟨fun h => absurd h.1 hi.ne', fun h => absurd hlt h.2.1⟩
    next hlt =>
      rw [ih (by omega)]
      exact ⟨fun h => ⟨h.1, hlt, h.2⟩, fun h => ⟨h.1, h.2.2⟩⟩

/-- A list whose first report passes for the lowest has no lower one. -/
theorem not_lt_of_ifSelfHasLowestPriority {first : ObDetectorInnerReportInfo κ}
    {infos : List (ObDetectorInnerReportInfo κ)}
    (h : ifSelfHasLowestPriority (first :: infos) = true) :
    ∀ info ∈ infos, ¬ info.priority.lt first.priority := by
  unfold ifSelfHasLowestPriority at h
  rw [decide_eq_true_eq, lowestPriorityLoop] at h
  split at h
  · exact ((lowestPriorityLoop_eq_zero (by decide)).mp h).2
  · exact absurd ((lowestPriorityLoop_eq_zero (by decide)).mp h).1 (by decide)

/-- The cases of `process_collect_info_message` in which something happens. -/
theorem processCollectInfoMessage_cases (collectOk : Bool)
    (collected : List (ObDetectorInnerReportInfo κ)) :
    (∃ first rest, collected = first :: rest ∧ n.isOwn first = true ∧
      ifSelfHasLowestPriority collected = true ∧
      n.processCollectInfoMessage collectOk collected = .detectCallback collected) ∨
    ((∀ i ∈ collected, n.isOwn i = false) ∧
      n.processCollectInfoMessage collectOk collected =
        .broadcast (n.blockList.map fun dest =>
          { dest, collectedInfo := collected ++ [n.reportInfo collected] })) ∨
    n.processCollectInfoMessage collectOk collected = .notLowestPriority ∨
    n.processCollectInfoMessage collectOk collected = .deadLoop ∨
    n.processCollectInfoMessage collectOk collected = .collectFailed := by
  unfold processCollectInfoMessage
  split
  next hfirst =>
    obtain ⟨first, hhead, hown⟩ := (Option.any_eq_true ..).mp hfirst
    obtain ⟨rest, rfl⟩ := head?_eq_some_iff.mp hhead
    split
    next hlow => exact .inl ⟨first, rest, rfl, hown, hlow, rfl⟩
    · exact .inr (.inr (.inl rfl))
  · split
    · exact .inr (.inr (.inr (.inl rfl)))
    next hloop =>
      split
      · exact .inr (.inr (.inr (.inr rfl)))
      · refine .inr (.inl ⟨fun i hi => ?_, rfl⟩)
        rw [checkDeadLoop, any_eq_true] at hloop
        exact Bool.eq_false_iff.mpr fun hown => hloop ⟨i, hi, hown⟩

end ObLCLNode

/-! ### Paths -/

namespace LclGraph

variable {κ : Type*} (g : LclGraph κ)

/-- The label is that of `w` or of a node from which `w` is reachable. -/
def LabelFrom (w : κ) (label : ObLCLLabel) : Prop :=
  ∃ u, ReflTransGen g.Waits u w ∧ label = (g.node u).privateLabel

/-- A report that is the one of its node. -/
structure Reports (i : ObDetectorInnerReportInfo κ) : Prop where
  addr : i.addr = (g.node i.userKey).privateLabel.addr
  detectorId : i.detectorId = (g.node i.userKey).privateLabel.id
  priority : i.priority = (g.node i.userKey).privateLabel.priority

/-- The reports of the nodes of a simple path, whose last node waits for `dest`. -/
structure Incoming (dest : κ) (collected : List (ObDetectorInnerReportInfo κ)) : Prop where
  reports : ∀ i ∈ collected, g.Reports i
  nodup : (collected.map (·.userKey)).Nodup
  chain : (collected.map (·.userKey)).IsChain g.Waits
  last : ∀ w ∈ (collected.map (·.userKey)).getLast?, g.Waits w dest

/-- The reports of a deadlock as `detect_callback_` is to see them at `v`. -/
structure Deadlock (v : κ) (collected : List (ObDetectorInnerReportInfo κ)) : Prop
    extends g.Incoming v collected where
  head : (collected.map (·.userKey)).head? = some v
  lowest : ∀ i ∈ collected, ¬ i.priority.lt (g.node v).privateLabel.priority

variable {g}

theorem labelFrom_private (w : κ) : g.LabelFrom w (g.node w).privateLabel :=
  ⟨w, .refl, rfl⟩

theorem Incoming.nil (dest : κ) : g.Incoming dest [] where
  reports := forall_mem_nil _
  nodup := nodup_nil
  chain := isChain_nil
  last := fun _ hw => absurd hw (Option.not_mem_none _)

theorem reports_reportInfo (v : κ) (collected : List (ObDetectorInnerReportInfo κ)) :
    g.Reports ((g.node v).reportInfo collected) := by
  have hkey : ((g.node v).reportInfo collected).userKey = v := g.selfKey_node v
  constructor <;> rw [hkey] <;> rfl

/-- A node passes on a longer path, if it finds no report of its own. -/
theorem Incoming.append {v w : κ} {collected : List (ObDetectorInnerReportInfo κ)}
    (h : g.Incoming v collected) (hnew : ∀ i ∈ collected, (g.node v).isOwn i = false)
    (hw : g.Waits v w) : g.Incoming w (collected ++ [(g.node v).reportInfo collected]) := by
  have hkey : ((g.node v).reportInfo collected).userKey = v := g.selfKey_node v
  have hmap : (collected ++ [(g.node v).reportInfo collected]).map (·.userKey) =
      collected.map (·.userKey) ++ [v] := by
    rw [map_append, map_singleton, hkey]
  -- a report of `v` would pass the test for the node's own
  have hv : v ∉ collected.map (·.userKey) := by
    intro hv
    obtain ⟨i, hi, rfl⟩ := mem_map.mp hv
    have hown : (g.node i.userKey).isOwn i = true :=
      decide_eq_true ⟨(h.reports i hi).addr, (h.reports i hi).detectorId⟩
    exact Bool.false_ne_true ((hnew i hi).symm.trans hown)
  refine ⟨?_, ?_, ?_, ?_⟩
  · intro i hi
    rcases mem_append.mp hi with hi | hi
    · exact h.reports i hi
    · rw [mem_singleton.mp hi]
      exact reports_reportInfo v collected
  · rw [hmap]
    exact h.nodup.append (nodup_singleton v) (disjoint_singleton.mpr hv)
  · rw [hmap]
    refine h.chain.append (isChain_singleton v) fun x hx y hy => ?_
    rw [head?_cons, Option.mem_some_iff] at hy
    exact hy ▸ h.last x hx
  · intro x hx
    rw [hmap, getLast?_concat, Option.mem_some_iff] at hx
    exact hx ▸ hw

theorem Incoming.deadlock
    (hid : Injective fun v =>
      ((g.node v).privateLabel.addr, (g.node v).privateLabel.id))
    {v : κ} {first : ObDetectorInnerReportInfo κ} {rest : List (ObDetectorInnerReportInfo κ)}
    (h : g.Incoming v (first :: rest)) (hown : (g.node v).isOwn first = true)
    (hlow : ObLCLNode.ifSelfHasLowestPriority (first :: rest) = true) :
    g.Deadlock v (first :: rest) := by
  have hfirst := h.reports first mem_cons_self
  obtain ⟨haddr, hdid⟩ := of_decide_eq_true hown
  have hv : first.userKey = v :=
    hid (Prod.ext (hfirst.addr.symm.trans haddr) (hfirst.detectorId.symm.trans hdid))
  refine ⟨h, by rw [map_cons, head?_cons, hv], fun i hi => ?_⟩
  have hprio : (g.node v).privateLabel.priority = first.priority := by
    rw [hfirst.priority, hv]
  rw [hprio]
  rcases mem_cons.mp hi with rfl | hi
  · simp [ObDetectorPriority.lt]
  · exact ObLCLNode.not_lt_of_ifSelfHasLowestPriority hlow i hi

end LclGraph

/-! ### The system -/

namespace LclNet

open LclGraph

variable {κ : Type*} {g : LclGraph κ} {s : LclNet κ}

/-- The invariant of the labels. -/
structure LabelInv (g : LclGraph κ) (s : LclNet κ) : Prop where
  publicLabel : ∀ w, g.LabelFrom w (s.state w).publicLabel
  lclMsgs : ∀ m ∈ s.lclMsgs, ∃ u, TransGen g.Waits u m.dest ∧
    m.label = (g.node u).privateLabel
  detected : ∀ v ∈ s.detected, TransGen g.Waits v v

/-- The invariant of the collect-info messages. -/
structure CollectInv (g : LclGraph κ) (s : LclNet κ) : Prop where
  collectMsgs : ∀ m ∈ s.collectMsgs, g.Incoming m.dest m.collectedInfo
  callbacks : ∀ c ∈ s.callbacks, g.Deadlock c.1 c.2

theorem LabelInv.init : LabelInv g (init g) where
  publicLabel w := labelFrom_private w
  lclMsgs := forall_mem_nil _
  detected := forall_mem_nil _

theorem CollectInv.init : CollectInv g (init g) where
  collectMsgs := forall_mem_nil _
  callbacks := forall_mem_nil _

/-- Messages may be added whose labels have come along the graph. -/
theorem LabelInv.send (h : LabelInv g s) {msgs : List (ObLCLMessage κ)}
    (hmsgs : ∀ m ∈ msgs, ∃ u, TransGen g.Waits u m.dest ∧ m.label = (g.node u).privateLabel) :
    LabelInv g { s with lclMsgs := s.lclMsgs ++ msgs } where
  publicLabel := h.publicLabel
  lclMsgs m hm := (mem_append.mp hm).elim (h.lclMsgs m) (hmsgs m)
  detected := h.detected

/-- Collecting reports changes no label. -/
theorem LabelInv.collectInfo (h : LabelInv g s) (v : κ) (collectOk : Bool)
    (collected : List (ObDetectorInnerReportInfo κ)) :
    LabelInv g (collectInfo g s v collectOk collected) := by
  unfold LclNet.collectInfo
  split <;> exact ⟨h.publicLabel, h.lclMsgs, h.detected⟩

/-- Node `v` handles a collect-info message that has come to it along a path. -/
theorem CollectInv.collectInfo
    (hid : Injective fun v =>
      ((g.node v).privateLabel.addr, (g.node v).privateLabel.id))
    (h : CollectInv g s) {v : κ} (collectOk : Bool)
    {collected : List (ObDetectorInnerReportInfo κ)} (hin : g.Incoming v collected) :
    CollectInv g (collectInfo g s v collectOk collected) := by
  unfold LclNet.collectInfo
  rcases (g.node v).processCollectInfoMessage_cases collectOk collected with
    ⟨first, rest, rfl, hown, hlow, heq⟩ | ⟨hnew, heq⟩ | heq | heq | heq <;> rw [heq]
  · refine ⟨h.collectMsgs, fun c hc => ?_⟩
    rcases mem_append.mp hc with hc | hc
    · exact h.callbacks c hc
    · rw [mem_singleton.mp hc]
      exact hin.deadlock hid hown hlow
  · refine ⟨fun m hm => ?_, h.callbacks⟩
    rcases mem_append.mp hm with hm | hm
    · exact h.collectMsgs m hm
    · obtain ⟨w, hw, rfl⟩ := mem_map.mp hm
      exact hin.append hnew hw
  all_goals exact h

variable [DecidableEq κ]

theorem LabelInv.update (h : LabelInv g s) {v : κ} {st : LclState}
    (hst : g.LabelFrom v st.publicLabel) :
    LabelInv g { s with state := Function.update s.state v st } where
  publicLabel w := by
    rcases eq_or_ne w v with rfl | hne
    · change g.LabelFrom w (Function.update s.state w st w).publicLabel
      rw [update_self]
      exact hst
    · change g.LabelFrom w (Function.update s.state v st w).publicLabel
      rw [update_of_ne hne]
      exact h.publicLabel w
  lclMsgs := h.lclMsgs
  detected := h.detected

theorem LabelInv.pushState (h : LabelInv g s) (v : κ) (cnt : ℕ) (clock : ℕ → ℕ) :
    LabelInv g ((machine g).next s (.pushState v cnt clock)) := by
  refine h.send fun m hm => ?_
  obtain ⟨hdest, hlabel⟩ := (g.node v).mem_pushStateToDownstreams hm
  obtain ⟨u, hu, hpub⟩ := h.publicLabel v
  exact ⟨u, TransGen.tail' hu hdest, hlabel.trans hpub⟩

theorem LabelInv.mergeMsg (h : LabelInv g s) {m rhs : ObLCLMessage κ} (hm : m ∈ s.lclMsgs)
    (hrhs : rhs ∈ s.lclMsgs) (hdest : m.dest = rhs.dest) :
    LabelInv g ((machine g).next s (.mergeMsg m rhs)) := by
  refine h.send fun x hx => ?_
  have hfrom := h.lclMsgs rhs hrhs
  rw [← hdest] at hfrom
  rw [mem_singleton.mp hx]
  unfold ObLCLMessage.merge
  split
  · exact hfrom
  · split
    · exact hfrom
    · exact h.lclMsgs m hm

theorem LabelInv.lclMessage (hlabel : Injective fun v => (g.node v).privateLabel)
    (h : LabelInv g s) {m : ObLCLMessage κ} (hm : m ∈ s.lclMsgs) (pts ts : ℕ)
    (collectOk : Bool) : LabelInv g (lclMessage g s m pts ts collectOk) := by
  obtain ⟨u, hu, hmu⟩ := h.lclMsgs m hm
  have hst : g.LabelFrom m.dest
      ((g.node m.dest).processLclMessage (s.state m.dest) m pts ts).1.publicLabel := by
    rcases (g.node m.dest).publicLabel_processLclMessage (s.state m.dest) m pts ts with
      hp | hp | hp <;> rw [hp]
    · exact h.publicLabel m.dest
    · exact labelFrom_private m.dest
    · exact ⟨u, hu.to_reflTransGen, hmu⟩
  have hupd := h.update hst
  unfold LclNet.lclMessage
  dsimp only
  split
  next hdet =>
    -- the label that came around is the node's own, so it has come from the node itself
    have hown : u = m.dest :=
      hlabel (hmu.symm.trans ((g.node m.dest).label_of_processLclMessage hdet))
    have hdetected : ∀ v ∈ s.detected ++ [m.dest], TransGen g.Waits v v := by
      intro v hv
      rcases mem_append.mp hv with hv | hv
      · exact h.detected v hv
      · rw [mem_singleton.mp hv]
        exact hown ▸ hu
    refine LabelInv.collectInfo ?_ m.dest collectOk []
    exact ⟨hupd.publicLabel, hupd.lclMsgs, hdetected⟩
  · exact hupd

theorem CollectInv.lclMessage
    (hid : Injective fun v =>
      ((g.node v).privateLabel.addr, (g.node v).privateLabel.id))
    (h : CollectInv g s) (m : ObLCLMessage κ) (pts ts : ℕ) (collectOk : Bool) :
    CollectInv g (lclMessage g s m pts ts collectOk) := by
  unfold LclNet.lclMessage
  dsimp only
  split
  · refine CollectInv.collectInfo hid ?_ collectOk (.nil m.dest)
    exact ⟨h.collectMsgs, h.callbacks⟩
  · exact ⟨h.collectMsgs, h.callbacks⟩

/-- Every event keeps the invariant of the labels. -/
theorem LabelInv.next (hlabel : Injective fun v => (g.node v).privateLabel) (h : LabelInv g s)
    {e : LclEvent κ} (he : (machine g).ok s e) : LabelInv g ((machine g).next s e) := by
  cases e with
  | updateLclPeriod v ts =>
    refine h.update ?_
    rcases (g.node v).publicLabel_updateLclPeriodIfNecessary (s.state v) ts with hp | hp <;>
      rw [hp]
    · exact h.publicLabel v
    · exact labelFrom_private v
  | pushState v cnt clock => exact h.pushState v cnt clock
  | mergeMsg m rhs => exact h.mergeMsg he.1 he.2.1 he.2.2
  | lclMessage m pts ts collectOk => exact h.lclMessage hlabel he pts ts collectOk
  | collectInfoMessage m collectOk => exact h.collectInfo m.dest collectOk m.collectedInfo

/-- Every event keeps the invariant of the collect-info messages. -/
theorem CollectInv.next
    (hid : Injective fun v =>
      ((g.node v).privateLabel.addr, (g.node v).privateLabel.id))
    (h : CollectInv g s) {e : LclEvent κ} (he : (machine g).ok s e) :
    CollectInv g ((machine g).next s e) := by
  cases e with
  | updateLclPeriod v ts => exact ⟨h.collectMsgs, h.callbacks⟩
  | pushState v cnt clock => exact ⟨h.collectMsgs, h.callbacks⟩
  | mergeMsg m rhs => exact ⟨h.collectMsgs, h.callbacks⟩
  | lclMessage m pts ts collectOk => exact h.lclMessage hid m pts ts collectOk
  | collectInfoMessage m collectOk =>
    exact h.collectInfo hid collectOk (h.collectMsgs m he)

/-- **Deadlock detection is sound.** In every run of nodes with different labels, the label kept by
a node or sent to it is its own or has come from a node that it can be reached from, and only nodes
on a cycle set `detected_flag`. -/
theorem deadlock_detection_sound (g : LclGraph κ)
    (hlabel : Injective fun v => (g.node v).privateLabel) {es : List (LclEvent κ)}
    (hes : (machine g).Accepts (LclNet.init g) es) :
    ((∀ w, g.LabelFrom w (((machine g).run (LclNet.init g) es).state w).publicLabel) ∧
      (∀ m ∈ ((machine g).run (LclNet.init g) es).lclMsgs, g.LabelFrom m.dest m.label) ∧
      ∀ v ∈ ((machine g).run (LclNet.init g) es).detected, TransGen g.Waits v v) ∧
    ((Injective fun v => ((g.node v).privateLabel.addr, (g.node v).privateLabel.id)) →
      ∀ c ∈ ((machine g).run (LclNet.init g) es).callbacks, g.Deadlock c.1 c.2) := by
  refine ⟨?_, fun hid => ?_⟩
  · have h := hes.invariant (LabelInv g) (fun _ _ hs he => hs.next hlabel he) .init
    refine ⟨h.publicLabel, fun m hm => ?_, h.detected⟩
    obtain ⟨u, hu, hmu⟩ := h.lclMsgs m hm
    exact ⟨u, hu.to_reflTransGen, hmu⟩
  · exact (hes.invariant (CollectInv g) (fun _ _ hs he => hs.next hid he) .init).callbacks

/-! ### Two nodes that wait for each other -/

/-- Two nodes of one server that wait for each other, with ids `id₁` and `id₂`. -/
def pairGraph (id₁ id₂ : ℕ) : LclGraph Bool where
  node v :=
    { selfKey := v
      privateLabel :=
        { addr := ⟨.ipv4, 1, 1⟩, id := if v then id₂ else id₁, priority := ⟨0, v.toNat⟩ }
      blockList := [!v]
      firstEventId := 0 }
  selfKey_node _ := rfl

/-- The label of the first node goes around in an LCLS phase, then its collect-info message comes to
the second node. -/
def pairRun (id₁ id₂ : ℕ) : List (LclEvent Bool) :=
  let first := (pairGraph id₁ id₂).node false
  let msg (src dest : Bool) : ObLCLMessage Bool := ⟨dest, src, 0, first.privateLabel, 2100000⟩
  [.pushState false 0 fun _ => 2100000, .lclMessage (msg false true) 2100000 2100000 true,
    .pushState true 0 fun _ => 2100000, .lclMessage (msg true false) 2100000 2100000 true,
    .collectInfoMessage ⟨true, [first.reportInfo []]⟩ true]

theorem privateLabel_pairGraph_injective (id₁ id₂ : ℕ) :
    Injective fun v => ((pairGraph id₁ id₂).node v).privateLabel := by
  intro v w h
  have hprio : v.toNat = w.toNat := congrArg (fun l => l.priority.priorityValue) h
  cases v <;> cases w <;> simp_all

theorem deadlock_detection_sound_pair :
    let g := pairGraph 7 8
    let report := (g.node false).reportInfo []
    let reports := [report, (g.node true).reportInfo [report]]
    let es := pairRun 7 8 ++ [.collectInfoMessage ⟨false, reports⟩ true]
    (machine g).Accepts (LclNet.init g) es ∧
      false ∈ ((machine g).run (LclNet.init g) es).detected ∧
      (false, reports) ∈ ((machine g).run (LclNet.init g) es).callbacks ∧
      TransGen g.Waits false false ∧ g.Deadlock false reports := by
  intro g report reports es
  have hes : (machine g).Accepts (LclNet.init g) es := by
    refine ⟨trivial, ?_, trivial, ?_, ?_, ?_, trivial⟩ <;> exact mem_of_elem_eq_true rfl
  have hdet : false ∈ ((machine g).run (LclNet.init g) es).detected :=
    mem_of_elem_eq_true rfl
  have hcall : (false, reports) ∈ ((machine g).run (LclNet.init g) es).callbacks :=
    mem_of_elem_eq_true rfl
  have hid : Injective fun v =>
      ((g.node v).privateLabel.addr, (g.node v).privateLabel.id) := by
    unfold Injective
    decide
  have h := deadlock_detection_sound g (privateLabel_pairGraph_injective 7 8) hes
  exact ⟨hes, hdet, hcall, h.1.2.2 false hdet, h.2 hid _ hcall⟩

/-- If two labels differ in their priority only, a callback runs for a path that is no deadlock. -/
theorem detectCallback_of_foreign_path :
    let g := pairGraph 7 7
    (Injective fun v => (g.node v).privateLabel) ∧
      (machine g).Accepts (LclNet.init g) (pairRun 7 7) ∧
      ¬ ∀ c ∈ ((machine g).run (LclNet.init g) (pairRun 7 7)).callbacks,
        g.Deadlock c.1 c.2 := by
  intro g
  refine ⟨privateLabel_pairGraph_injective 7 7, ?_, fun h => ?_⟩
  · refine ⟨trivial, ?_, trivial, ?_, ?_, trivial⟩ <;> exact mem_of_elem_eq_true rfl
  · have hhead := (h (true, [(g.node false).reportInfo []]) (mem_of_elem_eq_true rfl)).head
    exact absurd hhead (by decide)

end LclNet

end Andl
