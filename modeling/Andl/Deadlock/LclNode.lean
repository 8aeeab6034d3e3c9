import Andl.Common.Member
import Andl.Lib.Run

/-!
# Deadlock detection nodes

`ObLCLNode` of `share/deadlock/ob_lcl_scheme`: every transaction that may wait has a detector, whose
block list holds the detectors it waits for.
-/

namespace Andl

/-! ### Priorities and labels -/

/-- `ObDetectorPriority`. -/
structure ObDetectorPriority where
  priorityRange : ℤ
  priorityValue : ℕ
deriving DecidableEq, Repr

/-- `PRIORITY_RANGE::EXTREMELY_HIGH`. -/
def priorityRangeExtremelyHigh : ℤ := 2

/-- `UINT64_MAX`. -/
def uint64Max : ℕ := 2 ^ 64 - 1

/-- `ObDetectorPriority::operator<`. -/
def ObDetectorPriority.lt (p q : ObDetectorPriority) : Bool :=
  if p.priorityRange < q.priorityRange then true
  else if p.priorityRange = q.priorityRange then p.priorityValue < q.priorityValue
  else false

/-- `ObLCLLabel`: the server of a detector, its id there and its priority. -/
structure ObLCLLabel where
  addr : ObAddr
  id : ℕ
  priority : ObDetectorPriority
deriving DecidableEq, Repr

/-- `ObLCLLabel::operator<`. -/
def ObLCLLabel.lt (l r : ObLCLLabel) : Bool :=
  if l.priority.lt r.priority then true
  else if l.priority = r.priority then
    if l.addr.lt r.addr then true
    else if l.addr = r.addr then l.id < r.id
    else false
  else false

/-! ### Messages -/

/-- `ROLE`, the part a node has in a deadlock. -/
inductive DetectorRole where
  | victim
  | witness
deriving DecidableEq, Repr

/-- `ObDetectorInnerReportInfo`, without its times and the user's own report. -/
structure ObDetectorInnerReportInfo (κ : Type*) where
  userKey : κ
  addr : ObAddr
  detectorId : ℕ
  eventId : ℕ
  role : DetectorRole
  priority : ObDetectorPriority
deriving DecidableEq, Repr

/-- `ObLCLMessage`. -/
structure ObLCLMessage (κ : Type*) where
  dest : κ
  src : κ
  lclv : ℕ
  label : ObLCLLabel
  sendTs : ℕ
deriving DecidableEq, Repr

/-- `ObLCLMessage::merge`, as the sender thread merges a message into one it still holds for the
same node. -/
def ObLCLMessage.merge {κ : Type*} (m rhs : ObLCLMessage κ) : ObLCLMessage κ :=
  if m.lclv < rhs.lclv then
    { m with lclv := rhs.lclv, label := rhs.label, src := rhs.src }
  else if m.lclv = rhs.lclv ∧ rhs.label.lt m.label then
    { m with label := rhs.label, src := rhs.src }
  else m

/-- `ObDeadLockCollectInfoMessage`. -/
structure ObDeadLockCollectInfoMessage (κ : Type*) where
  dest : κ
  collectedInfo : List (ObDetectorInnerReportInfo κ)
deriving DecidableEq, Repr

/-! ### One node -/

/-- `PHASE_TIME`, in microseconds. -/
def phaseTime : ℕ := 2 * 50000 + 100000 + (40000 + 10000) * 10

/-- `PERIOD`, one LCLP and one LCLS phase. -/
def lclPeriodTime : ℕ := 2 * phaseTime

/-- The constant members of `ObLCLNode`. -/
structure ObLCLNode (κ : Type*) where
  selfKey : κ
  privateLabel : ObLCLLabel
  blockList : List κ
  firstEventId : ℕ
deriving DecidableEq, Repr

/-- The members of `ObLCLNode` that the protocol changes. -/
structure LclState where
  lclv : ℕ
  publicLabel : ObLCLLabel
  lclPeriod : ℕ
  lastSendCollectInfoPeriod : ℕ
deriving DecidableEq, Repr

namespace ObLCLNode

variable {κ : Type*} (n : ObLCLNode κ)

/-- The state a new node has. -/
def init : LclState where
  lclv := 0
  publicLabel := n.privateLabel
  lclPeriod := 0
  lastSendCollectInfoPeriod := 0

/-- `update_lcl_period_if_necessary_with_lock_`. -/
def updateLclPeriodIfNecessary (s : LclState) (currentTs : ℕ) : LclState :=
  if currentTs / lclPeriodTime > s.lclPeriod then
    { s with lclPeriod := currentTs / lclPeriodTime, publicLabel := n.privateLabel }
  else s

/-- `broadcast_` of an LCL message. -/
def broadcast (lclv : ℕ) (publicLabel : ObLCLLabel) (clock : ℕ → ℕ) :
    List (ObLCLMessage κ) :=
  n.blockList.mapIdx fun idx dest =>
    { dest, src := n.selfKey, lclv, label := publicLabel, sendTs := clock idx }

/-- `push_state_to_downstreams_with_lock_`. -/
def pushStateToDownstreams (s : LclState) (countDownAllowDetect : ℕ) (clock : ℕ → ℕ) :
    List (ObLCLMessage κ) :=
  if countDownAllowDetect ≠ 0 then [] else n.broadcast s.lclv s.publicLabel clock

/-- `if_phase_match_`. -/
def ifPhaseMatch (ts : ℕ) (m : ObLCLMessage κ) : Bool :=
  ts / phaseTime = m.sendTs / phaseTime

/-- `process_msg_as_lclp_msg_`. -/
def processMsgAsLclpMsg (s : LclState) (m : ObLCLMessage κ) : LclState :=
  if m.lclv + 1 > s.lclv then { s with lclv := m.lclv + 1 } else s

/-- `process_msg_as_lcls_msg_`, with `detected_flag`. -/
def processMsgAsLclsMsg (s : LclState) (m : ObLCLMessage κ) : LclState × Bool :=
  if m.lclv ≥ s.lclv then
    -- the source compares `lclv_` once more, now equal
    let s := { s with lclv := m.lclv }
    if m.lclv = s.lclv ∧ m.label = n.privateLabel then
      if s.lastSendCollectInfoPeriod = s.lclPeriod then (s, false)
      else ({ s with lastSendCollectInfoPeriod := s.lclPeriod }, true)
    else if m.label.lt s.publicLabel then ({ s with publicLabel := m.label }, false)
    else (s, false)
  else (s, false)

/-- The part of `process_lcl_message` that changes the node. -/
def processLclMessage (s : LclState) (m : ObLCLMessage κ) (periodTs currentTs : ℕ) :
    LclState × Bool :=
  let s := n.updateLclPeriodIfNecessary s periodTs
  if ¬ ifPhaseMatch currentTs m then (s, false)
  else if currentTs / phaseTime % 2 = 0 then (processMsgAsLclpMsg s m, false)
  else n.processMsgAsLclsMsg s m

/-- A report is this node's own. -/
def isOwn (i : ObDetectorInnerReportInfo κ) : Bool :=
  i.addr = n.privateLabel.addr ∧ i.detectorId = n.privateLabel.id

/-- The loop of `if_self_has_lowest_priority_`, from index `i`. -/
def lowestPriorityLoop (lowest : ObDetectorPriority) (lowestIdx : ℤ) (i : ℤ) :
    List (ObDetectorInnerReportInfo κ) → ℤ
  | [] => lowestIdx
  | info :: infos =>
    if info.priority.lt lowest then lowestPriorityLoop info.priority i (i + 1) infos
    else lowestPriorityLoop lowest lowestIdx (i + 1) infos

/-- `if_self_has_lowest_priority_`. -/
def ifSelfHasLowestPriority (collected : List (ObDetectorInnerReportInfo κ)) : Bool :=
  lowestPriorityLoop ⟨priorityRangeExtremelyHigh, uint64Max⟩ (-1) 0 collected = 0

/-- `check_dead_loop_with_lock_`. -/
def checkDeadLoop (collected : List (ObDetectorInnerReportInfo κ)) : Bool :=
  collected.any n.isOwn

/-- `generate_event_id_with_lock_`. -/
def generateEventId (collected : List (ObDetectorInnerReportInfo κ)) : ℕ :=
  match collected with
  | [] => n.firstEventId
  | info :: _ => info.eventId

/-- The report that `append_report_info_to_msg_` appends. -/
def reportInfo (collected : List (ObDetectorInnerReportInfo κ)) :
    ObDetectorInnerReportInfo κ where
  userKey := n.selfKey
  addr := n.privateLabel.addr
  detectorId := n.privateLabel.id
  eventId := n.generateEventId collected
  role := if collected.isEmpty then .victim else .witness
  priority := n.privateLabel.priority

/-- What `process_collect_info_message` does with a message. -/
inductive CollectOutcome (κ : Type*) where
  /-- `detect_callback_` runs with the reports. -/
  | detectCallback (collected : List (ObDetectorInnerReportInfo κ))
  /-- The reports came back to their first node, which is not the one to be killed. -/
  | notLowestPriority
  /-- The message has come to a node for the second time. -/
  | deadLoop
  /-- `collect_callback_` failed. -/
  | collectFailed
  /-- The message goes on to the block list. -/
  | broadcast (msgs : List (ObDeadLockCollectInfoMessage κ))
deriving DecidableEq

/-- `process_collect_info_message`. -/
def processCollectInfoMessage (collectOk : Bool)
    (collected : List (ObDetectorInnerReportInfo κ)) : CollectOutcome κ :=
  if collected.head?.any n.isOwn then
    if ifSelfHasLowestPriority collected then .detectCallback collected else .notLowestPriority
  else if n.checkDeadLoop collected then .deadLoop
  else if ¬ collectOk then .collectFailed
  else .broadcast (n.blockList.map fun dest =>
    { dest, collectedInfo := collected ++ [n.reportInfo collected] })

end ObLCLNode

/-! ### All nodes -/

/-- The nodes of a system, each under its own key. -/
structure LclGraph (κ : Type*) where
  node : κ → ObLCLNode κ
  selfKey_node (v : κ) : (node v).selfKey = v

/-- The wait-for relation: `w` is in the block list of `u`. -/
def LclGraph.Waits {κ : Type*} (g : LclGraph κ) (u w : κ) : Prop :=
  w ∈ (g.node u).blockList

/-- The nodes' states, every message sent so far, the nodes that have set `detected_flag` and the
calls of `detect_callback_`. -/
structure LclNet (κ : Type*) where
  state : κ → LclState
  lclMsgs : List (ObLCLMessage κ) := []
  collectMsgs : List (ObDeadLockCollectInfoMessage κ) := []
  detected : List κ := []
  callbacks : List (κ × List (ObDetectorInnerReportInfo κ)) := []

/-- What can happen, with the readings of the clocks. -/
inductive LclEvent (κ : Type*) where
  | updateLclPeriod (v : κ) (currentTs : ℕ)
  | pushState (v : κ) (countDownAllowDetect : ℕ) (clock : ℕ → ℕ)
  /-- The sender thread merges two messages to one node. -/
  | mergeMsg (m rhs : ObLCLMessage κ)
  | lclMessage (m : ObLCLMessage κ) (periodTs currentTs : ℕ) (collectOk : Bool)
  | collectInfoMessage (m : ObDeadLockCollectInfoMessage κ) (collectOk : Bool)

namespace LclNet

variable {κ : Type*} [DecidableEq κ] (g : LclGraph κ)

/-- All nodes new, no message sent. -/
def init : LclNet κ where
  state v := (g.node v).init

/-- Node `v` gets a collect-info message. -/
def collectInfo (s : LclNet κ) (v : κ) (collectOk : Bool)
    (collected : List (ObDetectorInnerReportInfo κ)) : LclNet κ :=
  match (g.node v).processCollectInfoMessage collectOk collected with
  | .detectCallback collected => { s with callbacks := s.callbacks ++ [(v, collected)] }
  | .notLowestPriority => s
  | .deadLoop => s
  | .collectFailed => s
  | .broadcast msgs => { s with collectMsgs := s.collectMsgs ++ msgs }

/-- Node `m.dest` gets an LCL message. -/
def lclMessage (s : LclNet κ) (m : ObLCLMessage κ) (periodTs currentTs : ℕ)
    (collectOk : Bool) : LclNet κ :=
  let (state, detectedFlag) :=
    (g.node m.dest).processLclMessage (s.state m.dest) m periodTs currentTs
  let s := { s with state := Function.update s.state m.dest state }
  if detectedFlag then
    collectInfo g { s with detected := s.detected ++ [m.dest] } m.dest collectOk []
  else s

/-- The system of the nodes. -/
def machine : Machine (LclNet κ) (LclEvent κ) where
  ok s
    | .updateLclPeriod _ _ => True
    | .pushState _ _ _ => True
    | .mergeMsg m rhs => m ∈ s.lclMsgs ∧ rhs ∈ s.lclMsgs ∧ m.dest = rhs.dest
    | .lclMessage m _ _ _ => m ∈ s.lclMsgs
    | .collectInfoMessage m _ => m ∈ s.collectMsgs
  next s
    | .updateLclPeriod v currentTs =>
      let state := (g.node v).updateLclPeriodIfNecessary (s.state v) currentTs
      { s with state := Function.update s.state v state }
    | .pushState v countDownAllowDetect clock =>
      let msgs := (g.node v).pushStateToDownstreams (s.state v) countDownAllowDetect clock
      { s with lclMsgs := s.lclMsgs ++ msgs }
    | .mergeMsg m rhs => { s with lclMsgs := s.lclMsgs ++ [m.merge rhs] }
    | .lclMessage m periodTs currentTs collectOk =>
      lclMessage g s m periodTs currentTs collectOk
    | .collectInfoMessage m collectOk => collectInfo g s m.dest collectOk m.collectedInfo

end LclNet

end Andl
