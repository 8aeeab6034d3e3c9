import Andl.Lib.Quorum
import Andl.Palf.ConfigMgr

/-!
# Generating the committed end LSN

The leader's side of log commitment in `LogSlidingWindow`: which LSN a majority of the log-sync
members has flushed (`getMajorityLsn`), how the majorities of the previous and the current
configuration are combined around a reconfiguration barrier (`genCommittedEndLsn`), and how the
committed end LSN moves (`tryAdvanceCommittedLsn`).
-/

namespace Andl.Palf

/-- The part of `LogSlidingWindow` that commitment reads and writes. -/
structure LogSlidingWindow where
  /-- `match_lsn_map_`: the end of the log each server is known to have flushed -/
  matchLsnMap : ObAddr → Option LSN
  committedEndLsn : LSN
  mm : LogConfigMgr
  /-- `mode_mgr_->get_last_submit_mode_meta().proposal_id_` -/
  lastSubmitModePid : Int
  /-- `state_mgr_->is_changing_config_with_arb()` -/
  isChangingConfigWithArb : Bool

/-- What `get_log_sync_member_list_for_generate_committed_lsn` fills in. -/
structure LogSyncLists where
  prevMemberList : ObMemberList
  prevReplicaNum : Int
  currMemberList : ObMemberList
  currReplicaNum : Int
  isBeforeBarrier : Bool
  barrierLsn : LSN

namespace LogSlidingWindow

/-- The condition under which the previous member list may still commit. -/
def isBeforeBarrier (sw : LogSlidingWindow) : Bool :=
  sw.committedEndLsn < sw.mm.reconfigBarrier.prevEndLsn &&
    sw.mm.reconfigBarrier.prevEndLsn.isValid &&
    sw.lastSubmitModePid == sw.mm.reconfigBarrier.prevModePid

/-- `LogConfigMgr::get_log_sync_member_list_for_generate_committed_lsn`. -/
def getLogSyncMemberListForGenerateCommittedLsn (sw : LogSlidingWindow) :
    ObResult LogSyncLists :=
  if sw.mm.isInit = false then .error .notInit
  else if sw.isBeforeBarrier then .ok
    { prevMemberList := sw.mm.prev.config.logSyncMemberlist
      prevReplicaNum := sw.mm.prev.config.logSyncReplicaNum
      currMemberList := sw.mm.curr.config.logSyncMemberlist
      currReplicaNum := sw.mm.curr.config.logSyncReplicaNum
      isBeforeBarrier := true
      barrierLsn := sw.mm.reconfigBarrier.prevEndLsn }
  else .ok
    { prevMemberList := ObMemberList.empty
      prevReplicaNum := 0
      currMemberList := sw.mm.curr.config.logSyncMemberlist
      currReplicaNum := sw.mm.curr.config.logSyncReplicaNum
      isBeforeBarrier := false
      barrierLsn := LSN.initial }

/-- `LogSlidingWindow::get_majority_lsn_`. Its assertions end the process here; a build with
`NDEBUG` has none and goes on. -/
def getMajorityLsn (sw : LogSlidingWindow) (memberList : ObMemberList) (replicaNum : Int)
    (resultLsn : LSN) : ObResult LSN :=
  if replicaNum ≤ 0 then .error .abort
  else
    let lsnArray := memberList.servers.filterMap sw.matchLsnMap
    if (lsnArray.length : Int) < replicaNum / 2 + 1 then .ok resultLsn
    else if obMaxMemberNumber ≤ (replicaNum / 2).toNat then .error .abort
    else
      -- sorted by `LSNCompare`, greatest first
      match (lsnArray.insertionSort fun x y => y ≤ x)[(replicaNum / 2).toNat]? with
      | none => .error .abort
      | some lsn => if lsn.isValid then .ok lsn else .error .errUnexpected

/-- `LogSlidingWindow::try_advance_committed_lsn_`, whose return code the callers ignore. -/
def tryAdvanceCommittedLsn (sw : LogSlidingWindow) (endLsn : LSN) : LogSlidingWindow :=
  if endLsn.isValid = false then sw
  else if sw.committedEndLsn < endLsn then { sw with committedEndLsn := endLsn }
  else sw

/-- The combination of the two majority LSNs in `gen_committed_end_lsn_`. -/
def combineMajorityLsn (isBeforeBarrier : Bool) (prevResultLsn currResultLsn barrierLsn : LSN) :
    LSN :=
  let resultLsn := if isBeforeBarrier then max prevResultLsn currResultLsn else currResultLsn
  if isBeforeBarrier then min resultLsn barrierLsn else resultLsn

/-- `LogSlidingWindow::gen_committed_end_lsn_`. -/
def genCommittedEndLsn (sw : LogSlidingWindow) : ObResult LSN × LogSlidingWindow :=
  match sw.getLogSyncMemberListForGenerateCommittedLsn with
  | .error e => (.error e, sw)
  | .ok lists =>
    match sw.getMajorityLsn lists.currMemberList lists.currReplicaNum LSN.invalid with
    | .error e => (.error e, sw)
    | .ok currResultLsn =>
      match (if lists.isBeforeBarrier then
          sw.getMajorityLsn lists.prevMemberList lists.prevReplicaNum LSN.invalid
        else .ok LSN.invalid) with
      | .error e => (.error e, sw)
      | .ok prevResultLsn =>
        let resultLsn :=
          combineMajorityLsn lists.isBeforeBarrier prevResultLsn currResultLsn lists.barrierLsn
        (.ok resultLsn,
          if sw.isChangingConfigWithArb then sw else sw.tryAdvanceCommittedLsn resultLsn)

/-! ### Acknowledgements -/

/-- `LogSlidingWindow::try_update_match_lsn_map_`, with `UpdateMatchLsnFunc` and without the times
of the acks. -/
def tryUpdateMatchLsnMap (sw : LogSlidingWindow) (server : ObAddr) (endLsn : LSN) :
    ObResult Unit × LogSlidingWindow :=
  let updated :=
    { sw with matchLsnMap := Function.update sw.matchLsnMap server (some endLsn) }
  if server.isValid = false ∨ endLsn.isValid = false then (.error .invalidArgument, sw)
  else match sw.matchLsnMap server with
    | none => (.ok (), updated)
    | some lsn =>
      if lsn.isValid = false then (.error .eAgain, sw)
      else (.ok (), if lsn ≤ endLsn then updated else sw)

/-- `LogSlidingWindow::ack_log`. -/
def ackLog (sw : LogSlidingWindow) (isLeaderActive : Bool) (srcServer : ObAddr) (endLsn : LSN) :
    ObResult Unit × LogSlidingWindow :=
  let config := sw.mm.curr.config
  if srcServer.isValid = false ∨ endLsn.isValid = false then (.error .invalidArgument, sw)
  else if sw.mm.isInit = false then (.error .notInit, sw)
  else if !config.logSyncMemberlist.containsServer srcServer &&
      !config.degradedLearnerlist.containsServer srcServer then (.ok (), sw)
  else match sw.tryUpdateMatchLsnMap srcServer endLsn with
    | (.error e, sw) => (.error e, sw)
    | (.ok (), sw) => (.ok (), if isLeaderActive then sw.genCommittedEndLsn.2 else sw)

/-- What `LogSlidingWindow::after_flush_log` does to the map and the committed end on a leader. -/
def afterFlushLog (sw : LogSlidingWindow) (isLeaderActive : Bool) (logEndLsn : LSN) :
    LogSlidingWindow :=
  let sw := (sw.tryUpdateMatchLsnMap sw.mm.self logEndLsn).2
  if isLeaderActive then sw.genCommittedEndLsn.2 else sw

/-- `LogSlidingWindow::reset_match_lsn_map_`. -/
def resetMatchLsnMap (sw : LogSlidingWindow) (maxFlushedEndLsn : LSN) :
    ObResult LogSlidingWindow :=
  if sw.mm.isInit = false then .error .notInit
  else
    let matchLsn server := if sw.mm.self = server then maxFlushedEndLsn else sw.committedEndLsn
    let servers := sw.mm.curr.config.logSyncMemberlist.servers
    .ok { sw with matchLsnMap := fun server => if server ∈ servers then matchLsn server else none }

end LogSlidingWindow

end Andl.Palf
