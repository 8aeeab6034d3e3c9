import Andl.Palf.LogMetaInfo

/-!
# Changing a configuration

The part of `LogConfigMgr` that decides whether a configuration change command may be applied
(`checkConfigChangeArgs`) and what configuration it leads to (`generateNewConfigInfo`).
-/

namespace Andl.Palf

/-! ### Change types -/

/-- `LogConfigChangeType`. -/
inductive LogConfigChangeType where
  | invalidLogConfigChangeType
  | changeReplicaNum
  | addMember
  | addArbMember
  | removeMember
  | removeArbMember
  | addMemberAndNum
  | removeMemberAndNum
  | addLearner
  | removeLearner
  | switchLearnerToAcceptor
  | switchAcceptorToLearner
  | degradeAcceptorToLearner
  | upgradeLearnerToAcceptor
  | startworking
  | forceSingleMember
  | tryLockConfigChange
  | unlockConfigChange
  | replaceLearners
  | switchLearnerToAcceptorAndNum
  | forceSetMemberList
deriving DecidableEq, Repr

namespace LogConfigChangeType

/-- `need_check_config_version`. -/
def needCheckConfigVersion (t : LogConfigChangeType) : Bool :=
  t == addMember || t == addMemberAndNum || t == switchLearnerToAcceptor ||
    t == switchLearnerToAcceptorAndNum

/-- `is_add_log_sync_member_list`. -/
def isAddLogSyncMemberList (t : LogConfigChangeType) : Bool :=
  t == addMember || t == addMemberAndNum || t == switchLearnerToAcceptor ||
    t == upgradeLearnerToAcceptor || t == switchLearnerToAcceptorAndNum

/-- `is_remove_log_sync_member_list`. -/
def isRemoveLogSyncMemberList (t : LogConfigChangeType) : Bool :=
  t == removeMember || t == removeMemberAndNum || t == switchAcceptorToLearner ||
    t == degradeAcceptorToLearner

/-- `is_add_member_list`. -/
def isAddMemberList (t : LogConfigChangeType) : Bool :=
  t.isAddLogSyncMemberList || t == addArbMember

/-- `is_remove_member_list`. -/
def isRemoveMemberList (t : LogConfigChangeType) : Bool :=
  t.isRemoveLogSyncMemberList || t == removeArbMember

/-- `is_arb_member_change_type`. -/
def isArbMemberChangeType (t : LogConfigChangeType) : Bool :=
  t == addArbMember || t == removeArbMember

/-- `is_add_learner_list`. -/
def isAddLearnerList (t : LogConfigChangeType) : Bool :=
  t == addLearner || t == switchAcceptorToLearner || t == degradeAcceptorToLearner ||
    t == replaceLearners

/-- `is_remove_learner_list`. -/
def isRemoveLearnerList (t : LogConfigChangeType) : Bool :=
  t == removeLearner || t == switchLearnerToAcceptor || t == upgradeLearnerToAcceptor ||
    t == switchLearnerToAcceptorAndNum || t == replaceLearners

/-- `is_use_replica_num_args`. -/
def isUseReplicaNumArgs (t : LogConfigChangeType) : Bool :=
  t == addMember || t == removeMember || t == changeReplicaNum || t == forceSingleMember ||
    t == switchLearnerToAcceptor || t == switchAcceptorToLearner || t == forceSetMemberList

/-- `is_may_change_replica_num`. -/
def isMayChangeReplicaNum (t : LogConfigChangeType) : Bool :=
  t.isAddMemberList || t.isRemoveMemberList || t == changeReplicaNum ||
    t == forceSingleMember || t == forceSetMemberList

/-- `is_paxos_member_list_change`. -/
def isPaxosMemberListChange (t : LogConfigChangeType) : Bool :=
  t == addMember || t == removeMember || t == addMemberAndNum || t == removeMemberAndNum ||
    t == switchLearnerToAcceptor || t == switchAcceptorToLearner || t == changeReplicaNum ||
    t == switchLearnerToAcceptorAndNum

end LogConfigChangeType

open LogConfigChangeType

/-- `LogConfigChangeArgs`; `ref_scn_` is not read by the functions below. -/
structure LogConfigChangeArgs where
  server : ObMember
  currMemberList : ObMemberList
  currReplicaNum : Int
  newReplicaNum : Int
  configVersion : LogConfigVersion
  lockOwner : Int
  lockType : Int
  type : LogConfigChangeType
  addedList : ObMemberList
  removedList : ObMemberList
  newMemberList : ObMemberList

namespace LogConfigChangeArgs

/-- `LogConfigChangeArgs::is_valid`. -/
def isValid (args : LogConfigChangeArgs) : Bool :=
  args.type != invalidLogConfigChangeType &&
  (if args.type.isAddMemberList || args.type.isRemoveMemberList ||
      args.type.isAddLearnerList || args.type.isRemoveLearnerList then
    args.server.isValid || (args.addedList.isValid && args.removedList.isValid) else true) &&
  (if args.type.isUseReplicaNumArgs then isValidReplicaNum args.newReplicaNum else true) &&
  (if args.type == changeReplicaNum then
    args.currMemberList.isValid && isValidReplicaNum args.currReplicaNum &&
      isValidReplicaNum args.newReplicaNum else true) &&
  (if args.type == tryLockConfigChange || args.type == unlockConfigChange then
    args.lockOwner != obInvalidConfigChangeLockOwner else true)

end LogConfigChangeArgs

/-! ### The manager -/

/-- `LogReconfigBarrier`, as far as the model reads it. -/
structure LogReconfigBarrier where
  prevEndLsn : LSN
  prevModePid : Int

/-- `LogConfigMgr`. -/
structure LogConfigMgr where
  isInit : Bool
  self : ObAddr
  /-- `log_ms_meta_.prev_` -/
  prev : LogConfigInfoV2
  /-- `log_ms_meta_.curr_` -/
  curr : LogConfigInfoV2
  reconfigBarrier : LogReconfigBarrier
  /-- `state_mgr_->get_proposal_id()` -/
  proposalId : Int
  /-- whether the log engine can store a configuration log with this new configuration
      (`check_config_meta_size`) -/
  checkConfigMetaSize : LogConfigInfoV2 → Bool

namespace LogConfigMgr

/-- `LogConfigMgr::can_memberlist_majority_`. -/
def canMemberlistMajority (newMemberListLen newReplicaNum : Int) : Bool :=
  if newMemberListLen > newReplicaNum then false
  else if newMemberListLen < newReplicaNum / 2 + 1 then false
  else true

/-! ### Generating the new configuration -/

/-- Whether the command takes a degraded learner out of the group. -/
def isRemoveDegradedLearner (c : LogConfigInfo) (args : LogConfigChangeArgs) : Bool :=
  args.type.isRemoveLogSyncMemberList && c.degradedLearnerlist.contains args.server

/-- The replica number before the last special case of `generate_new_config_info_`. -/
def requestedLogSyncReplicaNum (c : LogConfigInfo) (args : LogConfigChangeArgs) : ObResult Int :=
  if args.type.isUseReplicaNumArgs then
    -- the degraded learners are part of the number the command gives, but not the one it removes
    let degradedCnt : Int := c.degradedLearnerlist.getMemberNumber
    let degradedCnt := if isRemoveDegradedLearner c args then degradedCnt - 1 else degradedCnt
    .ok (args.newReplicaNum - degradedCnt)
  else if args.type.isAddLogSyncMemberList then .ok (c.logSyncReplicaNum + 1)
  else if args.type.isRemoveLogSyncMemberList then
    if isRemoveDegradedLearner c args then .ok c.logSyncReplicaNum
    else .ok (c.logSyncReplicaNum - 1)
  else if args.type.isArbMemberChangeType then .ok c.logSyncReplicaNum
  else .error .errUnexpected

/-- The computation of `new_log_sync_replica_num` in `generate_new_config_info_`. -/
def newLogSyncReplicaNum (c : LogConfigInfo) (args : LogConfigChangeArgs) : ObResult Int :=
  if args.type.isMayChangeReplicaNum then do
    let num ← requestedLogSyncReplicaNum c args
    if isRemoveDegradedLearner c args && (c.logSyncMemberlist.getMemberNumber : Int) * 2 == num
    then return c.logSyncReplicaNum
    else return num
  else .ok c.logSyncReplicaNum

/-- The stage "memberlist add". -/
def addToMemberList (c : LogConfigInfo) (args : LogConfigChangeArgs) : ObResult LogConfigInfo :=
  if args.type.isAddMemberList then
    if args.type.isAddLogSyncMemberList then do
      let l ← c.logSyncMemberlist.addMember args.server.resetMigrating
      return { c with logSyncMemberlist := l }
    else .ok { c with arbitrationMember := args.server }
  else .ok c

/-- The stage "memberlist remove". -/
def removeFromMemberList (c : LogConfigInfo) (args : LogConfigChangeArgs) :
    ObResult LogConfigInfo :=
  if args.type.isRemoveMemberList then
    if args.type.isRemoveLogSyncMemberList then
      if c.logSyncMemberlist.contains args.server then do
        let l ← c.logSyncMemberlist.removeServer args.server.server
        return { c with logSyncMemberlist := l }
      else if c.degradedLearnerlist.contains args.server then do
        let l ← c.degradedLearnerlist.removeLearner args.server
        return { c with degradedLearnerlist := l }
      else .error .invalidArgument
    else .ok { c with arbitrationMember := ObMember.reset }
  else .ok c

/-- One round of the loop over `added_list_`. -/
def addLearnerIfAbsent (l : GlobalLearnerList) (m : ObMember) : ObResult GlobalLearnerList :=
  match l.addLearner m with
  | .error .entryExist => .ok l
  | r => r

/-- One round of the loop over `removed_list_`. -/
def removeLearnerIfPresent (l : GlobalLearnerList) (m : ObMember) :
    ObResult GlobalLearnerList :=
  match l.removeLearner m with
  | .error .entryNotExist => .ok l
  | r => r

/-- The stage "learnerlist add". -/
def addToLearnerList (c : LogConfigInfo) (args : LogConfigChangeArgs) : ObResult LogConfigInfo :=
  if args.type.isAddLearnerList then
    if args.type == degradeAcceptorToLearner then do
      let l ← c.degradedLearnerlist.addLearner args.server
      return { c with degradedLearnerlist := l }
    else if args.type == replaceLearners then do
      let l ← args.addedList.members.foldlM addLearnerIfAbsent c.learnerlist
      return { c with learnerlist := l }
    else do
      let l ← c.learnerlist.addLearner args.server
      return { c with learnerlist := l }
  else .ok c

/-- The stage "learnerlist remove". -/
def removeFromLearnerList (c : LogConfigInfo) (args : LogConfigChangeArgs) :
    ObResult LogConfigInfo :=
  if args.type.isRemoveLearnerList then
    if args.type == upgradeLearnerToAcceptor then do
      let l ← c.degradedLearnerlist.removeLearner args.server
      return { c with degradedLearnerlist := l }
    else if args.type == replaceLearners then do
      let l ← args.removedList.members.foldlM removeLearnerIfPresent c.learnerlist
      return { c with learnerlist := l }
    else do
      let l ← c.learnerlist.removeLearner args.server
      return { c with learnerlist := l }
  else .ok c

/-- The stages "try lock config_change" and "unlock config_change". -/
def changeLock (l : LogLockMeta) (args : LogConfigChangeArgs) (now : Int) :
    ObResult LogLockMeta :=
  if args.type == tryLockConfigChange then
    LogLockMeta.generate args.lockOwner args.lockType now
  else if args.type == unlockConfigChange then .ok (l.unlock now)
  else .ok l

/-- The two forced changes, which replace the lists wholesale. -/
def forceMemberList (c : LogConfigInfo) (args : LogConfigChangeArgs) : LogConfigInfo :=
  if args.type == forceSingleMember then
    { c with
      logSyncMemberlist := match ObMemberList.empty.addMember args.server with
        | .ok l => l
        | .error _ => ObMemberList.empty
      logSyncReplicaNum := args.newReplicaNum
      arbitrationMember := ObMember.reset
      degradedLearnerlist := GlobalLearnerList.empty }
  else if args.type == forceSetMemberList then
    { c with
      logSyncMemberlist := args.newMemberList
      logSyncReplicaNum := args.newReplicaNum
      arbitrationMember := ObMember.reset
      degradedLearnerlist := GlobalLearnerList.empty }
  else c

/-- All list stages of `generate_new_config_info_`, in order. -/
def changeLists (c : LogConfigInfo) (args : LogConfigChangeArgs) : ObResult LogConfigInfo := do
  let num ← newLogSyncReplicaNum c args
  let c ← addToMemberList c args
  let c ← removeFromMemberList c args
  let c ← addToLearnerList c args
  let c ← removeFromLearnerList c args
  return forceMemberList { c with logSyncReplicaNum := num } args

/-- `LogConfigMgr::generate_new_config_info_`, at time `now`. -/
def generateNewConfigInfo (mgr : LogConfigMgr) (proposalId now : Int)
    (args : LogConfigChangeArgs) : ObResult LogConfigInfoV2 :=
  if proposalId = invalidProposalId ∨ args.isValid = false then .error .invalidArgument
  else do
    let version ← mgr.curr.config.configVersion.incUpdateVersion proposalId
    let config := { mgr.curr.config with configVersion := version }
    if args.type == startworking then return { mgr.curr with config := config }
    else do
      let config ← changeLists config args
      let lockMeta ← changeLock mgr.curr.lockMeta args now
      let newConfigInfo := { mgr.curr with config := config, lockMeta := lockMeta }
      if newConfigInfo.isValid then return newConfigInfo else .error .invalidArgument

/-! ### Checking a command -/

/-- `LogConfigMgr::get_curr_member_list`. -/
def getCurrMemberList (mgr : LogConfigMgr) : ObResult (ObMemberList × Int) :=
  if mgr.isInit = false then .error .notInit else mgr.curr.config.getExpectedPaxosMemberlist

/-- Where the member of a command stands in the current configuration. -/
structure MemberStanding where
  /-- the log-sync list has the member, its flags left out of account -/
  isInLogSyncMemberlist : Bool
  isInDegradedLearnerlist : Bool
  isInLearnerlist : Bool
  isArbReplica : Bool
  hasArbReplica : Bool

/-- The standing of `member` in the configuration `c`. -/
def memberStanding (c : LogConfigInfo) (member : ObMember) : MemberStanding where
  isInLogSyncMemberlist := c.logSyncMemberlist.contains member.withoutFlag
  isInDegradedLearnerlist := c.degradedLearnerlist.contains member
  isInLearnerlist := c.learnerlist.contains member
  isArbReplica := c.arbitrationMember == member
  hasArbReplica := c.arbitrationMember.isValid

/-- The loop over `added_list_`. -/
def allAddedInLearnerlist (currMemberList : ObMemberList) (learners : GlobalLearnerList) :
    List ObMember → ObResult Bool
  | [] => .ok true
  | m :: ms =>
    if currMemberList.containsServer m.server then .error .invalidArgument
    else if learners.contains m = false then .ok false
    else allAddedInLearnerlist currMemberList learners ms

/-- `LogConfigMgr::check_config_change_args_by_type_`. -/
def checkConfigChangeArgsByType (mgr : LogConfigMgr) (args : LogConfigChangeArgs) :
    ObResult Bool := do
  let (currMemberList, currReplicaNum) ← mgr.getCurrMemberList
  let c := mgr.curr.config
  let s := memberStanding c args.server
  let sameReplicaNum := args.newReplicaNum == currReplicaNum
  match args.type with
  | changeReplicaNum =>
    if currReplicaNum == args.newReplicaNum && currMemberList.memberAddrEqual args.currMemberList
    then .ok true
    else if !currMemberList.memberAddrEqual args.currMemberList ||
        currReplicaNum != args.currReplicaNum then .error .invalidArgument
    else .ok false
  | addMember | addMemberAndNum =>
    if s.isInLearnerlist || s.isInDegradedLearnerlist || s.isArbReplica then
      .error .invalidArgument
    else if s.isInLogSyncMemberlist then
      if args.type == addMemberAndNum || sameReplicaNum then .ok true
      else .error .invalidArgument
    else .ok false
  | removeMember | removeMemberAndNum =>
    if s.isInLearnerlist || s.isArbReplica then .error .invalidArgument
    else if !s.isInLogSyncMemberlist then
      if s.isInDegradedLearnerlist then .ok false
      else if args.type == removeMemberAndNum || sameReplicaNum ||
          (s.hasArbReplica && c.degradedLearnerlist.getMemberNumber == 0 &&
            (c.logSyncMemberlist.getMemberNumber : Int) * 2 == args.newReplicaNum) then .ok true
      else .error .invalidArgument
    else .ok false
  | addArbMember =>
    if s.isInLearnerlist || s.isInDegradedLearnerlist || s.isInLogSyncMemberlist then
      .error .invalidArgument
    else if s.isArbReplica then if sameReplicaNum then .ok true else .error .invalidArgument
    else if s.hasArbReplica then .error .invalidArgument
    else .ok false
  | removeArbMember =>
    if s.isInLearnerlist || s.isInDegradedLearnerlist || s.isInLogSyncMemberlist then
      .error .invalidArgument
    else if !s.isArbReplica then if sameReplicaNum then .ok true else .error .invalidArgument
    else .ok false
  | addLearner =>
    if s.isInLogSyncMemberlist || s.isInDegradedLearnerlist || s.isArbReplica then
      .error .invalidArgument
    else .ok s.isInLearnerlist
  | removeLearner =>
    if s.isInLogSyncMemberlist || s.isInDegradedLearnerlist || s.isArbReplica then
      .error .invalidArgument
    else .ok (!s.isInLearnerlist)
  | switchLearnerToAcceptor | switchLearnerToAcceptorAndNum | upgradeLearnerToAcceptor =>
    if s.isInLearnerlist || s.isInDegradedLearnerlist then
      if s.isInLogSyncMemberlist then .error .errUnexpected
      else if args.type == upgradeLearnerToAcceptor && s.isInLearnerlist then
        .error .invalidArgument
      else if args.type != upgradeLearnerToAcceptor && s.isInDegradedLearnerlist then
        .error .invalidArgument
      else .ok false
    else if s.isInLogSyncMemberlist then
      if args.type != switchLearnerToAcceptor || sameReplicaNum then .ok true
      else .error .invalidArgument
    else .error .invalidArgument
  | switchAcceptorToLearner | degradeAcceptorToLearner =>
    if !s.hasArbReplica && args.type == degradeAcceptorToLearner then .error .invalidArgument
    else if s.isInLearnerlist || s.isInDegradedLearnerlist then
      if s.isInLogSyncMemberlist then .error .errUnexpected
      else if args.type == degradeAcceptorToLearner && s.isInLearnerlist then
        .error .invalidArgument
      else if args.type == switchAcceptorToLearner && s.isInDegradedLearnerlist then
        .error .invalidArgument
      else if args.type == degradeAcceptorToLearner || sameReplicaNum then .ok true
      else .error .invalidArgument
    else if s.isInLogSyncMemberlist then .ok false
    else .error .invalidArgument
  | startworking | forceSingleMember | forceSetMemberList => .ok false
  | tryLockConfigChange =>
    if args.lockOwner = mgr.curr.lockMeta.lockOwner then
      if mgr.curr.lockMeta.lockType = lockPaxosMemberChange then .ok true
      else .error .stateNotMatch
    else if args.lockOwner > mgr.curr.lockMeta.lockOwner then
      if mgr.curr.lockMeta.lockType = lockNothing then .ok false
      else .error .tryLockConfigChangeConflict
    else .error .stateNotMatch
  | unlockConfigChange =>
    if args.lockOwner = mgr.curr.lockMeta.lockOwner then
      if mgr.curr.lockMeta.lockType = lockPaxosMemberChange then .ok false
      else if mgr.curr.lockMeta.lockType = lockNothing then .ok true
      else .error .notSupported
    else .error .stateNotMatch
  | replaceLearners => do
    let allAdded ← allAddedInLearnerlist currMemberList c.learnerlist args.addedList.members
    let allRemoved := args.removedList.members.all fun m => !c.learnerlist.contains m
    return allAdded && allRemoved
  | invalidLogConfigChangeType => .error .invalidArgument

/-- The last part of `check_config_change_args_`. -/
def checkNewConfigInfo (mgr : LogConfigMgr) (now : Int) (args : LogConfigChangeArgs) :
    ObResult Unit := do
  let newConfigInfo ← mgr.generateNewConfigInfo mgr.proposalId now args
  let (newPaxosMemberlist, newPaxosReplicaNum) ← newConfigInfo.config.convertToCompleteConfig
  let c := newConfigInfo.config
  if !newPaxosMemberlist.containsServer mgr.self || !c.logSyncMemberlist.containsServer mgr.self
  then return ()
  else if !canMemberlistMajority c.logSyncMemberlist.getMemberNumber c.logSyncReplicaNum ||
      !canMemberlistMajority newPaxosMemberlist.getMemberNumber newPaxosReplicaNum then
    .error .invalidArgument
  else if mgr.proposalId = invalidProposalId ∨ newConfigInfo.isValid = false then
    .error .invalidArgument
  else if mgr.checkConfigMetaSize newConfigInfo then return ()
  else .error .invalidArgument

/-- `LogConfigMgr::check_config_change_args_`. -/
def checkConfigChangeArgs (mgr : LogConfigMgr) (now : Int) (args : LogConfigChangeArgs) :
    ObResult Bool :=
  let configVersion := mgr.curr.config.configVersion
  if args.isValid = false then .error .invalidArgument
  else if args.type.isRemoveMemberList && mgr.self == args.server.server then
    .error .notAllowRemovingLeader
  else if mgr.curr.isConfigChangeLocked && args.type.isPaxosMemberListChange then .error .eAgain
  else if args.type.needCheckConfigVersion && args.configVersion.gt configVersion then
    .error .errUnexpected
  else do
    let isAlreadyFinished ← mgr.checkConfigChangeArgsByType args
    if isAlreadyFinished then return true
    else if args.type.needCheckConfigVersion && args.configVersion != configVersion then
      .error .stateNotMatch
    else do
      mgr.checkNewConfigInfo now args
      return false

end LogConfigMgr

end Andl.Palf
