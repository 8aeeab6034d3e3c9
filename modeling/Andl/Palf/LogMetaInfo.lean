import Andl.Common.Member
import Andl.Palf.Lsn

/-!
# Configuration metadata

`LogConfigVersion`, `LogConfigInfo` and `LogConfigInfoV2` of `log_meta_info.h`: who stores the log
of a paxos group, with which replica number, which version of the configuration this is, and who has
locked it against changes.
-/

namespace Andl.Palf

/-- `INVALID_PROPOSAL_ID`. -/
def invalidProposalId : Int := 2 ^ 63 - 1

/-- `LogConfigVersion`. -/
structure LogConfigVersion where
  proposalId : Int
  configSeq : Int
deriving DecidableEq, Repr

namespace LogConfigVersion

/-- `LogConfigVersion::is_valid`. -/
def isValid (v : LogConfigVersion) : Bool :=
  v.proposalId ≠ invalidProposalId && 0 ≤ v.configSeq

/-- `LogConfigVersion::operator>`. -/
def gt (v w : LogConfigVersion) : Bool :=
  if v.isValid && w.isValid then
    v.proposalId > w.proposalId || (v.proposalId == w.proposalId && v.configSeq > w.configSeq)
  else if !v.isValid then false
  else true

/-- `LogConfigVersion::inc_update_version`. -/
def incUpdateVersion (v : LogConfigVersion) (proposalId : Int) : ObResult LogConfigVersion :=
  if v.proposalId = invalidProposalId ∨ v.configSeq < 0 then .error .notInit
  else if proposalId = invalidProposalId ∨ proposalId < v.proposalId then
    .error .invalidArgument
  else .ok ⟨proposalId, v.configSeq + 1⟩

end LogConfigVersion

/-- `LogConfigInfo`. -/
structure LogConfigInfo where
  /-- paxos members for log sync, without the arbitration replica -/
  logSyncMemberlist : ObMemberList
  /-- replica number for log sync, without the arbitration replica -/
  logSyncReplicaNum : Int
  arbitrationMember : ObMember
  /-- learners that were not degraded from members -/
  learnerlist : GlobalLearnerList
  /-- learners that were degraded from members -/
  degradedLearnerlist : GlobalLearnerList
  configVersion : LogConfigVersion
deriving DecidableEq

namespace LogConfigInfo

/-- `LogConfigInfo::check_list_unique`. -/
def checkListUnique (serverList : GlobalLearnerList) :
    List ObMember → ObResult GlobalLearnerList
  | [] => .ok serverList
  | m :: ms =>
    if serverList.containsServer m.server then .error .invalidArgument
    else match serverList.addLearner m with
      | .error e => .error e
      | .ok serverList' => checkListUnique serverList' ms

/-- The `server_list` of `is_all_list_unique` before the lists are checked. -/
def arbitrationServerList (c : LogConfigInfo) : ObResult GlobalLearnerList :=
  if c.arbitrationMember.isValid then GlobalLearnerList.empty.addLearner c.arbitrationMember
  else .ok GlobalLearnerList.empty

/-- `LogConfigInfo::is_all_list_unique`. -/
def isAllListUnique (c : LogConfigInfo) : Bool :=
  Except.toBool do
    let s ← c.arbitrationServerList
    let s ← checkListUnique s c.logSyncMemberlist.members
    let s ← checkListUnique s c.degradedLearnerlist.learners
    checkListUnique s c.learnerlist.learners

/-- `LogConfigInfo::is_valid`. -/
def isValid (c : LogConfigInfo) : Bool :=
  c.logSyncMemberlist.isValid && c.isAllListUnique && 0 < c.logSyncReplicaNum &&
    c.logSyncReplicaNum ≤ obMaxMemberNumber && c.configVersion.isValid

/-- The guard shared by the two list conversions below. -/
def hasLogSyncConfig (c : LogConfigInfo) : Bool :=
  c.logSyncMemberlist.isValid && 0 < c.logSyncReplicaNum &&
    c.logSyncReplicaNum ≤ obMaxMemberNumber

/-- `LogConfigInfo::get_expected_paxos_memberlist`. -/
def getExpectedPaxosMemberlist (c : LogConfigInfo) : ObResult (ObMemberList × Int) :=
  if c.hasLogSyncConfig = false then .ok (ObMemberList.empty, 0)
  else c.degradedLearnerlist.learners.foldlM
    (fun acc m => do return (← acc.1.addMember m, acc.2 + 1))
    (c.logSyncMemberlist, c.logSyncReplicaNum)

/-- The two lists of `convert_to_complete_config`. -/
def convertToCompleteConfig (c : LogConfigInfo) : ObResult (ObMemberList × Int) :=
  if c.hasLogSyncConfig = false then .error .notInit
  else do
    let allLearners ← GlobalLearnerList.empty.append c.learnerlist
    let _ ← allLearners.append c.degradedLearnerlist
    if c.arbitrationMember.isValid then
      return (← c.logSyncMemberlist.addMember c.arbitrationMember, c.logSyncReplicaNum + 1)
    else
      return (c.logSyncMemberlist, c.logSyncReplicaNum)

end LogConfigInfo

/-! ### The configuration change lock -/

/-- `OB_INVALID_CONFIG_CHANGE_LOCK_OWNER`. -/
def obInvalidConfigChangeLockOwner : Int := -1

/-- `ConfigChangeLockType::LOCK_NOTHING`. -/
def lockNothing : Int := 0

/-- `ConfigChangeLockType::LOCK_PAXOS_MEMBER_CHANGE`. -/
def lockPaxosMemberChange : Int := 1

/-- `LogLockMeta`; the lock type is stored as an integer, whatever was received. -/
structure LogLockMeta where
  version : Int
  lockOwner : Int
  lockType : Int
  lockTime : Int
deriving DecidableEq, Repr

namespace LogLockMeta

/-- `LOG_LOCK_META_VERSION`. -/
def logLockMetaVersion : Int := 1

/-- `LogLockMeta::is_valid`. -/
def isValid (l : LogLockMeta) : Bool :=
  let isValidLockedStat :=
    0 < l.lockOwner && l.lockType == lockPaxosMemberChange && l.lockTime != obInvalidTimestamp
  let isValidUnlockedStat :=
    l.lockType == lockNothing &&
      ((l.lockOwner == obInvalidConfigChangeLockOwner && l.lockTime == obInvalidTimestamp) ||
        (l.lockOwner != obInvalidConfigChangeLockOwner && l.lockTime != obInvalidTimestamp))
  l.version == logLockMetaVersion && (isValidLockedStat || isValidUnlockedStat)

/-- `LogLockMeta::generate` at time `now`. -/
def generate (lockOwner lockType now : Int) : ObResult LogLockMeta :=
  if lockType ≠ lockPaxosMemberChange ∨ lockOwner ≤ 0 then .error .invalidArgument
  else .ok ⟨logLockMetaVersion, lockOwner, lockType, now⟩

/-- `LogLockMeta::unlock` at time `now`. -/
def unlock (l : LogLockMeta) (now : Int) : LogLockMeta :=
  { l with lockType := lockNothing, lockTime := now }

/-- `LogLockMeta::is_locked`. -/
def isLocked (l : LogLockMeta) : Bool := l.lockType == lockPaxosMemberChange

end LogLockMeta

/-- `LogConfigInfoV2`: a configuration with the lock on changing it. -/
structure LogConfigInfoV2 where
  version : Int
  config : LogConfigInfo
  lockMeta : LogLockMeta
deriving DecidableEq

namespace LogConfigInfoV2

/-- `LogConfigInfoV2::is_valid`. -/
def isValid (c : LogConfigInfoV2) : Bool :=
  c.version == 1 && c.config.isValid && c.lockMeta.isValid

/-- `LogConfigInfoV2::is_config_change_locked`. -/
def isConfigChangeLocked (c : LogConfigInfoV2) : Bool := c.lockMeta.isLocked

end LogConfigInfoV2

end Andl.Palf
