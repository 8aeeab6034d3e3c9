import Mathlib

/-!
# Servers, members and member lists

The address, member and list classes of `oblib/common` that the log service builds its
configurations from.
-/

namespace Andl

open List

/-- The return codes of the modelled functions other than `OB_SUCCESS`. -/
inductive ObError where
  | notInit
  | initTwice
  | invalidArgument
  | sizeOverflow
  | entryExist
  | entryNotExist
  | errUnexpected
  | stateNotMatch
  | notSupported
  | notAllowRemovingLeader
  | eAgain
  | tryLockConfigChangeConflict
  | errOutOfLowerBound
  | errOutOfUpperBound
  | bufNotEnough
  | invalidData
  | checksumError
  | partialLog
  | iterEnd
  | needRetry
  | ioError
  | errPrimaryKeyDuplicate
  | batchedMultiStmtRollback
  | errDefensiveCheck
  | seqNoReorderUnderPdml
  | transactionSetViolation
  | tryLockRowConflict
  | errSharedLockConflict
  | replicaNotReadable
  | abort
  | divisionByZero
  | integerPrecisionOverflow
  | decimalPrecisionOverflow
  | emptyResult
  | arrayOutOfRange
  | datetimeFunctionOverflow
  | invalidDateValue
  | operateOverflow
  | tooManyDatetimeParts
  | intervalWithMonth
  | blockFrozen
  | numericOverflow
  | invalidNumeric
  | errSeqValueExceedLimit
  | autoincCacheNotEqual
  | errReachAutoincMax
  | hashExist
  | hashNotExist
  | hashFull
  | objLockExist
  | objLockNotExist
  | allocateMemoryFailed
  | versionNotMatch
  | deserializeError
  | transCtxNotExist
deriving DecidableEq, Repr

/-- The outcome of a function that returns an error code and fills in a result. -/
abbrev ObResult (α : Type) := Except ObError α

namespace ObResult

variable {α β : Type}

theorem bind_eq_ok {x : ObResult α} {f : α → ObResult β} {b : β} :
    (x >>= f) = .ok b ↔ ∃ a, x = .ok a ∧ f a = .ok b := by
  cases x with
  | error e => simp [bind, Except.bind]
  | ok a => simp [bind, Except.bind]

theorem pure_eq_ok {a b : α} : (pure a : ObResult α) = .ok b ↔ a = b := by
  simp [pure, Except.pure]

theorem toBool_eq_true {x : ObResult α} : Except.toBool x = true ↔ ∃ a, x = .ok a := by
  cases x with
  | error e => simp [Except.toBool]
  | ok a => simp [Except.toBool]

end ObResult

/-! ### Addresses and members -/

/-- `ObAddr::VER`; unix socket addresses are never part of a configuration. -/
inductive ObAddrVersion where
  | ipv4
  | ipv6
deriving DecidableEq, Repr

/-- `ObAddr::version_` as the number its comparison subtracts. -/
def ObAddrVersion.toNat : ObAddrVersion → Nat
  | .ipv4 => 4
  | .ipv6 => 6

/-- `ObAddr`, with the address bytes read as one big-endian number. -/
structure ObAddr where
  version : ObAddrVersion
  ip : Nat
  port : Nat
deriving DecidableEq, Repr

namespace ObAddr

/-- `ObAddr::is_valid`. -/
def isValid (a : ObAddr) : Bool :=
  0 < a.port && a.ip ≠ 0

/-- `ObAddr::operator<`, through `compare_refactored`. -/
def lt (a b : ObAddr) : Bool :=
  if a.version ≠ b.version then a.version.toNat < b.version.toNat
  else if a.ip ≠ b.ip then a.ip < b.ip
  else a.port < b.port

end ObAddr

/-- `OB_INVALID_TIMESTAMP`. -/
def obInvalidTimestamp : Int := -1

/-- `ObMember`: a server, the time it joined and its replica flags, bit 0 for a column store and bit
1 for a migrating replica. -/
structure ObMember where
  server : ObAddr
  timestamp : Int
  flag : Nat
deriving DecidableEq, Repr

namespace ObMember

/-- `ObMember::is_valid`; the timestamp may be `OB_INVALID_TIMESTAMP`. -/
def isValid (m : ObMember) : Bool := m.server.isValid

/-- `ObMember::operator<` compares the servers only. -/
def lt (m m' : ObMember) : Bool := m.server.lt m'.server

/-- The member after `ObMember::reset`. -/
def reset : ObMember := ⟨⟨.ipv4, 0, 0⟩, obInvalidTimestamp, 0⟩

/-- `ObMember(server, timestamp)` of a member. -/
def withoutFlag (m : ObMember) : ObMember := { m with flag := 0 }

/-- `ObMember::reset_migrating` clears bit 1 of the flags. -/
def resetMigrating (m : ObMember) : ObMember := { m with flag := m.flag - (m.flag &&& 2) }

end ObMember

/-! ### Member lists -/

/-- `OB_MAX_MEMBER_NUMBER`. -/
def obMaxMemberNumber : Nat := 7

/-- `is_valid_replica_num`. -/
def isValidReplicaNum (replicaNum : Int) : Bool :=
  0 < replicaNum && replicaNum ≤ obMaxMemberNumber

/-- `ObMemberList`. -/
structure ObMemberList where
  members : List ObMember
  length_le : members.length ≤ obMaxMemberNumber
  nodup : (members.map ObMember.server).Nodup
  valid : ∀ m ∈ members, m.isValid = true
deriving DecidableEq

namespace ObMemberList

/-- The list after `reset`. -/
def empty : ObMemberList := ⟨[], by decide, nodup_nil, by simp⟩

/-- The servers of the list, in order. -/
def servers (l : ObMemberList) : List ObAddr := l.members.map ObMember.server

theorem nodup_servers (l : ObMemberList) : l.servers.Nodup := l.nodup

/-- `ObMemberListBase::get_member_number`. -/
def getMemberNumber (l : ObMemberList) : Nat := l.members.length

/-- `ObMemberListBase::is_valid`. -/
def isValid (l : ObMemberList) : Bool := 0 < l.getMemberNumber

/-- `ObMemberListBase::contains(const ObAddr &)`. -/
def containsServer (l : ObMemberList) (server : ObAddr) : Bool :=
  l.members.any fun m => m.server == server

/-- `ObMemberListBase::contains(const ObMember &)`. -/
def contains (l : ObMemberList) (member : ObMember) : Bool :=
  l.members.any fun m => m == member

/-- The shift-and-store of `add_member`. -/
def insertSorted (m : ObMember) (l : List ObMember) : List ObMember :=
  l.orderedInsert (fun x y => x.lt y = true) m

theorem insertSorted_perm (m : ObMember) (l : List ObMember) : (insertSorted m l).Perm (m :: l) :=
  perm_orderedInsert _ m l

/-- `ObMemberListBase::add_member`. -/
def addMember (l : ObMemberList) (m : ObMember) : ObResult ObMemberList :=
  if hv : m.isValid = false then .error .invalidArgument
  else if hn : obMaxMemberNumber ≤ l.members.length then .error .sizeOverflow
  else if hs : m.server ∈ l.members.map ObMember.server then .error .entryExist
  else .ok
    { members := insertSorted m l.members
      length_le := by
        rw [(insertSorted_perm m l.members).length_eq, length_cons]
        omega
      nodup := by
        rw [((insertSorted_perm m l.members).map ObMember.server).nodup_iff, map_cons]
        exact nodup_cons.mpr ⟨hs, l.nodup⟩
      valid := by
        intro x hx
        rcases mem_cons.mp ((insertSorted_perm m l.members).mem_iff.mp hx) with rfl | hx
        · simpa using hv
        · exact l.valid x hx }

/-- The shift of `remove_server`. -/
def eraseServer (l : ObMemberList) (server : ObAddr) : ObMemberList where
  members := l.members.eraseP fun m => m.server == server
  length_le := (eraseP_sublist.length_le).trans l.length_le
  nodup := l.nodup.sublist (eraseP_sublist.map _)
  valid := fun m hm => l.valid m (mem_of_mem_eraseP hm)

/-- `ObMemberListBase::remove_server`. -/
def removeServer (l : ObMemberList) (server : ObAddr) : ObResult ObMemberList :=
  if server.isValid = false then .error .invalidArgument
  else if l.containsServer server then .ok (l.eraseServer server)
  else .error .entryNotExist

/-- `ObMemberListBase::member_addr_equal`. -/
def memberAddrEqual (l l' : ObMemberList) : Bool :=
  l.getMemberNumber == l'.getMemberNumber && l.members.all fun m => l'.containsServer m.server

/-! ### What a change of a member list does -/

theorem containsServer_iff (l : ObMemberList) (server : ObAddr) :
    l.containsServer server = true ↔ server ∈ l.servers := by
  simp [containsServer, servers]

theorem addMember_ok {l l' : ObMemberList} {m : ObMember} (h : l.addMember m = .ok l') :
    l'.members.Perm (m :: l.members) ∧ m.server ∉ l.servers ∧ m.isValid = true := by
  unfold addMember at h
  split_ifs at h with hv hn hs
  cases h
  exact ⟨insertSorted_perm m l.members, hs, by simpa using hv⟩

theorem mem_eraseServer (l : ObMemberList) (server : ObAddr) (m : ObMember) :
    m ∈ (l.eraseServer server).members ↔ m ∈ l.members ∧ m.server ≠ server := by
  have key : ∀ xs : List ObMember, (xs.map ObMember.server).Nodup →
      (m ∈ xs.eraseP (fun y => y.server == server) ↔ m ∈ xs ∧ m.server ≠ server) := by
    intro xs hxs
    induction xs with
    | nil => simp
    | cons x xs ih =>
      rw [map_cons, nodup_cons] at hxs
      by_cases hx : x.server = server
      · -- the head is the one that goes; no later member shares its server
        rw [eraseP_cons_of_pos (by simpa using hx), mem_cons]
        constructor
        · intro hm
          refine ⟨Or.inr hm, fun he => hxs.1 ?_⟩
          rw [hx, ← he]
          exact mem_map_of_mem hm
        · rintro ⟨rfl | hm, hne⟩
          · exact absurd hx hne
          · exact hm
      · rw [eraseP_cons_of_neg (by simpa using hx), mem_cons, mem_cons,
          ih hxs.2]
        constructor
        · rintro (rfl | ⟨hm, hne⟩)
          · exact ⟨Or.inl rfl, hx⟩
          · exact ⟨Or.inr hm, hne⟩
        · rintro ⟨rfl | hm, hne⟩
          · exact Or.inl rfl
          · exact Or.inr ⟨hm, hne⟩
  exact key l.members l.nodup

/-- Taking a server out of the list shortens it by one. -/
theorem length_eraseServer {l : ObMemberList} {server : ObAddr} (h : server ∈ l.servers) :
    (l.eraseServer server).members.length + 1 = l.members.length := by
  obtain ⟨m, hm, hs⟩ := mem_map.mp h
  have hlen := length_eraseP_of_mem (p := fun y : ObMember => y.server == server) hm
    (by simpa using hs)
  have hpos : 0 < l.members.length := length_pos_of_mem hm
  show (l.members.eraseP fun y => y.server == server).length + 1 = _
  omega

end ObMemberList

/-! ### Learner lists -/

/-- `OB_MAX_GLOBAL_LEARNER_NUMBER`. -/
def obMaxGlobalLearnerNumber : Nat := 2000

/-- `GlobalLearnerList`: learners in the order they were added. -/
structure GlobalLearnerList where
  learners : List ObMember
  length_le : learners.length ≤ obMaxGlobalLearnerNumber
deriving DecidableEq

namespace GlobalLearnerList

/-- The list after `reset`. -/
def empty : GlobalLearnerList := ⟨[], by decide⟩

/-- `BaseLearnerList::get_member_number`. -/
def getMemberNumber (l : GlobalLearnerList) : Nat := l.learners.length

/-- `BaseLearnerList::contains(const T &)`. -/
def contains (l : GlobalLearnerList) (learner : ObMember) : Bool :=
  learner.isValid && l.learners.any fun m => m == learner

/-- `BaseLearnerList::contains(const ObAddr &)`. -/
def containsServer (l : GlobalLearnerList) (server : ObAddr) : Bool :=
  server.isValid && l.learners.any fun m => m.server == server

/-- `BaseLearnerList::add_learner`. -/
def addLearner (l : GlobalLearnerList) (learner : ObMember) : ObResult GlobalLearnerList :=
  if learner.isValid = false then .error .invalidArgument
  else if hn : obMaxGlobalLearnerNumber ≤ l.learners.length then .error .sizeOverflow
  else if l.contains learner then .error .entryExist
  else .ok ⟨l.learners ++ [learner], by rw [length_append, length_singleton]; omega⟩

/-- `BaseLearnerList::remove_learner(const T &)`. -/
def removeLearner (l : GlobalLearnerList) (learner : ObMember) : ObResult GlobalLearnerList :=
  if learner.isValid = false then .error .invalidArgument
  else if l.contains learner then
    .ok ⟨l.learners.erase learner, (length_erase_le ..).trans l.length_le⟩
  else .error .entryNotExist

/-- `BaseLearnerList::append`. -/
def append (l l' : GlobalLearnerList) : ObResult GlobalLearnerList :=
  l'.learners.foldlM addLearner l

end GlobalLearnerList

end Andl
