import Mathlib.Data.Nat.Notation
import Mathlib.Data.UInt

/-!
# Messages, actions and log entries

The data types of `raftcore::types` and the storage types of `raft-event-loop`. Every
`u64` of the source (node ids, terms, log indices, counters) is a natural number. Overflow
checks are on : a call whose arithmetic overflows panics and does not return, and one that
returns has computed the same on natural numbers. A `Vec<u8>` is a list of bytes.
-/

namespace FerrisFerry

/-- Serialized commands and snapshots. -/
abbrev Bytes := List UInt8

abbrev NodeId := ℕ

inductive RaftState where
  | leader
  | follower
  | candidate
deriving DecidableEq, Repr

/-- An entry in the log. -/
structure LogEntry where
  term : ℕ
  /-- Serialized version of the command. -/
  command : Bytes
deriving DecidableEq, Repr

structure RequestVoteRPC where
  term : ℕ
  candidateId : NodeId
  lastLogIndex : ℕ
  lastLogTerm : ℕ
deriving DecidableEq, Repr

structure RequestVoteResponseRPC where
  /-- Id of the responder. -/
  id : NodeId
  term : ℕ
  voteGranted : Bool
deriving DecidableEq, Repr

structure AppendEntriesRPC where
  /-- Leader's term. -/
  term : ℕ
  leaderId : NodeId
  /-- Index of the entry immediately preceding the new ones, as tracked by the leader. -/
  prevLogIndex : ℕ
  /-- Term of the entry at `prevLogIndex`. -/
  prevLogTerm : ℕ
  /-- Entries to store; empty for heartbeats. -/
  entries : List LogEntry
  /-- `commitIndex` of the leader. -/
  leaderCommit : ℕ
deriving DecidableEq, Repr

structure AppendEntriesResponseRPC where
  /-- Id of the responder. -/
  id : NodeId
  term : ℕ
  /-- The last index of the responder's log. -/
  matchIndex : ℕ
  success : Bool
  firstConflictingIndex : Option ℕ
  firstConflictingTerm : Option ℕ
deriving DecidableEq, Repr

structure InstallSnapshotRPC where
  term : ℕ
  leaderId : NodeId
  lastIncludedIndex : ℕ
  lastIncludedTerm : ℕ
  data : Bytes
deriving DecidableEq, Repr

structure InstallSnapshotResponseRPC where
  id : NodeId
  term : ℕ
  lastIncludedIndex : ℕ
deriving DecidableEq, Repr

inductive Message where
  | requestVote (req : RequestVoteRPC)
  | requestVoteResponse (resp : RequestVoteResponseRPC)
  | appendEntries (req : AppendEntriesRPC)
  | appendEntriesResponse (resp : AppendEntriesResponseRPC)
  | installSnapshot (req : InstallSnapshotRPC)
  | installSnapshotResponse (resp : InstallSnapshotResponseRPC)
deriving DecidableEq, Repr

/-- The term a message carries : what every handler passes to `check_msg_term`. -/
def Message.term : Message → ℕ
  | .requestVote req => req.term
  | .requestVoteResponse resp => resp.term
  | .appendEntries req => req.term
  | .appendEntriesResponse resp => resp.term
  | .installSnapshot req => req.term
  | .installSnapshotResponse resp => resp.term

/-- What `RaftCore` asks the event loop to do, in order. -/
inductive Action where
  | sendMessage (target : NodeId) (message : Message)
  | applyToStateMachine (index : ℕ) (command : Bytes)
  | persistMetadata (term : ℕ) (votedFor : Option NodeId)
  | persistLogEntries (startIndex : ℕ) (entries : List LogEntry)
  | sendInstallSnapshot (target : NodeId) (term lastIncludedIndex lastIncludedTerm : ℕ)
  | installSnapshot (lastIncludedIndex lastIncludedTerm : ℕ) (data : Bytes)
  | readBarrierReady (id : ℕ)
deriving DecidableEq, Repr

structure SnapshotMetadata where
  lastApplied : ℕ
  lastAppliedTerm : ℕ
deriving DecidableEq, Repr

/-! ## Storage types -/

structure PersistedMetadata where
  term : ℕ
  votedFor : Option NodeId
deriving DecidableEq, Repr

structure PersistedLogAddendum where
  startIndex : ℕ
  entries : List LogEntry
deriving DecidableEq, Repr

structure Snapshot where
  lastIncludedIndex : ℕ
  lastIncludedTerm : ℕ
  data : Bytes
deriving DecidableEq, Repr

end FerrisFerry
