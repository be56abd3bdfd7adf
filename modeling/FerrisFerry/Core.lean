import FerrisFerry.Types
import Mathlib.Data.List.AList
import Mathlib.Data.List.Sort
import Mathlib.Data.Finset.Card

/-!
# The sans-I/O core

`RaftCore` of `raftcore/src/lib.rs`, function by function under the source's names. Every
call returns the core after it and the actions for the event loop.

A call that panics is `none` : an `unwrap` of `None`, a slice or `drain` out of range, an
unsigned subtraction that would underflow (`checkedSub`, the overflow checks on). A
random election timeout is an argument `rnd` of the call that draws it; a call that draws
twice overwrites the first draw unread. Hash maps are association lists without
duplicate keys (`AList`), the set of votes a `Finset`; where the source iterates over a
map the order is the list's.
-/

namespace FerrisFerry

/-- `a - b` on unsigned integers, a panic on underflow. -/
def checkedSub (a b : ℕ) : Option ℕ :=
  if b ≤ a then some (a - b) else none

structure RaftCore where
  id : NodeId
  peers : List NodeId
  state : RaftState
  currentTerm : ℕ
  votedFor : Option NodeId
  log : List LogEntry
  commitIndex : ℕ
  lastApplied : ℕ
  currentLeader : Option NodeId
  nextIndex : AList fun _ : NodeId => ℕ
  matchIndex : AList fun _ : NodeId => ℕ
  votesReceived : Finset NodeId
  lastIncludedIndex : ℕ
  lastIncludedTerm : ℕ
  ticksSinceLastHeartbeat : ℕ
  electionTimeoutRange : ℕ × ℕ
  /-- The field `election_timeout`; the method of that name is `RaftCore.electionTimeout`. -/
  electionTimeoutTicks : ℕ
  heartbeatInterval : ℕ
  appendEntriesCount : ℕ
  nextReadBarrierId : ℕ
  readBarriers : AList fun _ : ℕ => ℕ

namespace RaftCore

def DEFAULT_HEARTBEAT : ℕ := 5

/-! ## Constructors -/

def new (id : NodeId) (nodes : List NodeId) (heartbeatInterval : Option ℕ)
    (electionRange : ℕ × ℕ) (rnd : ℕ) : RaftCore where
  id := id
  peers := nodes.filter fun x => x ≠ id
  state := .follower
  currentTerm := 0
  votedFor := none
  log := []
  commitIndex := 0
  lastApplied := 0
  currentLeader := none
  nextIndex := ∅
  matchIndex := ∅
  votesReceived := ∅
  lastIncludedIndex := 0
  lastIncludedTerm := 0
  ticksSinceLastHeartbeat := 0
  electionTimeoutRange := electionRange
  electionTimeoutTicks := rnd
  heartbeatInterval := heartbeatInterval.getD DEFAULT_HEARTBEAT
  appendEntriesCount := 0
  nextReadBarrierId := 0
  readBarriers := ∅

def restore (id : NodeId) (nodes : List NodeId) (heartbeatInterval : Option ℕ)
    (electionRange : ℕ × ℕ) (rnd : ℕ) (currentTerm : ℕ) (votedFor : Option NodeId)
    (log : List LogEntry) : RaftCore :=
  { new id nodes heartbeatInterval electionRange rnd with
    currentTerm := currentTerm
    votedFor := votedFor
    log := log }

def restoreWithSnapshot (id : NodeId) (nodes : List NodeId) (heartbeatInterval : Option ℕ)
    (electionRange : ℕ × ℕ) (rnd : ℕ) (currentTerm : ℕ) (votedFor : Option NodeId)
    (log : List LogEntry) (lastIncludedIndex lastIncludedTerm : ℕ) : RaftCore :=
  { restore id nodes heartbeatInterval electionRange rnd currentTerm votedFor log with
    lastIncludedIndex := lastIncludedIndex
    lastIncludedTerm := lastIncludedTerm
    commitIndex := lastIncludedIndex
    lastApplied := lastIncludedIndex }

/-! ## Reading the log -/

def isLeader (core : RaftCore) : Bool :=
  core.state = .leader

/-- The logical index of the last entry, snapshots included. -/
def lastLogIndex (core : RaftCore) : ℕ :=
  core.lastIncludedIndex + core.log.length

/-- The entry at a logical index. -/
def logEntryAt (core : RaftCore) (index : ℕ) : Option LogEntry :=
  if index ≤ core.lastIncludedIndex then none
  else core.log[index - core.lastIncludedIndex - 1]?

/-- The term at a logical index. -/
def logTermAt (core : RaftCore) (index : ℕ) : Option ℕ :=
  if index < core.lastIncludedIndex then none
  else if index = core.lastIncludedIndex then some core.lastIncludedTerm
  else (core.logEntryAt index).map LogEntry.term

/-- The term of the last entry; the unwrap can panic only if the log has none. -/
def lastLogTerm (core : RaftCore) : Option ℕ :=
  core.logTermAt core.lastLogIndex

/-- The entries between two logical indices, `stop` excluded. -/
def logSlice (core : RaftCore) (start stop : ℕ) : Option (List LogEntry) :=
  if start ≤ core.lastIncludedIndex then some []
  else do
    let lo := start - core.lastIncludedIndex - 1
    let hi := min (← checkedSub stop (core.lastIncludedIndex + 1)) core.log.length
    if lo ≤ hi then some ((core.log.drop lo).take (hi - lo)) else none

/-! ## Sending -/

def installSnapshotForPeer (core : RaftCore) (peer : NodeId) : Action :=
  .sendInstallSnapshot peer core.currentTerm core.lastIncludedIndex core.lastIncludedTerm

def buildAppendEntriesForPeer (core : RaftCore) (peer : NodeId) : Option Action := do
  let peerNextIndex := (core.nextIndex.lookup peer).getD core.lastLogIndex
  -- the last index the peer should have seen from our log
  let prevLogIndex := peerNextIndex - 1
  match core.logTermAt prevLogIndex with
  | none => some (core.installSnapshotForPeer peer)
  | some prevLogTerm =>
    let entries ← core.logSlice peerNextIndex (core.lastLogIndex + 1)
    some (.sendMessage peer (.appendEntries
      { term := core.currentTerm
        leaderId := core.id
        prevLogIndex := prevLogIndex
        prevLogTerm := prevLogTerm
        entries := entries
        leaderCommit := core.commitIndex }))

/-- Heartbeats and new entries alike, to every peer. -/
def appendEntries (core : RaftCore) : Option (List Action) :=
  core.peers.mapM core.buildAppendEntriesForPeer

/-! ## Proposals and ticks -/

/-- A proposal, answered `none` by a node that is not the leader. -/
def propose (core : RaftCore) (command : Bytes) :
    Option (RaftCore × Option (List Action)) :=
  if core.state ≠ .leader then some (core, none)
  else do
    let core := { core with
      log := core.log ++ [⟨core.currentTerm, command⟩]
      ticksSinceLastHeartbeat := 0 }
    let entries ← core.logSlice core.lastLogIndex (core.lastLogIndex + 1)
    let sends ← core.appendEntries
    some (core, some (.persistLogEntries core.lastLogIndex entries :: sends))

def resetElectionTimeout (core : RaftCore) (rnd : ℕ) : RaftCore :=
  { core with ticksSinceLastHeartbeat := 0, electionTimeoutTicks := rnd }

def heartbeat (core : RaftCore) : Option (RaftCore × List Action) :=
  if core.heartbeatInterval ≤ core.ticksSinceLastHeartbeat then do
    let actions ← core.appendEntries
    some ({ core with ticksSinceLastHeartbeat := 0 }, actions)
  else some (core, [])

def electionTimeout (core : RaftCore) (rnd : ℕ) : Option (RaftCore × List Action) :=
  if core.electionTimeoutTicks ≤ core.ticksSinceLastHeartbeat then do
    let core := { core with
      currentTerm := core.currentTerm + 1
      state := .candidate
      currentLeader := none
      votesReceived := {core.id}
      votedFor := some core.id }
    let core := core.resetElectionTimeout rnd
    let request : RequestVoteRPC :=
      { term := core.currentTerm
        candidateId := core.id
        lastLogIndex := core.lastLogIndex
        lastLogTerm := ← core.lastLogTerm }
    some (core, .persistMetadata core.currentTerm core.votedFor ::
      core.peers.map fun peer => .sendMessage peer (.requestVote request))
  else some (core, [])

def tick (core : RaftCore) (rnd : ℕ) : Option (RaftCore × List Action) :=
  let core := { core with ticksSinceLastHeartbeat := core.ticksSinceLastHeartbeat + 1 }
  match core.state with
  | .leader => core.heartbeat
  | .candidate => core.electionTimeout rnd
  | .follower => core.electionTimeout rnd

/-! ## Votes -/

/-- Step down on a higher term. The empty list is the `None` of the source : every caller
only extends its actions by the result. -/
def checkMsgTerm (core : RaftCore) (msgTerm rnd : ℕ) : RaftCore × List Action :=
  if core.currentTerm < msgTerm then
    let core := ({ core with
      currentTerm := msgTerm
      state := .follower
      votedFor := none }.resetElectionTimeout rnd)
    ({ core with readBarriers := ∅, currentLeader := none },
      [.persistMetadata core.currentTerm core.votedFor])
  else (core, [])

def handleRequestVote (core : RaftCore) (req : RequestVoteRPC) (rnd : ℕ) :
    Option (RaftCore × List Action) := do
  let (core, actions) := core.checkMsgTerm req.term rnd
  let falseResponse : Action := .sendMessage req.candidateId (.requestVoteResponse
    { id := core.id, term := core.currentTerm, voteGranted := false })
  if req.term < core.currentTerm then
    return (core, actions ++ [falseResponse])
  let canVote : Bool := match core.votedFor with
    | none => true
    | some id => id = req.candidateId
  let lastLogTerm ← core.lastLogTerm
  -- a higher last term, or an equal one and an index at least as long as ours
  let logCheck : Bool := lastLogTerm < req.lastLogTerm ∨
    (req.lastLogTerm = lastLogTerm ∧ core.lastLogIndex ≤ req.lastLogIndex)
  if canVote && logCheck then
    let core := { core.resetElectionTimeout rnd with votedFor := some req.candidateId }
    return (core, actions ++
      [.persistMetadata core.currentTerm core.votedFor,
        .sendMessage req.candidateId (.requestVoteResponse
          { id := core.id, term := core.currentTerm, voteGranted := true })])
  else
    return (core, actions ++ [falseResponse])

/-- A dummy entry of the current term, and fresh indices for the peers. -/
def initializeLeaderState (core : RaftCore) : Option (RaftCore × Action) := do
  let core := { core with log := core.log ++ [(⟨core.currentTerm, []⟩ : LogEntry)] }
  let core := { core with
    nextIndex := core.peers.foldl (fun m id => m.insert id (core.lastLogIndex + 1)) core.nextIndex
    matchIndex := core.peers.foldl (fun m id => m.insert id 0) core.matchIndex }
  let entries ← core.logSlice core.lastLogIndex (core.lastLogIndex + 1)
  some (core, .persistLogEntries core.lastLogIndex entries)

def handleRequestVoteResponse (core : RaftCore) (resp : RequestVoteResponseRPC) (rnd : ℕ) :
    Option (RaftCore × List Action) := do
  let (core, actions) := core.checkMsgTerm resp.term rnd
  if core.state ≠ .candidate then
    return (core, actions)
  if resp.voteGranted then
    let core := { core with votesReceived := insert resp.id core.votesReceived }
    if (core.peers.length + 1) / 2 < core.votesReceived.card then
      let core := { core with state := .leader, currentLeader := some core.id }
      let (core, persist) ← core.initializeLeaderState
      let core := core.resetElectionTimeout rnd
      let sends ← core.appendEntries
      return (core, actions ++ persist :: sends)
    else
      return (core, actions)
  else
    return (core, actions)

/-! ## Appending entries -/

/-- A candidate follows the leader of its own term. -/
def stepDown (core : RaftCore) (term : ℕ) : RaftCore :=
  if term = core.currentTerm ∧ core.state = .candidate then { core with state := .follower }
  else core

/-- Restart the election timer for a leader of the current term. -/
def recognize (core : RaftCore) (leaderId : NodeId) (rnd : ℕ) : RaftCore :=
  { core.resetElectionTimeout rnd with currentLeader := some leaderId }

/-- The first index of the run of `conflictingTerm` entries that ends before `index`. -/
def conflictingIndex (core : RaftCore) (index conflictingTerm : ℕ) : Option ℕ :=
  ((List.range index).reverse.find? fun i =>
    (core.logTermAt i).getD 0 ≠ conflictingTerm).map (· + 1)

/-- The merge loop : entry by entry from index `i`, truncating at the first conflict. -/
def mergeEntries (core : RaftCore) : ℕ → List LogEntry → Option RaftCore
  | _, [] => some core
  | i, newEntry :: entries =>
    if i ≤ core.lastLogIndex then
      match core.logTermAt i with
      | none => none
      | some term =>
        if term ≠ newEntry.term then
          match checkedSub i (core.lastIncludedIndex + 1) with
          | none => none
          | some len =>
            mergeEntries { core with log := core.log.take len ++ [newEntry] } (i + 1) entries
        else mergeEntries core (i + 1) entries
    else mergeEntries { core with log := core.log ++ [newEntry] } (i + 1) entries

/-- One `ApplyToStateMachine` per entry, numbered from `start`. -/
def applyActions (start : ℕ) (entries : List LogEntry) : List Action :=
  entries.mapIdx fun index entry => .applyToStateMachine (index + start) entry.command

/-- Is the previous entry of the request ours, or is there none. -/
def appendEntriesValid (core : RaftCore) (req : AppendEntriesRPC) : Bool :=
  req.prevLogIndex = 0 ∨ (req.prevLogIndex ≤ core.lastLogIndex ∧
    core.logTermAt req.prevLogIndex = some req.prevLogTerm)

/-- The rejection of a request whose previous entry is missing or has another term. -/
def conflictResponse (core : RaftCore) (req : AppendEntriesRPC)
    (response : AppendEntriesResponseRPC) : AppendEntriesResponseRPC :=
  if core.lastLogIndex < req.prevLogIndex then
    { response with firstConflictingIndex := some (core.lastLogIndex + 1) }
  else
    let conflictingTerm := (core.logTermAt req.prevLogIndex).getD 0
    { response with
      firstConflictingIndex := core.conflictingIndex req.prevLogIndex conflictingTerm
      firstConflictingTerm := some conflictingTerm }

/-- The commit step of a follower : apply up to the leader's commit index, as far as the
log reaches. -/
def followCommit (core : RaftCore) (leaderCommit : ℕ) : Option (RaftCore × List Action) :=
  if core.commitIndex < leaderCommit then do
    let oldCommit := core.commitIndex
    let core := { core with commitIndex := min leaderCommit core.lastLogIndex }
    let entries ← core.logSlice (oldCommit + 1) (core.commitIndex + 1)
    some ({ core with lastApplied := core.commitIndex }, applyActions (oldCommit + 1) entries)
  else some (core, [])

/-- Persist from the first entry of the request on, if it has entries. -/
def persistMerged (core : RaftCore) (req : AppendEntriesRPC) : Option (List Action) :=
  if req.entries = [] then some []
  else (core.logSlice (req.prevLogIndex + 1) (core.lastLogIndex + 1)).map fun entries =>
    [.persistLogEntries (req.prevLogIndex + 1) entries]

/-- The accepting branch of `handle_append_entries` : merge, persist, commit, reply. -/
def acceptEntries (core : RaftCore) (req : AppendEntriesRPC) : Option (RaftCore × List Action) := do
  let core ← core.mergeEntries (req.prevLogIndex + 1) req.entries
  let persist ← core.persistMerged req
  let (core, applies) ← core.followCommit req.leaderCommit
  some (core, persist ++ applies ++
    [.sendMessage req.leaderId (.appendEntriesResponse
      { id := core.id
        term := core.currentTerm
        matchIndex := core.lastLogIndex
        success := true
        firstConflictingIndex := none
        firstConflictingTerm := none })])

def handleAppendEntries (core : RaftCore) (req : AppendEntriesRPC) (rnd : ℕ) :
    Option (RaftCore × List Action) := do
  let (core, actions) := core.checkMsgTerm req.term rnd
  let response : AppendEntriesResponseRPC :=
    { id := core.id
      term := core.currentTerm
      matchIndex := core.lastLogIndex
      success := false
      firstConflictingIndex := none
      firstConflictingTerm := none }
  let core := core.stepDown req.term
  if core.state ≠ .follower ∨ req.term < core.currentTerm then
    return (core, actions ++ [.sendMessage req.leaderId (.appendEntriesResponse response)])
  let core := core.recognize req.leaderId rnd
  if core.appendEntriesValid req then
    let (core, accepted) ← core.acceptEntries req
    return (core, actions ++ accepted)
  else
    return (core, actions ++ [.sendMessage req.leaderId
      (.appendEntriesResponse (core.conflictResponse req response))])

/-! ## The leader's bookkeeping -/

/-- The value at the median position of the leader's and the peers' match indices. -/
def replicatedIndex (core : RaftCore) : ℕ :=
  let peerIndices := core.matchIndex.entries.map Sigma.snd ++ [core.lastLogIndex]
  (peerIndices.insertionSort (· ≤ ·)).getD (peerIndices.length / 2) 0

/-- The last index of the current term in `(commitIndex, replicated]`, or `commitIndex`. -/
def newCommit (core : RaftCore) (replicated : ℕ) : Option ℕ :=
  (List.range' (core.commitIndex + 1) (replicated - core.commitIndex)).foldlM
    (fun newCommit index => do
      let term ← core.logTermAt index
      some (if term = core.currentTerm then index else newCommit)) core.commitIndex

/-- Commit by counting match indices and apply from `lastApplied` on. -/
def leaderCommit (core : RaftCore) : Option (RaftCore × List Action) := do
  let newCommit ← core.newCommit core.replicatedIndex
  let core := { core with commitIndex := newCommit }
  let entries ← core.logSlice (core.lastApplied + 1) (core.commitIndex + 1)
  some ({ core with lastApplied := core.commitIndex },
    applyActions (core.lastApplied + 1) entries)

/-- The read barriers whose count of acknowledgements has been reached. -/
def readyBarriers (core : RaftCore) : List ℕ :=
  let majority := (core.peers.length + 1) / 2
  (core.readBarriers.entries.filter fun barrier =>
    barrier.2 + majority ≤ core.appendEntriesCount).map Sigma.fst

def extractBarriers (core : RaftCore) : RaftCore × List Action :=
  ({ core with
      readBarriers := core.readyBarriers.foldl (fun m id => m.erase id) core.readBarriers },
    core.readyBarriers.map .readBarrierReady)

/-- The success branch : record the match, commit, release read barriers. -/
def recordSuccess (core : RaftCore) (resp : AppendEntriesResponseRPC) :
    Option (RaftCore × List Action) := do
  let core := { core with
    matchIndex := core.matchIndex.insert resp.id resp.matchIndex
    nextIndex := core.nextIndex.insert resp.id (resp.matchIndex + 1)
    appendEntriesCount := core.appendEntriesCount + 1 }
  let (core, applies) ← core.leaderCommit
  let (core, ready) := core.extractBarriers
  some (core, applies ++ ready)

def handleAppendEntriesResponse (core : RaftCore) (resp : AppendEntriesResponseRPC) (rnd : ℕ) :
    Option (RaftCore × List Action) := do
  let (core, actions) := core.checkMsgTerm resp.term rnd
  if resp.success then
    let (core, recorded) ← core.recordSuccess resp
    return (core, actions ++ recorded)
  else
    -- the follower's first conflict if it sent one, else 0
    let core := { core with
      nextIndex := core.nextIndex.replace resp.id (resp.firstConflictingIndex.getD 0) }
    let append ← core.buildAppendEntriesForPeer resp.id
    return (core, actions ++ [append])

def requestReadBarrier (core : RaftCore) : RaftCore × Option ℕ :=
  if core.state ≠ .leader then (core, none)
  else
    let id := core.nextReadBarrierId + 1
    ({ core with
        nextReadBarrierId := id
        readBarriers := core.readBarriers.insert id core.appendEntriesCount },
      some id)

/-! ## Snapshots -/

def prepareSnapshot (core : RaftCore) : Option SnapshotMetadata := do
  some ⟨core.lastApplied, ← core.logTermAt core.lastApplied⟩

def completeSnapshot (core : RaftCore) (metadata : SnapshotMetadata) : Option RaftCore :=
  if metadata.lastApplied ≤ core.lastIncludedIndex then some core
  else
    let drained := metadata.lastApplied - core.lastIncludedIndex
    if drained ≤ core.log.length then
      some { core with
        log := core.log.drop drained
        lastIncludedIndex := metadata.lastApplied
        lastIncludedTerm := metadata.lastAppliedTerm }
    else none

def handleInstallSnapshot (core : RaftCore) (req : InstallSnapshotRPC) (rnd : ℕ) :
    RaftCore × List Action :=
  let (core, actions) := core.checkMsgTerm req.term rnd
  let respond (lastIncludedIndex : ℕ) : Action :=
    .sendMessage req.leaderId (.installSnapshotResponse
      { id := core.id, term := core.currentTerm, lastIncludedIndex := lastIncludedIndex })
  if req.term < core.currentTerm then
    (core, actions ++ [respond core.lastIncludedIndex])
  else
    let core := (core.stepDown req.term).recognize req.leaderId rnd
    if req.lastIncludedIndex ≤ core.lastIncludedIndex then
      (core, actions ++ [respond core.lastIncludedIndex])
    else if core.logTermAt req.lastIncludedIndex = some req.lastIncludedTerm then
      -- the entry is ours already
      (core, actions ++ [respond req.lastIncludedIndex])
    else
      ({ core with
          log := []
          lastIncludedIndex := req.lastIncludedIndex
          lastIncludedTerm := req.lastIncludedTerm
          lastApplied := req.lastIncludedIndex
          commitIndex := req.lastIncludedIndex },
        actions ++ [.installSnapshot req.lastIncludedIndex req.lastIncludedTerm req.data,
          respond req.lastIncludedIndex])

def handleInstallSnapshotResponse (core : RaftCore) (resp : InstallSnapshotResponseRPC)
    (rnd : ℕ) : RaftCore × List Action :=
  let (core, actions) := core.checkMsgTerm resp.term rnd
  if core.state ≠ .leader then (core, actions)
  else
    ({ core with
        nextIndex := core.nextIndex.insert resp.id (resp.lastIncludedIndex + 1)
        matchIndex := core.matchIndex.insert resp.id resp.lastIncludedIndex },
      actions)

/-- `RaftDriver::handle_message` up to the core call : each message to its handler. -/
def handleMessage (core : RaftCore) (msg : Message) (rnd : ℕ) :
    Option (RaftCore × List Action) :=
  match msg with
  | .requestVote req => core.handleRequestVote req rnd
  | .requestVoteResponse resp => core.handleRequestVoteResponse resp rnd
  | .appendEntries req => core.handleAppendEntries req rnd
  | .appendEntriesResponse resp => core.handleAppendEntriesResponse resp rnd
  | .installSnapshot req => some (core.handleInstallSnapshot req rnd)
  | .installSnapshotResponse resp => some (core.handleInstallSnapshotResponse resp rnd)

end RaftCore

end FerrisFerry
