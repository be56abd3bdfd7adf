import FerrisFerry.CoreSpec

/-!
# The outcomes of a call

`RaftCore.Outcome` lists what a call of the core can come to : the core after it and the
actions it returns, in terms of a few named changes of the core (`stand`, `push`, `lead`,
`follow`, `install`). `RaftCore.call_outcome` : every call that returns has one of these
outcomes. The proofs about runs split on it and never look at a handler again.
-/

namespace FerrisFerry

namespace RaftCore

/-! ## Changes of the core -/

/-- Start an election. -/
def stand (core : RaftCore) (rnd : ℕ) : RaftCore :=
  { core with
    currentTerm := core.currentTerm + 1
    state := .candidate
    currentLeader := none
    votesReceived := {core.id}
    votedFor := some core.id
    ticksSinceLastHeartbeat := 0
    electionTimeoutTicks := rnd }

/-- The vote request of a candidate. -/
def voteRequest (core : RaftCore) : RequestVoteRPC :=
  ⟨core.currentTerm, core.id, core.tip.index, core.tip.term⟩

/-- Grant a vote. -/
def grant (core : RaftCore) (candidateId : NodeId) (rnd : ℕ) : RaftCore :=
  { core.resetElectionTimeout rnd with votedFor := some candidateId }

/-- Append an entry of the current term. -/
def push (core : RaftCore) (command : Bytes) : RaftCore :=
  { core with log := core.log ++ [⟨core.currentTerm, command⟩] }

/-- Count a vote. -/
def collect (core : RaftCore) (voter : NodeId) : RaftCore :=
  { core with votesReceived := insert voter core.votesReceived }

/-- Become the leader : append the dummy entry and reset the indices of the peers. -/
def lead (core : RaftCore) (rnd : ℕ) : RaftCore :=
  { core.push [] with
    state := .leader
    currentLeader := some core.id
    nextIndex :=
      core.peers.foldl (fun m id => m.insert id (core.lastLogIndex + 1 + 1)) core.nextIndex
    matchIndex := core.peers.foldl (fun m id => m.insert id 0) core.matchIndex
    ticksSinceLastHeartbeat := 0
    electionTimeoutTicks := rnd }

/-- Recognize the leader of the current term. -/
def follow (core : RaftCore) (leaderId : NodeId) (rnd : ℕ) : RaftCore :=
  { core with
    state := if core.state = .candidate then .follower else core.state
    currentLeader := some leaderId
    ticksSinceLastHeartbeat := 0
    electionTimeoutTicks := rnd }

/-- Replace the log by a snapshot. -/
def install (core : RaftCore) (req : InstallSnapshotRPC) : RaftCore :=
  { core with
    log := []
    lastIncludedIndex := req.lastIncludedIndex
    lastIncludedTerm := req.lastIncludedTerm
    lastApplied := req.lastIncludedIndex
    commitIndex := req.lastIncludedIndex }

/-- Forget where a peer's log stands. -/
def backOff (core : RaftCore) (resp : AppendEntriesResponseRPC) : RaftCore :=
  { core with nextIndex := core.nextIndex.replace resp.id (resp.firstConflictingIndex.getD 0) }

/-- Record that a peer holds the log up to an index. -/
def recordMatch (core : RaftCore) (peer : NodeId) (index : ℕ) : RaftCore :=
  { core with
    matchIndex := core.matchIndex.insert peer index
    nextIndex := core.nextIndex.insert peer (index + 1) }

/-- The plain rejection of an append. -/
def rejection (core : RaftCore) : AppendEntriesResponseRPC :=
  ⟨core.id, core.currentTerm, core.lastLogIndex, false, none, none⟩

/-- The answer to a snapshot. -/
def snapshotReply (core : RaftCore) (leaderId : NodeId) (lastIncludedIndex : ℕ) : Action :=
  .sendMessage leaderId (.installSnapshotResponse ⟨core.id, core.currentTerm, lastIncludedIndex⟩)

@[simp] theorem push_links (core : RaftCore) (command : Bytes) : (core.push command).links =
    core.links ++ [(core.tip, ⟨core.tip.index + 1, core.currentTerm⟩, command)] := by
  simp only [links, push, pathLinks_append]
  rfl

theorem logSlice_last {core : RaftCore} {e : LogEntry} {log : List LogEntry}
    (h : core.log = log ++ [e]) :
    core.logSlice core.lastLogIndex (core.lastLogIndex + 1) = some [e] := by
  have hl : core.lastLogIndex = core.lastIncludedIndex + (log.length + 1) := by
    simp [lastLogIndex, h]
  have hd : core.lastLogIndex - core.lastIncludedIndex - 1 = log.length := by omega
  rw [logSlice_end (by omega) (by omega), hd, h, List.drop_left]

/-! ## Outcomes -/

variable {core core' : RaftCore} {rnd : ℕ} {actions : List Action}

/-- What a call can come to. The outcomes of a message start from the core after the term
check. -/
inductive Outcome (core : RaftCore) (rnd : ℕ) : Request → RaftCore → List Action → Prop
  | wait :
    Outcome core rnd .tick
      { core with ticksSinceLastHeartbeat := core.ticksSinceLastHeartbeat + 1 } []
  | heartbeat {sends : List Action} (hl : core.state = .leader)
      (hs : core.appendEntries = some sends) :
    Outcome core rnd .tick { core with ticksSinceLastHeartbeat := 0 } sends
  | stand (hl : core.state ≠ .leader) :
    Outcome core rnd .tick (core.stand rnd)
      (.persistMetadata (core.currentTerm + 1) (some core.id) ::
        core.peers.map fun peer => .sendMessage peer (.requestVote (core.stand rnd).voteRequest))
  | refuse {command : Bytes} (hl : core.state ≠ .leader) :
    Outcome core rnd (.propose command) core []
  | append {command : Bytes} {sends : List Action} (hl : core.state = .leader)
      (hs : (core.push command).appendEntries = some sends) :
    Outcome core rnd (.propose command) { core.push command with ticksSinceLastHeartbeat := 0 }
      (.persistLogEntries (core.lastLogIndex + 1) [⟨core.currentTerm, command⟩] :: sends)
  | barrier : Outcome core rnd .readBarrier core.requestReadBarrier.1 []
  | compact {data : Bytes} {metadata : SnapshotMetadata} {core' : RaftCore}
      (hp : core.prepareSnapshot = some metadata)
      (hc : core.completeSnapshot metadata = some core') :
    Outcome core rnd (.snapshot data) core' []
  | denyVote {req : RequestVoteRPC} :
    Outcome core rnd (.message (.requestVote req)) (core.termChecked req.term rnd)
      (core.termActions req.term ++ [.sendMessage req.candidateId (.requestVoteResponse
        ⟨core.id, (core.termChecked req.term rnd).currentTerm, false⟩)])
  | grantVote {req : RequestVoteRPC} (ht : core.currentTerm ≤ req.term)
      (hv : (core.termChecked req.term rnd).votedFor = none ∨
        (core.termChecked req.term rnd).votedFor = some req.candidateId)
      (hp : core.tip ≤ ⟨req.lastLogIndex, req.lastLogTerm⟩) :
    Outcome core rnd (.message (.requestVote req))
      ((core.termChecked req.term rnd).grant req.candidateId rnd)
      (core.termActions req.term ++ [.persistMetadata req.term (some req.candidateId),
        .sendMessage req.candidateId (.requestVoteResponse ⟨core.id, req.term, true⟩)])
  | ignoreVote {resp : RequestVoteResponseRPC} :
    Outcome core rnd (.message (.requestVoteResponse resp)) (core.termChecked resp.term rnd)
      (core.termActions resp.term)
  | collectVote {resp : RequestVoteResponseRPC} (ht : resp.term ≤ core.currentTerm)
      (hc : core.state = .candidate) (hg : resp.voteGranted = true) :
    Outcome core rnd (.message (.requestVoteResponse resp)) (core.collect resp.id) []
  | win {resp : RequestVoteResponseRPC} {sends : List Action} (ht : resp.term ≤ core.currentTerm)
      (hc : core.state = .candidate) (hg : resp.voteGranted = true)
      (hq : (core.peers.length + 1) / 2 < (core.collect resp.id).votesReceived.card)
      (hs : ((core.collect resp.id).lead rnd).appendEntries = some sends) :
    Outcome core rnd (.message (.requestVoteResponse resp)) ((core.collect resp.id).lead rnd)
      (.persistLogEntries (core.lastLogIndex + 1) [⟨core.currentTerm, []⟩] :: sends)
  | rejectAppend {req : AppendEntriesRPC}
      (h : (core.termChecked req.term rnd).state = .leader ∨ req.term < core.currentTerm) :
    Outcome core rnd (.message (.appendEntries req)) (core.termChecked req.term rnd)
      (core.termActions req.term ++ [.sendMessage req.leaderId
        (.appendEntriesResponse (core.termChecked req.term rnd).rejection)])
  | conflictAppend {req : AppendEntriesRPC} (ht : core.currentTerm ≤ req.term)
      (hl : (core.termChecked req.term rnd).state ≠ .leader)
      (hv : core.appendEntriesValid req = false) :
    Outcome core rnd (.message (.appendEntries req))
      ((core.termChecked req.term rnd).follow req.leaderId rnd)
      (core.termActions req.term ++ [.sendMessage req.leaderId (.appendEntriesResponse
        (((core.termChecked req.term rnd).follow req.leaderId rnd).conflictResponse req
          (core.termChecked req.term rnd).rejection))])
  | acceptAppend {req : AppendEntriesRPC} {core' : RaftCore} {accepted : List Action}
      (ht : core.currentTerm ≤ req.term) (hl : (core.termChecked req.term rnd).state ≠ .leader)
      (hv : core.appendEntriesValid req = true)
      (ha : ((core.termChecked req.term rnd).follow req.leaderId rnd).acceptEntries req =
        some (core', accepted)) :
    Outcome core rnd (.message (.appendEntries req)) core' (core.termActions req.term ++ accepted)
  | success {resp : AppendEntriesResponseRPC} {core' : RaftCore} {recorded : List Action}
      (hs : resp.success = true)
      (hr : (core.termChecked resp.term rnd).recordSuccess resp = some (core', recorded)) :
    Outcome core rnd (.message (.appendEntriesResponse resp)) core'
      (core.termActions resp.term ++ recorded)
  | failure {resp : AppendEntriesResponseRPC} {append : Action} (hs : resp.success = false)
      (hb : ((core.termChecked resp.term rnd).backOff resp).buildAppendEntriesForPeer resp.id =
        some append) :
    Outcome core rnd (.message (.appendEntriesResponse resp))
      ((core.termChecked resp.term rnd).backOff resp) (core.termActions resp.term ++ [append])
  | staleSnapshot {req : InstallSnapshotRPC} (ht : req.term < core.currentTerm) :
    Outcome core rnd (.message (.installSnapshot req)) core
      [core.snapshotReply req.leaderId core.lastIncludedIndex]
  | oldSnapshot {req : InstallSnapshotRPC} (ht : core.currentTerm ≤ req.term)
      (hi : req.lastIncludedIndex ≤ core.lastIncludedIndex) :
    Outcome core rnd (.message (.installSnapshot req))
      ((core.termChecked req.term rnd).follow req.leaderId rnd)
      (core.termActions req.term ++ [(core.termChecked req.term rnd).snapshotReply req.leaderId
        core.lastIncludedIndex])
  | haveSnapshot {req : InstallSnapshotRPC} (ht : core.currentTerm ≤ req.term)
      (hi : core.lastIncludedIndex < req.lastIncludedIndex)
      (hh : core.logTermAt req.lastIncludedIndex = some req.lastIncludedTerm) :
    Outcome core rnd (.message (.installSnapshot req))
      ((core.termChecked req.term rnd).follow req.leaderId rnd)
      (core.termActions req.term ++ [(core.termChecked req.term rnd).snapshotReply req.leaderId
        req.lastIncludedIndex])
  | installSnapshot {req : InstallSnapshotRPC} (ht : core.currentTerm ≤ req.term)
      (hi : core.lastIncludedIndex < req.lastIncludedIndex)
      (hh : core.logTermAt req.lastIncludedIndex ≠ some req.lastIncludedTerm) :
    Outcome core rnd (.message (.installSnapshot req))
      (((core.termChecked req.term rnd).follow req.leaderId rnd).install req)
      (core.termActions req.term ++
        [.installSnapshot req.lastIncludedIndex req.lastIncludedTerm req.data,
          (core.termChecked req.term rnd).snapshotReply req.leaderId req.lastIncludedIndex])
  | ignoreSnapshotResponse {resp : InstallSnapshotResponseRPC}
      (hl : (core.termChecked resp.term rnd).state ≠ .leader) :
    Outcome core rnd (.message (.installSnapshotResponse resp)) (core.termChecked resp.term rnd)
      (core.termActions resp.term)
  | recordSnapshotResponse {resp : InstallSnapshotResponseRPC} (ht : resp.term ≤ core.currentTerm)
      (hl : core.state = .leader) :
    Outcome core rnd (.message (.installSnapshotResponse resp))
      (core.recordMatch resp.id resp.lastIncludedIndex) []

/-! ## Completeness of the outcomes -/

theorem termActions_of_le {t : ℕ} (h : t ≤ core.currentTerm) : core.termActions t = [] := by
  rw [termActions, if_neg (Nat.not_lt.mpr h)]

/-- A node that is not a follower after the term check has not changed in it. -/
theorem le_of_termChecked_state {t : ℕ} (h : (core.termChecked t rnd).state ≠ .follower) :
    t ≤ core.currentTerm := by
  by_contra hlt
  rw [termChecked_of_lt (Nat.not_le.mp hlt)] at h
  exact h rfl

theorem Outcome.congr {r : Request} {c c' : RaftCore} {a a' : List Action}
    (h : core.Outcome rnd r c a) (hc : c' = c) (ha : a' = a) : core.Outcome rnd r c' a' := by
  subst hc ha
  exact h

/-- An election timeout : stand for election, or wait. -/
theorem electionTimeout_eq (core : RaftCore) (rnd : ℕ) : core.electionTimeout rnd = some
    (if core.electionTimeoutTicks ≤ core.ticksSinceLastHeartbeat then
      (core.stand rnd, .persistMetadata (core.currentTerm + 1) (some core.id) ::
        core.peers.map fun peer => .sendMessage peer (.requestVote (core.stand rnd).voteRequest))
    else (core, [])) := by
  unfold electionTimeout
  split_ifs
  · have hv : (core.stand rnd).voteRequest =
        ⟨core.currentTerm + 1, core.id, (core.stand rnd).lastLogIndex, core.tip.term⟩ := by
      rw [voteRequest, tip_index]
      rfl
    simp only [lastLogTerm_eq, bind, Option.bind_some, hv]
    rfl
  · rfl

theorem tick_outcome (h : core.tick rnd = some (core', actions)) :
    core.Outcome rnd .tick core' actions := by
  have hel : ∀ {c : RaftCore}, core.state ≠ .leader →
      c = { core with ticksSinceLastHeartbeat := core.ticksSinceLastHeartbeat + 1 } →
      c.electionTimeout rnd = some (core', actions) → core.Outcome rnd .tick core' actions := by
    rintro c hl rfl h
    rw [electionTimeout_eq] at h
    split_ifs at h
    · obtain ⟨rfl, rfl⟩ := Prod.mk.inj (Option.some.inj h)
      exact .stand hl
    · obtain ⟨rfl, rfl⟩ := Prod.mk.inj (Option.some.inj h)
      exact .wait
  simp only [tick] at h
  split at h
  next hl =>
    unfold heartbeat at h
    split_ifs at h
    · simp only [bind, Option.bind_eq_some_iff, Option.some.injEq, Prod.mk.injEq] at h
      obtain ⟨sends, hs, rfl, rfl⟩ := h
      refine .heartbeat hl ?_
      rw [← hs]
      exact congrArg (List.mapM · core.peers) (funext fun peer =>
        buildAppendEntriesForPeer_congr rfl rfl rfl rfl rfl rfl)
    · obtain ⟨rfl, rfl⟩ := Prod.mk.inj (Option.some.inj h)
      exact .wait
  next hl => exact hel (by simp [show core.state = .candidate from hl]) rfl h
  next hl => exact hel (by simp [show core.state = .follower from hl]) rfl h

/-- A proposal of a leader : append, persist and send. -/
theorem propose_eq (core : RaftCore) (command : Bytes) : core.propose command =
    if core.state ≠ .leader then some (core, none)
    else ({ core.push command with ticksSinceLastHeartbeat := 0 } : RaftCore).appendEntries.map
      fun sends => ({ core.push command with ticksSinceLastHeartbeat := 0 },
        some
          (.persistLogEntries (core.lastLogIndex + 1) [⟨core.currentTerm, command⟩] :: sends)) := by
  unfold propose
  split_ifs
  · rfl
  · have hlast : ({ core with
        log := core.log ++ [⟨core.currentTerm, command⟩]
        ticksSinceLastHeartbeat := 0 } : RaftCore).lastLogIndex = core.lastLogIndex + 1 := by
      simp [lastLogIndex, Nat.add_assoc]
    dsimp only
    rw [logSlice_last rfl, hlast, Option.map_eq_bind]
    rfl

theorem propose_outcome {command : Bytes} {answer : Option (List Action)}
    (h : core.propose command = some (core', answer)) :
    core.Outcome rnd (.propose command) core' (answer.getD []) := by
  rw [propose_eq] at h
  split_ifs at h with hl
  · obtain ⟨rfl, rfl⟩ := Prod.mk.inj (Option.some.inj h)
    exact .refuse hl
  · rw [ne_eq, not_not] at hl
    obtain ⟨sends, hs, hr⟩ := Option.map_eq_some_iff.mp h
    obtain ⟨rfl, rfl⟩ := Prod.mk.inj hr
    exact .append hl hs

theorem handleRequestVote_outcome {req : RequestVoteRPC}
    (h : core.handleRequestVote req rnd = some (core', actions)) :
    core.Outcome rnd (.message (.requestVote req)) core' actions := by
  simp only [handleRequestVote, checkMsgTerm_eq, lastLogTerm_eq, pure, bind,
    Option.bind_some] at h
  have hdeny : core.Outcome rnd (.message (.requestVote req)) _ _ := .denyVote
  rw [← termChecked_id core req.term rnd] at hdeny
  split_ifs at h with h1 h2
  · obtain ⟨rfl, rfl⟩ := Prod.mk.inj (Option.some.inj h)
    exact hdeny
  · obtain ⟨rfl, rfl⟩ := Prod.mk.inj (Option.some.inj h)
    have ht : core.currentTerm ≤ req.term := by
      rw [termChecked_currentTerm] at h1
      omega
    have hcur : (core.termChecked req.term rnd).currentTerm = req.term := by
      rw [termChecked_currentTerm, max_eq_right ht]
    simp only [Bool.and_eq_true, decide_eq_true_eq] at h2
    obtain ⟨hv, hp⟩ := h2
    have hv' : (core.termChecked req.term rnd).votedFor = none ∨
        (core.termChecked req.term rnd).votedFor = some req.candidateId := by
      cases hvf : (core.termChecked req.term rnd).votedFor with
      | none => exact Or.inl rfl
      | some id =>
        rw [hvf] at hv
        exact Or.inr (congrArg some (of_decide_eq_true hv))
    have hp' : core.tip ≤ ⟨req.lastLogIndex, req.lastLogTerm⟩ := by
      rw [termChecked_tip, ← tip_index, termChecked_tip] at hp
      rw [Point.le_def]
      exact hp.imp_right fun ⟨h1, h2⟩ => ⟨h1.symm, h2⟩
    exact (Outcome.grantVote ht hv' hp').congr rfl (by simp [resetElectionTimeout, ht])
  · obtain ⟨rfl, rfl⟩ := Prod.mk.inj (Option.some.inj h)
    exact hdeny

/-- The branches of the handler, from the core after the term check. -/
theorem handleRequestVoteResponse_eq (core : RaftCore) (resp : RequestVoteResponseRPC) (rnd : ℕ) :
    core.handleRequestVoteResponse resp rnd =
      let checked := core.termChecked resp.term rnd
      let elected := (checked.collect resp.id).lead rnd
      if checked.state ≠ .candidate then some (checked, core.termActions resp.term)
      else if resp.voteGranted then
        if (checked.peers.length + 1) / 2 < (checked.collect resp.id).votesReceived.card then
          elected.appendEntries.map fun sends => (elected, core.termActions resp.term ++
            .persistLogEntries (checked.lastLogIndex + 1) [⟨checked.currentTerm, []⟩] :: sends)
        else some (checked.collect resp.id, core.termActions resp.term)
      else some (checked, core.termActions resp.term) := by
  simp only [handleRequestVoteResponse, checkMsgTerm_eq, pure, bind]
  generalize core.termChecked resp.term rnd = checked
  rw [show (checked.collect resp.id).votesReceived = insert resp.id checked.votesReceived from rfl]
  split_ifs
  · rfl
  · simp only [initializeLeaderState, bind]
    rw [logSlice_last rfl, Option.map_eq_bind]
    simp [lead, collect, push, lastLogIndex, resetElectionTimeout, Nat.add_assoc]
  · rfl
  · rfl

theorem handleRequestVoteResponse_outcome {resp : RequestVoteResponseRPC}
    (h : core.handleRequestVoteResponse resp rnd = some (core', actions)) :
    core.Outcome rnd (.message (.requestVoteResponse resp)) core' actions := by
  rw [handleRequestVoteResponse_eq] at h
  dsimp only at h
  -- only a candidate of the current term counts the vote
  have hcandidate : ¬(core.termChecked resp.term rnd).state ≠ .candidate →
      resp.term ≤ core.currentTerm := by
    intro hc
    rw [ne_eq, not_not] at hc
    exact le_of_termChecked_state (by rw [hc]; simp)
  split_ifs at h with h1 h2 h3
  · obtain ⟨rfl, rfl⟩ := Prod.mk.inj (Option.some.inj h)
    exact .ignoreVote
  · have ht := hcandidate h1
    rw [termChecked_of_le ht] at h h1 h3
    rw [termActions_of_le ht] at h
    obtain ⟨sends, hs, hr⟩ := Option.map_eq_some_iff.mp h
    obtain ⟨rfl, rfl⟩ := Prod.mk.inj hr
    exact .win ht (not_not.mp h1) h2 h3 hs
  · have ht := hcandidate h1
    rw [termChecked_of_le ht] at h h1
    rw [termActions_of_le ht] at h
    obtain ⟨rfl, rfl⟩ := Prod.mk.inj (Option.some.inj h)
    exact .collectVote ht (not_not.mp h1) h2
  · obtain ⟨rfl, rfl⟩ := Prod.mk.inj (Option.some.inj h)
    exact .ignoreVote

/-- Stepping down in the current term and recognizing its leader is `follow`. -/
theorem recognize_stepDown {t : ℕ} (h : t = core.currentTerm) (leaderId : NodeId) :
    (core.stepDown t).recognize leaderId rnd = core.follow leaderId rnd := by
  unfold stepDown follow
  by_cases hc : core.state = .candidate
  · rw [if_pos ⟨h, hc⟩, if_pos hc]
    rfl
  · rw [if_neg fun h => hc h.2, if_neg hc]
    rfl

theorem logTermAt_congr (hbase : core'.base = core.base) (hlog : core'.log = core.log) (i : ℕ) :
    core'.logTermAt i = core.logTermAt i := by
  obtain ⟨hi, ht⟩ := Point.mk.inj hbase
  simp only [logTermAt, logEntryAt, hi, ht, hlog]

theorem lastLogIndex_congr (hbase : core'.base = core.base) (hlog : core'.log = core.log) :
    core'.lastLogIndex = core.lastLogIndex := by
  rw [lastLogIndex, lastLogIndex, (Point.mk.inj hbase).1, hlog]

theorem appendEntriesValid_congr (hbase : core'.base = core.base) (hlog : core'.log = core.log)
    (req : AppendEntriesRPC) : core'.appendEntriesValid req = core.appendEntriesValid req := by
  rw [Bool.eq_iff_iff]
  simp only [appendEntriesValid, decide_eq_true_eq, logTermAt_congr hbase hlog,
    lastLogIndex_congr hbase hlog]

/-- The branches of the handler, from the core after the term check. -/
theorem handleAppendEntries_eq (core : RaftCore) (req : AppendEntriesRPC) (rnd : ℕ) :
    core.handleAppendEntries req rnd =
      if (core.termChecked req.term rnd).state = .leader ∨ req.term < core.currentTerm then
        some (core.termChecked req.term rnd, core.termActions req.term ++
          [.sendMessage req.leaderId
            (.appendEntriesResponse (core.termChecked req.term rnd).rejection)])
      else if core.appendEntriesValid req then
        (((core.termChecked req.term rnd).follow req.leaderId rnd).acceptEntries req).map
          fun r => (r.1, core.termActions req.term ++ r.2)
      else
        some ((core.termChecked req.term rnd).follow req.leaderId rnd, core.termActions req.term ++
          [.sendMessage req.leaderId (.appendEntriesResponse
            (((core.termChecked req.term rnd).follow req.leaderId rnd).conflictResponse req
              (core.termChecked req.term rnd).rejection))]) := by
  simp only [handleAppendEntries, checkMsgTerm_eq, pure, bind]
  have hcur := termChecked_currentTerm core req.term rnd
  have hbase := termChecked_base core req.term rnd
  have hlog := termChecked_log core req.term rnd
  generalize core.termChecked req.term rnd = c at hcur hbase hlog
  by_cases hrej : c.state = .leader ∨ req.term < core.currentTerm
  · -- rejected : no step down, and the core is as after the term check
    have hsd : c.stepDown req.term = c := by
      refine if_neg fun h => ?_
      rcases hrej with hl | hlt
      · simp [hl] at h
      · omega
    have hcond : c.state ≠ .follower ∨ req.term < c.currentTerm :=
      hrej.imp (fun hl => by simp [hl]) fun hlt => by omega
    rw [hsd, if_pos hcond, if_pos hrej]
    rfl
  · rw [if_neg hrej]
    rw [not_or, Nat.not_lt] at hrej
    have ht : req.term = c.currentTerm := by omega
    have hcond : ¬((c.stepDown req.term).state ≠ .follower ∨
        req.term < (c.stepDown req.term).currentTerm) := by
      unfold stepDown
      cases hs : c.state <;> simp [hs, ht] at hrej ⊢
    have hvalid : (c.follow req.leaderId rnd).appendEntriesValid req =
        core.appendEntriesValid req := appendEntriesValid_congr hbase hlog req
    rw [if_neg hcond]
    simp only [recognize_stepDown ht, hvalid]
    split_ifs
    · rw [Option.map_eq_bind]
      rfl
    · rfl

theorem handleAppendEntries_outcome {req : AppendEntriesRPC}
    (h : core.handleAppendEntries req rnd = some (core', actions)) :
    core.Outcome rnd (.message (.appendEntries req)) core' actions := by
  rw [handleAppendEntries_eq] at h
  split_ifs at h with hrej hv
  · obtain ⟨rfl, rfl⟩ := Prod.mk.inj (Option.some.inj h)
    exact .rejectAppend hrej
  · rw [not_or, Nat.not_lt] at hrej
    obtain ⟨⟨c', acc⟩, ha, hr⟩ := Option.map_eq_some_iff.mp h
    obtain ⟨rfl, rfl⟩ := Prod.mk.inj hr
    exact .acceptAppend hrej.2 hrej.1 hv ha
  · rw [not_or, Nat.not_lt] at hrej
    obtain ⟨rfl, rfl⟩ := Prod.mk.inj (Option.some.inj h)
    exact .conflictAppend hrej.2 hrej.1 (by simpa using hv)

theorem handleAppendEntriesResponse_outcome {resp : AppendEntriesResponseRPC}
    (h : core.handleAppendEntriesResponse resp rnd = some (core', actions)) :
    core.Outcome rnd (.message (.appendEntriesResponse resp)) core' actions := by
  simp only [handleAppendEntriesResponse, checkMsgTerm_eq, pure, bind] at h
  split_ifs at h with hs
  · simp only [Option.bind_eq_some_iff, Option.some.injEq, Prod.mk.injEq] at h
    obtain ⟨⟨c', acc⟩, hr, rfl, rfl⟩ := h
    exact .success hs hr
  · simp only [Option.bind_eq_some_iff, Option.some.injEq, Prod.mk.injEq] at h
    obtain ⟨a, hb, rfl, rfl⟩ := h
    exact .failure (by simpa using hs) hb

/-- The branches of the handler, from the core after the term check. -/
theorem handleInstallSnapshot_eq {req : InstallSnapshotRPC} (h : core.currentTerm ≤ req.term) :
    core.handleInstallSnapshot req rnd =
      let follower := (core.termChecked req.term rnd).follow req.leaderId rnd
      if req.lastIncludedIndex ≤ core.lastIncludedIndex then
        (follower, core.termActions req.term ++
          [follower.snapshotReply req.leaderId core.lastIncludedIndex])
      else if core.logTermAt req.lastIncludedIndex = some req.lastIncludedTerm then
        (follower, core.termActions req.term ++
          [follower.snapshotReply req.leaderId req.lastIncludedIndex])
      else
        (follower.install req, core.termActions req.term ++
          [.installSnapshot req.lastIncludedIndex req.lastIncludedTerm req.data,
            follower.snapshotReply req.leaderId req.lastIncludedIndex]) := by
  simp only [handleInstallSnapshot, checkMsgTerm_eq]
  have hb := termChecked_base core req.term rnd
  have hl := termChecked_log core req.term rnd
  have ht : req.term = (core.termChecked req.term rnd).currentTerm := by
    rw [termChecked_currentTerm]
    omega
  have hterm : ∀ i, ((core.termChecked req.term rnd).follow req.leaderId rnd).logTermAt i =
      core.logTermAt i := logTermAt_congr hb hl
  have hi : ((core.termChecked req.term rnd).follow req.leaderId rnd).lastIncludedIndex =
      core.lastIncludedIndex := congrArg Point.index hb
  rw [if_neg (by omega)]
  simp only [recognize_stepDown ht, hterm, hi]
  rfl

theorem handleInstallSnapshot_outcome {req : InstallSnapshotRPC} :
    core.Outcome rnd (.message (.installSnapshot req)) (core.handleInstallSnapshot req rnd).1
      (core.handleInstallSnapshot req rnd).2 := by
  rcases Nat.lt_or_ge req.term core.currentTerm with hst | hle
  · simp only [handleInstallSnapshot, checkMsgTerm_eq]
    rw [termChecked_of_le hst.le, termActions_of_le hst.le, if_pos hst]
    exact .staleSnapshot hst
  · rw [handleInstallSnapshot_eq hle]
    dsimp only
    split_ifs with h1 h2
    · exact .oldSnapshot hle h1
    · exact .haveSnapshot hle (by omega) h2
    · exact .installSnapshot hle (by omega) h2

theorem handleInstallSnapshotResponse_outcome {resp : InstallSnapshotResponseRPC} :
    core.Outcome rnd (.message (.installSnapshotResponse resp))
      (core.handleInstallSnapshotResponse resp rnd).1
      (core.handleInstallSnapshotResponse resp rnd).2 := by
  simp only [handleInstallSnapshotResponse, checkMsgTerm_eq]
  split_ifs with hl
  · exact .ignoreSnapshotResponse hl
  · rw [ne_eq, not_not] at hl
    have ht : resp.term ≤ core.currentTerm := le_of_termChecked_state (by rw [hl]; simp)
    rw [termChecked_of_le ht] at hl ⊢
    rw [termActions_of_le ht]
    exact .recordSnapshotResponse ht hl

/-- Every call that returns has one of the outcomes. -/
theorem call_outcome {request : Request} (h : core.call rnd request = some (core', actions)) :
    core.Outcome rnd request core' actions := by
  cases request with
  | tick => exact tick_outcome h
  | propose command =>
    simp only [call, bind, Option.bind_eq_some_iff, Option.some.injEq, Prod.mk.injEq] at h
    obtain ⟨⟨c, answer⟩, hp, rfl, rfl⟩ := h
    exact propose_outcome hp
  | readBarrier =>
    obtain ⟨rfl, rfl⟩ := Prod.mk.inj (Option.some.inj h)
    exact .barrier
  | snapshot data =>
    simp only [call, bind, Option.bind_eq_some_iff, Option.some.injEq, Prod.mk.injEq] at h
    obtain ⟨metadata, hp, c, hc, rfl, rfl⟩ := h
    exact .compact hp hc
  | message msg =>
    cases msg with
    | requestVote req => exact handleRequestVote_outcome h
    | requestVoteResponse resp => exact handleRequestVoteResponse_outcome h
    | appendEntries req => exact handleAppendEntries_outcome h
    | appendEntriesResponse resp => exact handleAppendEntriesResponse_outcome h
    | installSnapshot req =>
      obtain ⟨rfl, rfl⟩ := Prod.mk.inj (Option.some.inj h)
      exact handleInstallSnapshot_outcome
    | installSnapshotResponse resp =>
      obtain ⟨rfl, rfl⟩ := Prod.mk.inj (Option.some.inj h)
      exact handleInstallSnapshotResponse_outcome

end RaftCore

/-! ## The outcomes of a step -/

namespace Cluster

variable {cfg : Config} {c c' : Cluster} {i : Input}

/-- A crash in whose wake `n` restarts, after the term check of a message of term `t` if
that is higher than the node's. -/
def crashed (cfg : Config) (c : Cluster) (n : NodeId) (t rnd : ℕ) : Cluster :=
  c.setNode n ⟨cfg.restart n ((c.disk n).replay ((c.core n).termActions t)) rnd,
    (c.disk n).replay ((c.core n).termActions t)⟩

/-- Who is no follower after a crash is not the node that crashed. -/
theorem core_crashed_of_active {n m : NodeId} {t rnd : ℕ}
    (h : ((c.crashed cfg n t rnd).core m).state ≠ .follower) :
    (c.crashed cfg n t rnd).core m = c.core m := by
  refine core_setNode_of_ne _ fun hm => h ?_
  subst hm
  simp [crashed]

/-- A step is a call with one of its outcomes, or a crash. -/
theorem step_cases (h : cfg.machine.step c i = some c') :
    (∃ n request rnd after actions, i = .call n request rnd ∧ n ∈ cfg.nodes ∧
      c.Enabled n request ∧ (c.core n).Outcome rnd request after actions ∧
      c' = c.record n request after actions) ∨
    ∃ n t rnd, n ∈ cfg.nodes ∧ c' = c.crashed cfg n t rnd ∧ i.Crashes n ∧
      ∀ m request rnd, i ≠ .call m request rnd := by
  cases i with
  | call n request rnd =>
    simp only [Config.machine, step] at h
    split_ifs at h with hn
    simp only [bind, Option.bind_eq_some_iff, Option.some.injEq] at h
    obtain ⟨⟨after, actions⟩, hc, rfl⟩ := h
    exact Or.inl ⟨n, request, rnd, after, actions, rfl, hn.1, hn.2, RaftCore.call_outcome hc, rfl⟩
  | crash n rnd =>
    simp only [Config.machine, step] at h
    split_ifs at h with hn
    obtain rfl := Option.some.inj h
    refine Or.inr ⟨n, 0, rnd, hn, ?_, rfl, by simp⟩
    rw [crashed, RaftCore.termActions_of_le (Nat.zero_le _)]
    rfl
  | crashAfterTermCheck n msg rnd =>
    simp only [Config.machine, step] at h
    split_ifs at h with hn
    obtain rfl := Option.some.inj h
    refine Or.inr ⟨n, msg.term, rnd, hn.1, ?_, rfl, by simp⟩
    rw [crashed, RaftCore.checkMsgTerm_eq]

/-- Every recorded call has one of the outcomes. -/
theorem trace_outcome {ok : Cluster → Input → Prop} (h : cfg.machine.Run ok cfg.init c) :
    ∀ k ∈ c.trace, ∃ rnd, k.before.Outcome rnd k.request k.after k.actions := by
  refine h.invariant (P := fun c => ∀ k ∈ c.trace, ∃ rnd, k.before.Outcome rnd k.request k.after
    k.actions) (by simp [Config.init]) ?_
  intro c i c' hi _ hs
  rcases step_cases hs with ⟨n, request, rnd, after, actions, rfl, hn, he, ho, rfl⟩ |
    ⟨n, t, rnd, hn, rfl, -⟩
  · intro k hk
    rcases List.mem_cons.mp hk with rfl | hk
    · exact ⟨rnd, ho⟩
    · exact hi k hk
  · exact hi

end Cluster

end FerrisFerry
