import FerrisFerry.Outcome

/-!
# What a call does to the vote

`RaftCore.VoteMove` says what a call does to the term, the vote and the role of a node, and
`RaftCore.Outcome.voteMove` that every call is one of its moves. Terms do not go back and a
vote once given is kept for its term (`RaftCore.VoteMove.vote_kept`), also on disk
(`Mirror.VoteOf.afterCall`).
-/

namespace FerrisFerry

/-- The actions that neither ask for a vote, nor grant one, nor persist a term and vote. -/
def Action.Quiet : Action → Prop
  | .sendMessage _ (.requestVote _) => False
  | .sendMessage _ (.requestVoteResponse resp) => resp.voteGranted = false
  | .persistMetadata _ _ => False
  | _ => True

theorem Action.Leading.quiet {a : Action} (h : a.Leading) : a.Quiet := by
  unfold Action.Leading at h
  split at h
  · trivial
  · trivial
  · trivial
  · exact h.elim

namespace RaftCore

variable {core core' : RaftCore} {rnd : ℕ} {request : Request} {actions : List Action}

theorem acceptEntries_quiet {req : AppendEntriesRPC}
    (h : core.acceptEntries req = some (core', actions)) {a : Action} (ha : a ∈ actions) :
    a.Quiet := by
  rcases mem_acceptEntries h ha with ⟨start, entries, rfl⟩ | ⟨i, command, rfl⟩ | rfl <;> trivial

theorem recordSuccess_quiet {resp : AppendEntriesResponseRPC}
    (h : core.recordSuccess resp = some (core', actions)) {a : Action} (ha : a ∈ actions) :
    a.Quiet := by
  rcases mem_recordSuccess h ha with ⟨i, command, rfl⟩ | ⟨barrier, rfl⟩ <;> trivial

/-! ## What a call does to the vote -/

/-- What a call does to the term, the vote and the role. -/
inductive VoteMove (core : RaftCore) : Request → RaftCore → List Action → Prop
  /-- The term and the vote stay, and so does the role unless the node steps down. -/
  | keep {request : Request} {core' : RaftCore} {actions : List Action}
      (ht : core'.currentTerm = core.currentTerm) (hv : core'.votedFor = core.votedFor)
      (hs : core'.state = .follower ∨
        core'.state = core.state ∧ core'.votesReceived = core.votesReceived)
      (hp : core'.state = .candidate → core'.tip = core.tip)
      (hq : ∀ a ∈ actions, a.Quiet) : VoteMove core request core' actions
  /-- A higher term : step down and forget the vote. -/
  | bump {request : Request} {core' : RaftCore} {actions : List Action}
      (ht : core.currentTerm < core'.currentTerm) (hv : core'.votedFor = none)
      (hs : core'.state = .follower)
      (hq : ∀ a ∈ actions, a.Quiet) :
    VoteMove core request core' (.persistMetadata core'.currentTerm none :: actions)
  | stand (hl : core.state ≠ .leader) (rnd : ℕ) :
    VoteMove core .tick (core.stand rnd)
      (.persistMetadata (core.currentTerm + 1) (some core.id) ::
        core.peers.map fun peer => .sendMessage peer (.requestVote (core.stand rnd).voteRequest))
  | grant {req : RequestVoteRPC} {core' : RaftCore} (ht : core.currentTerm ≤ req.term)
      (hv : core.currentTerm < req.term ∨ core.votedFor = none ∨
        core.votedFor = some req.candidateId)
      (hp : core.tip ≤ ⟨req.lastLogIndex, req.lastLogTerm⟩)
      (ht' : core'.currentTerm = req.term) (hv' : core'.votedFor = some req.candidateId)
      (hs' : core'.state = .follower ∨ core.currentTerm = req.term ∧ core'.state = core.state ∧
        core'.votesReceived = core.votesReceived)
      (hp' : core'.tip = core.tip) :
    VoteMove core (.message (.requestVote req)) core'
      (core.termActions req.term ++ [.persistMetadata req.term (some req.candidateId),
        .sendMessage req.candidateId (.requestVoteResponse ⟨core.id, req.term, true⟩)])
  | collect {resp : RequestVoteResponseRPC} (ht : resp.term ≤ core.currentTerm)
      (hc : core.state = .candidate) (hg : resp.voteGranted = true) :
    VoteMove core (.message (.requestVoteResponse resp)) (core.collect resp.id) []
  | win {resp : RequestVoteResponseRPC} {sends : List Action} (ht : resp.term ≤ core.currentTerm)
      (hc : core.state = .candidate) (hg : resp.voteGranted = true)
      (hq : (core.peers.length + 1) / 2 < (core.collect resp.id).votesReceived.card)
      (hn : ∀ a ∈ sends, a.Quiet) (rnd : ℕ) :
    VoteMove core (.message (.requestVoteResponse resp)) ((core.collect resp.id).lead rnd)
      (.persistLogEntries (core.lastLogIndex + 1) [⟨core.currentTerm, []⟩] :: sends)

/-- A handler that changes no vote after the term check. -/
theorem VoteMove.of_termChecked {t : ℕ}
    (ht : core'.currentTerm = (core.termChecked t rnd).currentTerm)
    (hv : core'.votedFor = (core.termChecked t rnd).votedFor)
    (hs : core'.state = .follower ∨ core'.state = (core.termChecked t rnd).state ∧
      core'.votesReceived = (core.termChecked t rnd).votesReceived)
    (hp : core'.state = .candidate → core'.tip = core.tip)
    (hq : ∀ a ∈ actions, a.Quiet) :
    core.VoteMove request core' (core.termActions t ++ actions) := by
  rcases Nat.lt_or_ge core.currentTerm t with h | h
  · rw [termChecked_of_lt h] at ht hv hs
    have ht' : core'.currentTerm = t := ht
    have hs' : core'.state = .follower := hs.elim (fun h => h) And.left
    rw [termActions, if_pos h, ← ht', List.singleton_append]
    exact .bump (ht' ▸ h) hv hs' hq
  · rw [termChecked_of_le h] at ht hv hs
    rw [termActions_of_le h]
    exact .keep ht hv hs hp hq

theorem VoteMove.of_termChecked_nil {t : ℕ}
    (ht : core'.currentTerm = (core.termChecked t rnd).currentTerm)
    (hv : core'.votedFor = (core.termChecked t rnd).votedFor)
    (hs : core'.state = .follower ∨ core'.state = (core.termChecked t rnd).state ∧
      core'.votesReceived = (core.termChecked t rnd).votesReceived)
    (hp : core'.state = .candidate → core'.tip = core.tip) :
    core.VoteMove request core' (core.termActions t) := by
  have h : core.VoteMove request core' (core.termActions t ++ []) :=
    .of_termChecked ht hv hs hp (by simp)
  rwa [List.append_nil] at h

/-- A node that follows the leader of its term is no candidate. -/
theorem follow_state (core : RaftCore) (leaderId : NodeId) (rnd : ℕ) :
    (core.follow leaderId rnd).state = .follower ∨
      (core.follow leaderId rnd).state = core.state ∧ core.state ≠ .candidate := by
  unfold follow
  by_cases h : core.state = .candidate
  · exact Or.inl (if_pos h)
  · exact Or.inr ⟨if_neg h, h⟩

theorem VoteMove.of_follow {t : ℕ} {leaderId : NodeId}
    (ht : core'.currentTerm = (core.termChecked t rnd).currentTerm)
    (hv : core'.votedFor = (core.termChecked t rnd).votedFor)
    (hs : core'.state = ((core.termChecked t rnd).follow leaderId rnd).state)
    (hr : core'.votesReceived = (core.termChecked t rnd).votesReceived)
    (hq : ∀ a ∈ actions, a.Quiet) :
    core.VoteMove request core' (core.termActions t ++ actions) := by
  rcases follow_state (core.termChecked t rnd) leaderId rnd with h | ⟨h, hc⟩
  · rw [h] at hs
    exact .of_termChecked ht hv (Or.inl hs) (by simp [hs]) hq
  · rw [h] at hs
    exact .of_termChecked ht hv (Or.inr ⟨hs, hr⟩) (fun h => absurd (hs ▸ h) hc) hq

/-- Every outcome moves the vote in one of these ways. -/
theorem Outcome.voteMove (h : core.Outcome rnd request core' actions) :
    core.VoteMove request core' actions := by
  cases h with
  | wait => exact .keep rfl rfl (Or.inr ⟨rfl, rfl⟩) (fun _ => rfl) (by simp)
  | heartbeat hl hs =>
    exact .keep rfl rfl (Or.inr ⟨rfl, rfl⟩) (fun _ => rfl)
      fun a ha => (leading_of_appendEntries hs ha).quiet
  | stand hl => exact .stand hl rnd
  | refuse hl => exact .keep rfl rfl (Or.inr ⟨rfl, rfl⟩) (fun _ => rfl) (by simp)
  | append hl hs =>
    refine .keep rfl rfl (Or.inr ⟨rfl, rfl⟩) (fun h => ?_) fun a ha => ?_
    · rw [show core.state = .candidate from h] at hl
      exact absurd hl (by simp)
    · rcases List.mem_cons.mp ha with rfl | ha
      · trivial
      · exact (leading_of_appendEntries hs ha).quiet
  | barrier =>
    unfold requestReadBarrier
    split_ifs <;> exact .keep rfl rfl (Or.inr ⟨rfl, rfl⟩) (fun _ => rfl) (by simp)
  | compact hp hc =>
    have htip := completeSnapshot_tip hp hc
    rcases completeSnapshot_spec hp hc with ⟨-, rfl⟩ | ⟨k, -, -, -, -, rfl⟩ <;>
      exact .keep rfl rfl (Or.inr ⟨rfl, rfl⟩) (fun _ => htip) (by simp)
  | denyVote => exact .of_termChecked rfl rfl (Or.inr ⟨rfl, rfl⟩) (by simp) (by simp [Action.Quiet])
  | @grantVote req ht hv hp =>
    have hcur : (core.termChecked req.term rnd).currentTerm = req.term := by
      rw [termChecked_currentTerm, max_eq_right ht]
    refine .grant ht ?_ hp hcur rfl ?_ (termChecked_tip core req.term rnd)
    · rcases Nat.lt_or_ge core.currentTerm req.term with h | h
      · exact Or.inl h
      · rw [termChecked_of_le h] at hv
        exact Or.inr hv
    · rcases Nat.lt_or_ge core.currentTerm req.term with h | h
      · rw [termChecked_of_lt h]
        exact Or.inl rfl
      · rw [termChecked_of_le h]
        exact Or.inr ⟨by omega, rfl, rfl⟩
  | ignoreVote => exact .of_termChecked_nil rfl rfl (Or.inr ⟨rfl, rfl⟩) (by simp)
  | collectVote ht hc hg => exact .collect ht hc hg
  | win ht hc hg hq hs =>
    exact .win ht hc hg hq (fun a ha => (leading_of_appendEntries hs ha).quiet) rnd
  | rejectAppend =>
    exact .of_termChecked rfl rfl (Or.inr ⟨rfl, rfl⟩) (by simp) (by simp [Action.Quiet])
  | conflictAppend ht hl hv => exact .of_follow rfl rfl rfl rfl (by simp [Action.Quiet])
  | acceptAppend ht hl hv ha =>
    have hf := acceptEntries_frame ha
    exact .of_follow (by rw [hf]; rfl) (by rw [hf]; rfl) (by rw [hf]) (by rw [hf]; rfl)
      fun a h => acceptEntries_quiet ha h
  | success hs hr =>
    have hf := (recordSuccess_spec hr).frame
    exact .of_termChecked (by rw [hf]) (by rw [hf]) (Or.inr ⟨by rw [hf], by rw [hf]⟩)
      (fun _ => by rw [hf]; exact termChecked_tip core _ rnd) fun a h => recordSuccess_quiet hr h
  | failure hs hb =>
    exact .of_termChecked rfl rfl (Or.inr ⟨rfl, rfl⟩) (fun _ => termChecked_tip core _ rnd)
      fun a h => List.mem_singleton.mp h ▸ (leading_of_build hb).quiet
  | staleSnapshot ht =>
    exact .keep rfl rfl (Or.inr ⟨rfl, rfl⟩) (fun _ => rfl) (by simp [snapshotReply, Action.Quiet])
  | oldSnapshot ht hi =>
    exact .of_follow rfl rfl rfl rfl (by simp [snapshotReply, Action.Quiet])
  | haveSnapshot ht hi hh =>
    exact .of_follow rfl rfl rfl rfl (by simp [snapshotReply, Action.Quiet])
  | @installSnapshot req ht hi hh =>
    exact @VoteMove.of_follow _ _ rnd _ _ req.term req.leaderId rfl rfl rfl rfl
      (by simp [snapshotReply, Action.Quiet])
  | ignoreSnapshotResponse hl => exact .of_termChecked_nil rfl rfl (Or.inr ⟨rfl, rfl⟩) (by simp)
  | recordSnapshotResponse ht hl =>
    exact .keep rfl rfl (Or.inr ⟨rfl, rfl⟩) (fun _ => rfl) (by simp)

/-- A call keeps the node's identity and its peers. -/
theorem Outcome.id_eq (h : core.Outcome rnd request core' actions) :
    core'.id = core.id ∧ core'.peers = core.peers := by
  cases h with
  | barrier =>
    unfold requestReadBarrier
    split_ifs <;> exact ⟨rfl, rfl⟩
  | compact hp hc =>
    rcases completeSnapshot_spec hp hc with ⟨-, rfl⟩ | ⟨k, -, -, -, -, rfl⟩ <;> exact ⟨rfl, rfl⟩
  | acceptAppend ht hl hv ha =>
    have hf := acceptEntries_frame ha
    rw [hf]
    exact ⟨termChecked_id core _ rnd, termChecked_peers core _ rnd⟩
  | success hs hr =>
    rw [(recordSuccess_spec hr).frame]
    exact ⟨termChecked_id core _ rnd, termChecked_peers core _ rnd⟩
  | wait | heartbeat | stand | refuse | append | collectVote | win | staleSnapshot
  | recordSnapshotResponse => exact ⟨rfl, rfl⟩
  | _ => exact ⟨termChecked_id core _ rnd, termChecked_peers core _ rnd⟩

/-- A vote is asked for by standing only. -/
theorem VoteMove.stood (h : core.VoteMove request core' actions) {dst : NodeId}
    {req : RequestVoteRPC} (hm : .sendMessage dst (.requestVote req) ∈ actions) :
    ∃ rnd, core' = core.stand rnd ∧ req = core'.voteRequest := by
  cases h with
  | keep ht hv hs hp hq => exact (hq _ hm).elim
  | bump ht hv hs hq =>
    rcases List.mem_cons.mp hm with h | h
    · simp at h
    · exact (hq _ h).elim
  | stand hl rnd =>
    rcases List.mem_cons.mp hm with h | h
    · simp at h
    · obtain ⟨peer, -, h⟩ := List.mem_map.mp h
      simp only [Action.sendMessage.injEq, Message.requestVote.injEq] at h
      exact ⟨rnd, rfl, h.2.symm⟩
  | grant =>
    unfold termActions at hm
    split_ifs at hm <;> simp at hm
  | collect => simp at hm
  | win ht hc hg hq hn rnd =>
    rcases List.mem_cons.mp hm with h | h
    · simp at h
    · exact (hn _ h).elim

/-- A vote is granted by an answer to a request only. -/
theorem VoteMove.granted (h : core.VoteMove request core' actions) {dst : NodeId}
    {resp : RequestVoteResponseRPC} (hm : .sendMessage dst (.requestVoteResponse resp) ∈ actions)
    (hg : resp.voteGranted = true) :
    ∃ req, request = .message (.requestVote req) ∧ dst = req.candidateId ∧
      resp = ⟨core.id, req.term, true⟩ ∧ core'.currentTerm = req.term ∧
      core'.votedFor = some req.candidateId ∧
      core.tip ≤ ⟨req.lastLogIndex, req.lastLogTerm⟩ := by
  have hquiet : ¬(Action.sendMessage dst (.requestVoteResponse resp)).Quiet := by
    simp [Action.Quiet, hg]
  cases h with
  | keep ht hv hs hp hq => exact absurd (hq _ hm) hquiet
  | bump ht hv hs hq =>
    rcases List.mem_cons.mp hm with h | h
    · simp at h
    · exact absurd (hq _ h) hquiet
  | stand hl rnd => simp at hm
  | @grant req _ ht hv hp ht' hv' hs' hp' =>
    have hm' : Action.sendMessage dst (.requestVoteResponse resp) =
        .sendMessage req.candidateId (.requestVoteResponse ⟨core.id, req.term, true⟩) := by
      unfold termActions at hm
      split_ifs at hm <;> simpa using hm
    simp only [Action.sendMessage.injEq, Message.requestVoteResponse.injEq] at hm'
    exact ⟨req, rfl, hm'.1, hm'.2, ht', hv', hp⟩
  | collect => simp at hm
  | win ht hc hg hq hn rnd =>
    rcases List.mem_cons.mp hm with h | h
    · simp at h
    · exact absurd (hn _ h) hquiet

/-- Terms do not go back, and a vote once given is kept for its term. -/
theorem VoteMove.vote_kept (h : core.VoteMove request core' actions) :
    core.currentTerm ≤ core'.currentTerm ∧ (core.currentTerm = core'.currentTerm →
      core.votedFor = none ∨ core'.votedFor = core.votedFor) := by
  cases h with
  | keep ht hv => exact ⟨ht.ge, fun _ => Or.inr hv⟩
  | bump ht => exact ⟨ht.le, fun h => by omega⟩
  | stand => exact ⟨Nat.le_succ _, fun h => absurd h (Nat.succ_ne_self _).symm⟩
  | grant ht hv hp ht' hv' =>
    refine ⟨ht'.ge.trans' ht, fun h => ?_⟩
    rcases hv with hv | hv | hv
    · omega
    · exact Or.inl hv
    · exact Or.inr (hv'.trans hv.symm)
  | collect => exact ⟨le_rfl, fun _ => Or.inr rfl⟩
  | win => exact ⟨le_rfl, fun _ => Or.inr rfl⟩

/-- A candidate has the log it had, and was a candidate before unless its term is new. -/
theorem VoteMove.candidate (h : core.VoteMove request core' actions)
    (hc : core'.state = .candidate) : core'.tip = core.tip ∧
      (core.currentTerm < core'.currentTerm ∨
        core.state = .candidate ∧ core'.currentTerm = core.currentTerm) := by
  cases h with
  | keep ht _ hs hp =>
    rcases hs with hs | ⟨hs, -⟩
    · simp [hs] at hc
    · exact ⟨hp hc, Or.inr ⟨hs ▸ hc, ht⟩⟩
  | bump _ _ hs => simp [hs] at hc
  | stand => exact ⟨rfl, Or.inl (Nat.lt_succ_self _)⟩
  | grant _ _ _ ht' _ hs hp' =>
    rcases hs with hs | ⟨heq, hs, -⟩
    · simp [hs] at hc
    · exact ⟨hp', Or.inr ⟨hs ▸ hc, ht'.trans heq.symm⟩⟩
  | collect _ hc' => exact ⟨rfl, Or.inr ⟨hc', rfl⟩⟩
  | win => cases hc

/-- Candidates and leaders have left term `0`. -/
theorem VoteMove.active (h : core.VoteMove request core' actions)
    (ha : core.state ≠ .follower → 0 < core.currentTerm) (hs : core'.state ≠ .follower) :
    0 < core'.currentTerm := by
  cases h with
  | keep ht _ hs' =>
    rcases hs' with hs' | ⟨hs', -⟩
    · exact absurd hs' hs
    · rw [ht]
      exact ha (hs' ▸ hs)
  | bump ht => exact Nat.zero_lt_of_lt ht
  | stand => exact Nat.succ_pos _
  | grant _ _ _ ht' _ hs' =>
    rcases hs' with hs' | ⟨heq, hs', -⟩
    · exact absurd hs' hs
    · rw [ht', ← heq]
      exact ha (hs' ▸ hs)
  | collect _ hc => exact ha (by simp [hc])
  | win _ hc => exact ha (by simp [hc])

end RaftCore

/-! ## The durable vote -/

namespace Mirror

theorem replay_append (m : Mirror) (as bs : List Action) :
    m.replay (as ++ bs) = (m.replay as).replay bs :=
  List.foldl_append

theorem apply_quiet (m : Mirror) {a : Action} (h : a.Quiet) :
    (m.apply a).term = m.term ∧ (m.apply a).votedFor = m.votedFor := by
  cases a with
  | persistMetadata => exact h.elim
  | _ => exact ⟨rfl, rfl⟩

theorem replay_quiet (m : Mirror) {actions : List Action} (h : ∀ a ∈ actions, a.Quiet) :
    (m.replay actions).term = m.term ∧ (m.replay actions).votedFor = m.votedFor := by
  induction actions generalizing m with
  | nil => exact ⟨rfl, rfl⟩
  | cons a actions ih =>
    obtain ⟨h1, h2⟩ := ih (m.apply a) fun b hb => h b (List.mem_cons_of_mem a hb)
    obtain ⟨h3, h4⟩ := apply_quiet m (h a (List.mem_cons_self))
    exact ⟨h1.trans h3, h2.trans h4⟩

/-- The term and the vote on disk are those of the core. -/
def VoteOf (m : Mirror) (core : RaftCore) : Prop :=
  m.term = core.currentTerm ∧ m.votedFor = core.votedFor

theorem VoteOf.replay {m : Mirror} {core core' : RaftCore} {request : Request}
    {actions : List Action} (hm : m.VoteOf core) (h : core.VoteMove request core' actions) :
    (m.replay actions).VoteOf core' := by
  cases h with
  | keep ht hv hs hp hq =>
    obtain ⟨h1, h2⟩ := replay_quiet m hq
    exact ⟨by rw [h1, hm.1, ht], by rw [h2, hm.2, hv]⟩
  | bump ht hv hs hq =>
    obtain ⟨h1, h2⟩ := replay_quiet (m.apply (.persistMetadata core'.currentTerm none)) hq
    exact ⟨h1, h2.trans hv.symm⟩
  | stand hl rnd =>
    have hq : ∀ (peers : List NodeId) (req : RequestVoteRPC) (m : Mirror),
        m.replay (peers.map fun peer => .sendMessage peer (.requestVote req)) = m := by
      intro peers req
      induction peers with
      | nil => exact fun m => rfl
      | cons peer peers ih => exact fun m => ih m
    have hr := hq core.peers (core.stand rnd).voteRequest
      (m.apply (.persistMetadata (core.currentTerm + 1) (some core.id)))
    exact ⟨congrArg Mirror.term hr, congrArg Mirror.votedFor hr⟩
  | grant ht hv hp ht' hv' =>
    rw [replay_append]
    exact ⟨ht'.symm, hv'.symm⟩
  | collect => exact hm
  | win ht hc hg hq hn rnd =>
    obtain ⟨h1, h2⟩ := replay_quiet (m.apply _) hn
    exact ⟨h1.trans hm.1, h2.trans hm.2⟩

/-- The term check of a message on disk. -/
theorem VoteOf.termActions {m : Mirror} {core : RaftCore} (hm : m.VoteOf core) (t : ℕ) :
    core.currentTerm ≤ (m.replay (core.termActions t)).term ∧
      (core.currentTerm = (m.replay (core.termActions t)).term →
        (m.replay (core.termActions t)).votedFor = core.votedFor) := by
  unfold RaftCore.termActions
  split_ifs with h
  · exact ⟨h.le, fun heq => absurd heq h.ne⟩
  · exact ⟨hm.1.ge, fun _ => hm.2⟩

/-- A call leaves its term and vote on disk. -/
theorem VoteOf.afterCall {m : Mirror} {core core' : RaftCore} {rnd : ℕ} {request : Request}
    {actions : List Action} (hm : m.VoteOf core) (h : core.Outcome rnd request core' actions) :
    (m.afterCall core request actions).VoteOf core' := by
  have hr := hm.replay h.voteMove
  cases h with
  | compact hp hc =>
    unfold Mirror.afterCall
    split <;> exact hr
  | _ => exact hr

end Mirror

end FerrisFerry
