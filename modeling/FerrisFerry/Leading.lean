import FerrisFerry.Emit

/-!
# Who speaks for a term

Every AppendEntries and every snapshot to send is built by `build_append_entries_for_peer`
on the core the call leaves behind (`RaftCore.Outcome.built`). The callers are a leader's
tick, a leader's proposal, a won election, and `handle_append_entries_response`, which asks
neither for the role of the node nor for the term of the response. So a run keeps to
`Call.OnlyLeaderLeads` exactly where every AppendEntriesResponse finds a leader after the
term check (`Cluster.only_leaders_lead`).
-/

namespace FerrisFerry

namespace RaftCore

variable {core core' : RaftCore} {rnd : ℕ} {request : Request} {actions : List Action}

/-- What speaks for a leader is built from the core after the call, by a leader or in
answer to a failed append. -/
theorem Outcome.built (h : core.Outcome rnd request core' actions) {a : Action}
    (ha : a ∈ actions) (hl : a.Leading) : ∃ peer, core'.buildAppendEntriesForPeer peer = some a ∧
      (core'.state = .leader ∧ peer ∈ core.peers ∨ ∃ resp,
        request = .message (.appendEntriesResponse resp) ∧ resp.success = false ∧
          resp.id = peer) := by
  cases h.emits ha with
  | leading hb hs => exact ⟨_, hb, hs⟩
  | _ => exact hl.elim

/-- A message that speaks for a leader carries the term of the core that built it. -/
theorem build_term {peer : NodeId} {a : Action}
    (h : core.buildAppendEntriesForPeer peer = some a) :
    (∀ dst req, a = .sendMessage dst (.appendEntries req) → req.term = core.currentTerm) ∧
      ∀ dst t i l, a = .sendInstallSnapshot dst t i l → t = core.currentTerm := by
  rcases buildAppendEntriesForPeer_cases h with rfl | ⟨k, -, es, rfl, -⟩
  · refine ⟨fun dst req h => (by cases h), fun dst t i l h => ?_⟩
    cases h
    rfl
  · refine ⟨fun dst req h => ?_, fun dst t i l h => (by cases h)⟩
    cases h
    rfl

/-- A core never sends a snapshot itself : the bytes are the event loop's. -/
theorem build_ne_install {peer : NodeId} (dst : NodeId) (req : InstallSnapshotRPC) :
    core.buildAppendEntriesForPeer peer ≠ some (.sendMessage dst (.installSnapshot req)) := by
  intro h
  rcases buildAppendEntriesForPeer_cases h with h | ⟨k, -, es, h, -⟩ <;> cases h

/-- A snapshot to send is that of the core after the call, in its term. -/
theorem Outcome.sendInstallSnapshot (h : core.Outcome rnd request core' actions) {dst : NodeId}
    {t i l : ℕ} (ha : .sendInstallSnapshot dst t i l ∈ actions) :
    t = core'.currentTerm ∧ i = core'.lastIncludedIndex ∧ l = core'.lastIncludedTerm := by
  obtain ⟨peer, hb, -⟩ := h.built ha trivial
  rcases buildAppendEntriesForPeer_cases hb with h | ⟨_, _, _, h, _⟩ <;> cases h
  exact ⟨rfl, rfl, rfl⟩

/-- What a node that does not lead keeps when a peer's answer reaches it. -/
structure Idle (core core' : RaftCore) : Prop where
  log : core'.log = core.log
  commitIndex : core'.commitIndex = core.commitIndex
  lastApplied : core'.lastApplied = core.lastApplied
  nextIndex : core'.nextIndex = core.nextIndex
  matchIndex : core'.matchIndex = core.matchIndex
  appendEntriesCount : core'.appendEntriesCount = core.appendEntriesCount

theorem idle_termChecked (core : RaftCore) (t rnd : ℕ) : core.Idle (core.termChecked t rnd) := by
  unfold termChecked checkMsgTerm
  split_ifs <;> exact ⟨rfl, rfl, rfl, rfl, rfl, rfl⟩

/-- The role after the term check : a higher term deposes. -/
def LeadsAt (core : RaftCore) (t : ℕ) : Prop :=
  t ≤ core.currentTerm ∧ core.state = .leader

instance (core : RaftCore) (t : ℕ) : Decidable (core.LeadsAt t) :=
  inferInstanceAs (Decidable (t ≤ core.currentTerm ∧ core.state = .leader))

theorem leadsAt_iff {t : ℕ} (rnd : ℕ) :
    core.LeadsAt t ↔ (core.termChecked t rnd).state = .leader := by
  constructor
  · rintro ⟨ht, hl⟩
    rwa [termChecked_of_le ht]
  · intro hl
    have ht : t ≤ core.currentTerm := le_of_termChecked_state (by rw [hl]; simp)
    exact ⟨ht, by rwa [termChecked_of_le ht] at hl⟩

end RaftCore

namespace Call

/-- Only a leader of the term speaks for it, and a node that does not lead after the term
check of a peer's answer changes none of its log, commit, apply and replication state there
and emits the `PersistMetadata` of the term check at most. -/
structure OnlyLeaderLeads (k : Call) : Prop where
  append : ∀ dst req, .sendMessage dst (.appendEntries req) ∈ k.actions →
    k.after.state = .leader ∧ k.after.currentTerm = req.term
  snapshot : ∀ dst t i l, .sendInstallSnapshot dst t i l ∈ k.actions →
    k.after.state = .leader ∧ k.after.currentTerm = t
  appendResponse : ∀ resp, k.request = .message (.appendEntriesResponse resp) →
    ¬k.before.LeadsAt resp.term →
    k.before.Idle k.after ∧ k.actions = k.before.termActions resp.term
  snapshotResponse : ∀ resp, k.request = .message (.installSnapshotResponse resp) →
    ¬k.before.LeadsAt resp.term →
    k.before.Idle k.after ∧ k.actions = k.before.termActions resp.term

/-- An AppendEntriesResponse finds a leader. -/
def AnswersLeader (k : Call) : Prop :=
  ∀ resp, k.request = .message (.appendEntriesResponse resp) → k.before.LeadsAt resp.term

instance (k : Call) : Decidable k.AnswersLeader :=
  match h : k.request with
  | .message (.appendEntriesResponse resp) =>
    decidable_of_iff (k.before.LeadsAt resp.term) (by simp [AnswersLeader, h])
  | .message (.requestVote _) | .message (.requestVoteResponse _) | .message (.appendEntries _)
  | .message (.installSnapshot _) | .message (.installSnapshotResponse _) | .tick | .propose _
  | .readBarrier | .snapshot _ => .isTrue (by simp [AnswersLeader, h])

theorem onlyLeaderLeads_iff {k : Call} {rnd : ℕ}
    (h : k.before.Outcome rnd k.request k.after k.actions) :
    k.OnlyLeaderLeads ↔ k.AnswersLeader := by
  obtain ⟨node, request, before, after, actions, sent⟩ := k
  dsimp only at h
  constructor
  · -- every answer handled leaves a mark : a count or a request
    rintro ⟨-, -, hresp, -⟩ resp rfl
    by_contra hl
    obtain ⟨hidle, hact⟩ := hresp resp rfl hl
    dsimp only at hidle hact
    cases h with
    | success hs hr =>
      have hf := congrArg RaftCore.appendEntriesCount (RaftCore.recordSuccess_spec hr).frame
      have hc := hidle.appendEntriesCount
      rw [hf] at hc
      have := (RaftCore.idle_termChecked before resp.term rnd).appendEntriesCount
      simp only [this] at hc
      omega
    | failure hs hb => simp at hact
  · intro hans
    -- a failed append is answered by a leader
    have hlead : ∀ a ∈ actions, a.Leading → after.state = .leader := by
      intro a ha hl
      obtain ⟨peer, -, ⟨h', -⟩ | ⟨resp, rfl, hs, -⟩⟩ := h.built ha hl
      · exact h'
      · have hl := (RaftCore.leadsAt_iff rnd).mp (hans resp rfl)
        cases h with
        | success hs' => simp [hs] at hs'
        | failure => exact hl
    refine ⟨fun dst req ha => ⟨hlead _ ha trivial, ?_⟩,
      fun dst t i l ha => ⟨hlead _ ha trivial, ?_⟩,
      fun resp hr hl => absurd (hans resp hr) hl, fun resp hr hl => ?_⟩
    · obtain ⟨peer, hb, -⟩ := h.built ha trivial
      exact ((RaftCore.build_term hb).1 dst req rfl).symm
    · obtain ⟨peer, hb, -⟩ := h.built ha trivial
      exact ((RaftCore.build_term hb).2 dst t i l rfl).symm
    · dsimp only at hr hl ⊢
      subst hr
      cases h with
      | ignoreSnapshotResponse => exact ⟨RaftCore.idle_termChecked before _ _, rfl⟩
      | recordSnapshotResponse ht hs => exact absurd ⟨ht, hs⟩ hl

end Call

namespace Cluster

variable {cfg : Config} {c : Cluster}

/-- A snapshot in flight after a call was sent by it, from the core it leaves behind, or was
in flight before. -/
theorem installSnapshot_mem_net_record {n dst : NodeId} {request : Request} {rnd : ℕ}
    {after : RaftCore} {actions : List Action} {req : InstallSnapshotRPC}
    (ho : (c.core n).Outcome rnd request after actions)
    (hm : (dst, .installSnapshot req) ∈ (c.record n request after actions).net) :
    (.sendInstallSnapshot dst req.term req.lastIncludedIndex req.lastIncludedTerm ∈ actions ∧
      req.leaderId = n ∧ req.term = after.currentTerm ∧
      req.lastIncludedIndex = after.lastIncludedIndex ∧
      req.lastIncludedTerm = after.lastIncludedTerm) ∨ (dst, .installSnapshot req) ∈ c.net := by
  rcases List.mem_append.mp hm with hm | hm
  · rcases mem_newCall_sent hm with hm | ⟨t, i, l, data, hsend, -, heq⟩
    · obtain ⟨peer, hb, -⟩ := ho.built hm trivial
      exact absurd hb (RaftCore.build_ne_install _ _)
    · cases heq
      exact Or.inl ⟨hsend, rfl, ho.sendInstallSnapshot hsend⟩
  · exact Or.inr hm

/-- Only leaders lead, in exactly the runs whose AppendEntriesResponses all find a leader
after the term check. -/
theorem only_leaders_lead (h : cfg.machine.Run (fun _ _ => True) cfg.init c) :
    (∀ k ∈ c.trace, k.OnlyLeaderLeads) ↔ ∀ k ∈ c.trace, k.AnswersLeader := by
  have hiff : ∀ k ∈ c.trace, (k.OnlyLeaderLeads ↔ k.AnswersLeader) := fun k hk =>
    (trace_outcome h k hk).elim fun _ ho => Call.onlyLeaderLeads_iff ho
  exact forall₂_congr hiff

/-- A leader answers a failed append with the entry the follower misses. -/
def repairedFollower : List Input :=
  [.call 1 .tick 1, .call 2 (.message (.requestVote ⟨1, 1, 0, 0⟩)) 1,
    .call 1 (.message (.requestVoteResponse ⟨2, 1, true⟩)) 1,
    .call 2 (.message (.appendEntries ⟨1, 1, 1, 1, [], 0⟩)) 1,
    .call 1 (.message (.appendEntriesResponse ⟨2, 1, 0, false, some 1, none⟩)) 1]

theorem only_leaders_lead_repairedFollower :
    ∃ c, Config.trio.machine.Run (fun _ _ => True) Config.trio.init c ∧
      (2, .appendEntries ⟨1, 1, 0, 0, [⟨1, []⟩], 0⟩) ∈ c.net ∧
      ∀ k ∈ c.trace, k.OnlyLeaderLeads := by
  obtain ⟨c, hc, hm, hans⟩ := Config.trio.machine.exists_run_of_exec (fun _ _ => True)
    Config.trio.init repairedFollower (fun c =>
      (2, .appendEntries ⟨1, 1, 0, 0, [⟨1, []⟩], 0⟩) ∈ c.net ∧ ∀ k ∈ c.trace, k.AnswersLeader)
    (by decide +kernel) (Machine.execOk_true _ _)
  exact ⟨c, hc, hm, (only_leaders_lead hc).mpr hans⟩

/-- The leader restarts before the answer arrives. -/
def deposedRepairs : List Input :=
  [.call 1 .tick 1, .call 2 (.message (.requestVote ⟨1, 1, 0, 0⟩)) 1,
    .call 1 (.message (.requestVoteResponse ⟨2, 1, true⟩)) 1,
    .call 2 (.message (.appendEntries ⟨1, 1, 1, 1, [], 0⟩)) 1, .crash 1 1,
    .call 1 (.message (.appendEntriesResponse ⟨2, 1, 0, false, some 1, none⟩)) 1]

/-- A follower sends an AppendEntries of its term. -/
theorem follower_leads_of_deposedRepairs :
    ∃ c, Config.trio.machine.Run (fun _ _ => True) Config.trio.init c ∧
      ∃ k ∈ c.trace, k.after.state = .follower ∧ ¬k.OnlyLeaderLeads := by
  obtain ⟨c, hc, k, hk, hs, a, ha, hm⟩ := Config.trio.machine.exists_run_of_exec (fun _ _ => True)
    Config.trio.init deposedRepairs (fun c => ∃ k ∈ c.trace, k.after.state = .follower ∧
      ∃ a ∈ k.actions, a = .sendMessage 2 (.appendEntries ⟨1, 1, 0, 0, [⟨1, []⟩], 0⟩))
    (by decide +kernel) (Machine.execOk_true _ _)
  refine ⟨c, hc, k, hk, hs, fun h => ?_⟩
  have hl := (h.append 2 _ (hm ▸ ha)).1
  rw [hs] at hl
  cases hl

end Cluster

end FerrisFerry
