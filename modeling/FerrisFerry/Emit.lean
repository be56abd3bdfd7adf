import FerrisFerry.Outcome

/-!
# What a call can emit

`RaftCore.Emits` lists the actions of a call one by one, each with what it says about the
core that the call leaves behind. The order of the actions of a call is in
`RaftCore.Outcome`; the proofs about messages in flight need their contents only.
-/

namespace FerrisFerry

namespace RaftCore

variable {core core' : RaftCore} {rnd : ℕ} {request : Request} {actions : List Action} {a : Action}

/-- The node accepted the entries of a request. -/
structure Accepts (core : RaftCore) (rnd : ℕ) (req : AppendEntriesRPC) (core' : RaftCore) :
    Prop where
  term_le : core.currentTerm ≤ req.term
  not_leader : (core.termChecked req.term rnd).state ≠ .leader
  valid : core.appendEntriesValid req = true
  accepted : ∃ accepted,
    ((core.termChecked req.term rnd).follow req.leaderId rnd).acceptEntries req =
      some (core', accepted)

/-- The actions of a call, with what they say about the core after it. -/
inductive Emits (core : RaftCore) (rnd : ℕ) (request : Request) (core' : RaftCore) : Action → Prop
  | metadata {term : ℕ} {votedFor : Option NodeId} :
    Emits core rnd request core' (.persistMetadata term votedFor)
  | entries {startIndex : ℕ} {entries : List LogEntry} :
    Emits core rnd request core' (.persistLogEntries startIndex entries)
  /-- What speaks for a leader is built from the core after the call, by a leader or in
  answer to a failed append. -/
  | leading {peer : NodeId} {a : Action} (hb : core'.buildAppendEntriesForPeer peer = some a)
      (hs : core'.state = .leader ∧ peer ∈ core.peers ∨ ∃ resp,
        request = .message (.appendEntriesResponse resp) ∧ resp.success = false ∧ resp.id = peer) :
    Emits core rnd request core' a
  | candidacy {peer : NodeId} {req : RequestVoteRPC} :
    Emits core rnd request core' (.sendMessage peer (.requestVote req))
  | ballot {dst : NodeId} {resp : RequestVoteResponseRPC} :
    Emits core rnd request core' (.sendMessage dst (.requestVoteResponse resp))
  | answer {req : AppendEntriesRPC} {resp : AppendEntriesResponseRPC}
      (hr : request = .message (.appendEntries req)) (hid : resp.id = core.id)
      (hs : resp.success = true → resp = core'.acceptance ∧ core.Accepts rnd req core') :
    Emits core rnd request core' (.sendMessage req.leaderId (.appendEntriesResponse resp))
  | snapshotAnswer {req : InstallSnapshotRPC} {resp : InstallSnapshotResponseRPC}
      (hr : request = .message (.installSnapshot req)) (hid : resp.id = core.id)
      (ht : resp.term = core'.currentTerm)
      (hi : resp.lastIncludedIndex = core'.lastIncludedIndex ∨
        resp.lastIncludedIndex = req.lastIncludedIndex ∧ req.term = core'.currentTerm ∧
          core'.logTermAt req.lastIncludedIndex = some req.lastIncludedTerm) :
    Emits core rnd request core' (.sendMessage req.leaderId (.installSnapshotResponse resp))
  | apply {i : ℕ} {e : LogEntry} (hi : i ≤ core'.commitIndex) (he : core'.logEntryAt i = some e) :
    Emits core rnd request core' (.applyToStateMachine i e.command)
  /-- Half of the peers have answered since the barrier was requested. -/
  | ready {resp : AppendEntriesResponseRPC} {id count : ℕ}
      (hr : request = .message (.appendEntriesResponse resp)) (hs : resp.success = true)
      (hb : (core.termChecked resp.term rnd).readBarriers.lookup id = some count)
      (hc : count + (core.peers.length + 1) / 2 ≤ core'.appendEntriesCount) :
    Emits core rnd request core' (.readBarrierReady id)
  | install {req : InstallSnapshotRPC} (hr : request = .message (.installSnapshot req)) :
    Emits core rnd request core'
      (.installSnapshot req.lastIncludedIndex req.lastIncludedTerm req.data)

theorem emits_termActions {t : ℕ} (ha : a ∈ core.termActions t) :
    core.Emits rnd request core' a := by
  unfold termActions at ha
  split_ifs at ha
  · obtain rfl := List.mem_singleton.mp ha
    exact .metadata
  · simp at ha

/-- The messages to every peer of a leader. -/
theorem emits_appendEntries {b : RaftCore} {sends : List Action}
    (hs : b.appendEntries = some sends) (ha : a ∈ sends) (hl : core'.state = .leader)
    (hpeers : b.peers = core.peers)
    (hb : ∀ peer, core'.buildAppendEntriesForPeer peer = b.buildAppendEntriesForPeer peer) :
    core.Emits rnd request core' a := by
  obtain ⟨peer, hp, h⟩ := mem_appendEntries hs ha
  exact .leading ((hb peer).trans h) (Or.inl ⟨hl, hpeers ▸ hp⟩)

theorem emits_acceptEntries {req : AppendEntriesRPC} {accepted : List Action}
    (hr : request = .message (.appendEntries req)) (h : core.Accepts rnd req core')
    (hacc : ((core.termChecked req.term rnd).follow req.leaderId rnd).acceptEntries req =
      some (core', accepted)) (ha : a ∈ accepted) : core.Emits rnd request core' a := by
  obtain ⟨merged, persist, applies, -, hm, hF, hp, rfl⟩ := acceptEntries_spec hacc
  have hf := hF.frame
  rw [hm] at hf
  rcases List.mem_append.mp ha with ha | ha
  · rcases List.mem_append.mp ha with ha | ha
    · rcases hp with ⟨-, rfl⟩ | ⟨-, entries, -, rfl⟩
      · simp at ha
      · obtain rfl := List.mem_singleton.mp ha
        exact .entries
    · rcases hF.commit with ⟨-, -, -, rfl⟩ | ⟨-, -, -, entries, hs, rfl⟩
      · simp at ha
      · obtain ⟨i, e, rfl, -, hi, he⟩ := mem_applyActions hs ha
        refine .apply hi ?_
        rw [hm] at he
        rw [hf]
        exact he
  · obtain rfl := List.mem_singleton.mp ha
    refine .answer hr ?_ fun _ => ⟨rfl, h⟩
    change core'.id = core.id
    rw [hf]
    exact termChecked_id core req.term rnd

theorem emits_recordSuccess {resp : AppendEntriesResponseRPC} {recorded : List Action}
    (hreq : request = .message (.appendEntriesResponse resp)) (hsucc : resp.success = true)
    (h : (core.termChecked resp.term rnd).recordSuccess resp = some (core', recorded))
    (ha : a ∈ recorded) : core.Emits rnd request core' a := by
  have hf := (recordSuccess_spec h).frame
  obtain ⟨entries, hs, rfl⟩ := (recordSuccess_spec h).actions
  rcases List.mem_append.mp ha with ha | ha
  · obtain ⟨i, e, rfl, -, hi, he⟩ := mem_applyActions hs ha
    refine .apply hi ?_
    rw [hf]
    exact he
  · obtain ⟨id, hid, rfl⟩ := List.mem_map.mp ha
    obtain ⟨⟨id, count⟩, hb, rfl⟩ := List.mem_map.mp hid
    obtain ⟨hb, hc⟩ := List.mem_filter.mp hb
    refine .ready hreq hsucc (AList.mem_lookup_iff.mpr hb) ?_
    have hpeers : core'.peers = core.peers := by
      rw [hf]
      exact termChecked_peers core resp.term rnd
    rw [← hpeers]
    exact of_decide_eq_true hc

/-- Every action of a call is one of these. -/
theorem Outcome.emits (h : core.Outcome rnd request core' actions) (ha : a ∈ actions) :
    core.Emits rnd request core' a := by
  cases h with
  | heartbeat hl hs => exact emits_appendEntries hs ha hl rfl fun _ => rfl
  | append hl hs =>
    rcases List.mem_cons.mp ha with rfl | ha
    · exact .entries
    · exact emits_appendEntries hs ha hl rfl fun _ => rfl
  | win ht hc hg hq hs =>
    rcases List.mem_cons.mp ha with rfl | ha
    · exact .entries
    · exact emits_appendEntries hs ha rfl rfl fun _ => rfl
  | stand =>
    rcases List.mem_cons.mp ha with rfl | ha
    · exact .metadata
    · obtain ⟨peer, -, rfl⟩ := List.mem_map.mp ha
      exact .candidacy
  | denyVote =>
    rcases List.mem_append.mp ha with ha | ha
    · exact emits_termActions ha
    · obtain rfl := List.mem_singleton.mp ha
      exact .ballot
  | grantVote =>
    rcases List.mem_append.mp ha with ha | ha
    · exact emits_termActions ha
    · simp only [List.mem_cons, List.not_mem_nil, or_false] at ha
      rcases ha with rfl | rfl
      · exact .metadata
      · exact .ballot
  | rejectAppend =>
    rcases List.mem_append.mp ha with ha | ha
    · exact emits_termActions ha
    · obtain rfl := List.mem_singleton.mp ha
      exact .answer rfl (termChecked_id core _ rnd) fun h => by cases h
  | conflictAppend =>
    rcases List.mem_append.mp ha with ha | ha
    · exact emits_termActions ha
    · obtain rfl := List.mem_singleton.mp ha
      refine .answer rfl ?_ ?_ <;> unfold conflictResponse <;> split_ifs
      · exact termChecked_id core _ rnd
      · exact termChecked_id core _ rnd
      · exact fun h => by cases h
      · exact fun h => by cases h
  | acceptAppend ht hl hv hacc =>
    rcases List.mem_append.mp ha with ha | ha
    · exact emits_termActions ha
    · exact emits_acceptEntries rfl ⟨ht, hl, hv, _, hacc⟩ hacc ha
  | success hs hr =>
    rcases List.mem_append.mp ha with ha | ha
    · exact emits_termActions ha
    · exact emits_recordSuccess rfl hs hr ha
  | failure hs hb =>
    rcases List.mem_append.mp ha with ha | ha
    · exact emits_termActions ha
    · obtain rfl := List.mem_singleton.mp ha
      exact .leading hb (Or.inr ⟨_, rfl, hs, rfl⟩)
  | staleSnapshot =>
    obtain rfl := List.mem_singleton.mp ha
    exact .snapshotAnswer rfl rfl rfl (Or.inl rfl)
  | oldSnapshot ht hi =>
    rcases List.mem_append.mp ha with ha | ha
    · exact emits_termActions ha
    · obtain rfl := List.mem_singleton.mp ha
      exact .snapshotAnswer rfl (termChecked_id core _ rnd) rfl
        (Or.inl (congrArg Point.index (termChecked_base core _ rnd)).symm)
  | haveSnapshot ht hi hh =>
    rcases List.mem_append.mp ha with ha | ha
    · exact emits_termActions ha
    · obtain rfl := List.mem_singleton.mp ha
      refine .snapshotAnswer rfl (termChecked_id core _ rnd) rfl (Or.inr ⟨rfl, ?_, ?_⟩)
      · exact ((termChecked_currentTerm core _ rnd).trans (max_eq_right ht)).symm
      · rw [← hh]
        exact logTermAt_congr (termChecked_base core _ rnd) (termChecked_log core _ rnd) _
  | installSnapshot =>
    rcases List.mem_append.mp ha with ha | ha
    · exact emits_termActions ha
    · simp only [List.mem_cons, List.not_mem_nil, or_false] at ha
      rcases ha with rfl | rfl
      · exact .install rfl
      · exact .snapshotAnswer rfl (termChecked_id core _ rnd) rfl (Or.inl rfl)
  | ignoreVote | ignoreSnapshotResponse => exact emits_termActions ha
  | wait | refuse | barrier | compact | collectVote | recordSnapshotResponse => simp at ha

end RaftCore

end FerrisFerry
