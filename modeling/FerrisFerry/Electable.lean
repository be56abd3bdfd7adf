import FerrisFerry.Compaction
import FerrisFerry.Completeness
import Mathlib.Data.Finset.Lattice.Fold

/-!
# A leader can always be elected

Whatever has happened in a sound run, a node of a majority can still become leader if no log of
the majority is ahead of its own (`Cluster.exists_elected`) : it ticks until its term is above all
others, the other nodes of the majority grant it their votes, and it collects them. Only ticks
and vote messages are needed, and the timeouts may be drawn in any way (`Cluster.Campaigns`).

The vote count is checked when an answer comes in. A node without peers gets none, so it never
leads. This is the one exception (`Cluster.electable_iff`).
-/

namespace FerrisFerry

namespace RaftCore

variable {core : RaftCore}

theorem tick_eq (hl : core.state ≠ .leader) (rnd : ℕ) : core.tick rnd = some
    (if core.electionTimeoutTicks ≤ core.ticksSinceLastHeartbeat + 1 then
      (core.stand rnd, .persistMetadata (core.currentTerm + 1) (some core.id) ::
        core.peers.map fun peer => .sendMessage peer (.requestVote (core.stand rnd).voteRequest))
    else ({ core with ticksSinceLastHeartbeat := core.ticksSinceLastHeartbeat + 1 }, [])) := by
  have hs : core.tick rnd = { core with
      ticksSinceLastHeartbeat := core.ticksSinceLastHeartbeat + 1 }.electionTimeout rnd := by
    unfold tick
    cases h : core.state with
    | leader => exact absurd h hl
    | candidate | follower => simp
  rw [hs, electionTimeout_eq]
  rfl

/-- A leader can send to every peer. -/
theorem exists_appendEntries (core : RaftCore) : ∃ sends, core.appendEntries = some sends ∧
    ∀ peer ∈ core.peers, ∃ a ∈ sends, core.buildAppendEntriesForPeer peer = some a := by
  unfold appendEntries
  induction core.peers with
  | nil => exact ⟨[], rfl, by simp⟩
  | cons peer peers ih =>
    obtain ⟨a, ha, -⟩ := core.exists_append peer
    obtain ⟨sends, hs, hall⟩ := ih
    refine ⟨a :: sends, by simp [List.mapM_cons, ha, hs],
      List.forall_mem_cons.mpr ⟨⟨a, List.mem_cons_self, ha⟩, fun p hp => ?_⟩⟩
    obtain ⟨b, hb, hbuild⟩ := hall p hp
    exact ⟨b, List.mem_cons_of_mem _ hb, hbuild⟩

/-- A vote request is always answered. The log stays, and a higher term makes a follower. -/
theorem exists_answer (core : RaftCore) (req : RequestVoteRPC) (rnd : ℕ) :
    ∃ after actions, core.handleRequestVote req rnd = some (after, actions) ∧
      after.base = core.base ∧ after.log = core.log ∧
      (core.currentTerm < req.term → after.state = .follower) := by
  obtain ⟨after, actions, h⟩ : ∃ after actions,
      core.handleRequestVote req rnd = some (after, actions) := by
    simp only [handleRequestVote, checkMsgTerm_eq, lastLogTerm_eq, pure, bind, Option.bind_some]
    split_ifs
    all_goals exact ⟨_, _, rfl⟩
  have hstate : core.currentTerm < req.term → (core.termChecked req.term rnd).state = .follower :=
    fun ht => by rw [termChecked_of_lt ht]
  refine ⟨after, actions, h, ?_⟩
  cases handleRequestVote_outcome h with
  | denyVote | grantVote =>
    exact ⟨termChecked_base core req.term rnd, termChecked_log core req.term rnd, hstate⟩

/-- A node of an earlier term grants its vote to a log that is not behind its own. -/
theorem handleRequestVote_of_lt {req : RequestVoteRPC} (ht : core.currentTerm < req.term)
    (hp : core.tip ≤ ⟨req.lastLogIndex, req.lastLogTerm⟩) (rnd : ℕ) :
    core.handleRequestVote req rnd =
      some ((core.termChecked req.term rnd).grant req.candidateId rnd,
        [.persistMetadata req.term none, .persistMetadata req.term (some req.candidateId),
          .sendMessage req.candidateId (.requestVoteResponse ⟨core.id, req.term, true⟩)]) := by
  have hcur : (core.termChecked req.term rnd).currentTerm = req.term := by
    rw [termChecked_currentTerm, max_eq_right ht.le]
  have hvote : (core.termChecked req.term rnd).votedFor = none := by
    rw [termChecked_of_lt ht]
  have hindex : (core.termChecked req.term rnd).lastLogIndex = core.tip.index := by
    rw [← tip_index, termChecked_tip]
  have hlog : core.tip.term < req.lastLogTerm ∨
      req.lastLogTerm = core.tip.term ∧ core.tip.index ≤ req.lastLogIndex :=
    (Point.le_def.mp hp).imp_right fun ⟨h1, h2⟩ => ⟨h1.symm, h2⟩
  simp only [handleRequestVote, checkMsgTerm_eq, lastLogTerm_eq, pure, bind, Option.bind_some, hcur,
    hvote, hindex, termChecked_tip, termChecked_id]
  rw [if_neg (lt_irrefl _), termActions, if_pos ht, if_pos (by simpa using hlog)]
  simp only [grant, resetElectionTimeout, hcur, termChecked_id, List.singleton_append]

end RaftCore

namespace Cluster

/-- A step of an election among the nodes `Q` : a tick, a vote request or an answer to one. The
timeouts are drawn in the order of the calls. -/
def Elects (Q : List NodeId) (draw : ℕ → ℕ) (c : Cluster) : Input → Prop
  | .call n .tick rnd | .call n (.message (.requestVote _)) rnd
  | .call n (.message (.requestVoteResponse _)) rnd => n ∈ Q ∧ rnd = draw c.trace.length
  | _ => False

/-- The steps of an election that are sound. -/
def Campaigns (Q : List NodeId) (draw : ℕ → ℕ) (c : Cluster) (input : Input) : Prop :=
  c.Sound input ∧ c.Elects Q draw input

/-- Node `n` leads a term that no node is beyond. -/
def Presides (cfg : Config) (c : Cluster) (n : NodeId) : Prop :=
  (c.core n).state = .leader ∧ ∀ m ∈ cfg.nodes, (c.core m).currentTerm ≤ (c.core n).currentTerm

/-- A run from `c` to `c'`, with everything sent before still in flight. -/
structure Proceeds (cfg : Config) (ok : Cluster → Input → Prop) (c c' : Cluster) : Prop where
  run : cfg.machine.Run ok c c'
  net : c.net ⊆ c'.net

variable {cfg : Config} {ok ok' : Cluster → Input → Prop} {draw : ℕ → ℕ} {c c' : Cluster}
  {Q : List NodeId} {n : NodeId} {after : RaftCore} {actions : List Action}

theorem Proceeds.refl (cfg : Config) (ok : Cluster → Input → Prop) (c : Cluster) :
    Proceeds cfg ok c c :=
  ⟨.init, List.Subset.refl _⟩

theorem Proceeds.trans {c'' : Cluster} (h : Proceeds cfg ok c c') (h' : Proceeds cfg ok c' c'') :
    Proceeds cfg ok c c'' :=
  ⟨h.run.trans h'.run, List.Subset.trans h.net h'.net⟩

theorem Proceeds.mono (h : Proceeds cfg ok c c') (hok : ∀ c i, ok c i → ok' c i) :
    Proceeds cfg ok' c c' :=
  ⟨h.run.mono hok, h.net⟩

theorem Proceeds.call {rnd : ℕ} (request : Request) (hn : n ∈ cfg.nodes) (he : c.Enabled n request)
    (hok : ok c (.call n request rnd))
    (hc : (c.core n).call rnd request = some (after, actions)) :
    Proceeds cfg ok c (c.record n request after actions) := by
  refine ⟨Machine.Run.init.step hok ?_, fun _ => mem_net_record_of_mem⟩
  simp only [Config.machine, step, if_pos (And.intro hn he), hc, bind, Option.bind_some]

theorem mem_net_record_of_send {request : Request} {dst : NodeId} {msg : Message}
    (h : .sendMessage dst msg ∈ actions) :
    (dst, msg) ∈ (c.record n request after actions).net :=
  List.mem_append_left _ (List.mem_filterMap.mpr ⟨_, h, rfl⟩)

/-- What a call of node `m` leaves : its core, those of the others, and the messages sent. -/
structure Made (c c' : Cluster) (m : NodeId) (after : RaftCore) (actions : List Action) : Prop where
  self : c'.core m = after
  others : ∀ x ≠ m, c'.core x = c.core x
  sent : ∀ dst msg, .sendMessage dst msg ∈ actions → (dst, msg) ∈ c'.net

theorem made_record (c : Cluster) (m : NodeId) (request : Request) (after : RaftCore)
    (actions : List Action) : Made c (c.record m request after actions) m after actions :=
  ⟨core_record_self, fun _ hx => core_record_of_ne hx, fun _ _ => mem_net_record_of_send⟩

theorem exists_made {rnd : ℕ} (request : Request) (hn : n ∈ cfg.nodes) (he : c.Enabled n request)
    (hok : ok c (.call n request rnd))
    (hc : (c.core n).call rnd request = some (after, actions)) :
    ∃ c', Proceeds cfg ok c c' ∧ Made c c' n after actions :=
  ⟨_, .call request hn he hok hc, made_record c n request after actions⟩

/-- A node that does not lead stands for election, after as many ticks as its timeout asks. -/
theorem exists_stand (draw : ℕ → ℕ) (c : Cluster) (hn : n ∈ cfg.nodes) (hQ : n ∈ Q)
    (hl : (c.core n).state ≠ .leader) :
    ∃ c' rnd, Proceeds cfg (Campaigns Q draw) c c' ∧ c'.core n = (c.core n).stand rnd ∧
      (∀ m ≠ n, c'.core m = c.core m) ∧ ∀ peer ∈ (c.core n).peers,
        (peer, .requestVote ((c.core n).stand rnd).voteRequest) ∈ c'.net := by
  induction hwait : (c.core n).electionTimeoutTicks - ((c.core n).ticksSinceLastHeartbeat + 1)
    generalizing c with
  | zero =>
    have htick := RaftCore.tick_eq hl (draw c.trace.length)
    rw [if_pos (by omega)] at htick
    have hok : c.Campaigns Q draw (.call n .tick (draw c.trace.length)) := ⟨trivial, hQ, rfl⟩
    obtain ⟨c', hgo, hmade⟩ := exists_made .tick hn trivial hok htick
    exact ⟨c', draw c.trace.length, hgo, hmade.self, hmade.others, fun peer hpeer =>
      hmade.sent _ _ (List.mem_cons_of_mem _ (List.mem_map_of_mem hpeer))⟩
  | succ wait ih =>
    have htick := RaftCore.tick_eq hl (draw c.trace.length)
    rw [if_neg (by omega)] at htick
    have hok : c.Campaigns Q draw (.call n .tick (draw c.trace.length)) := ⟨trivial, hQ, rfl⟩
    obtain ⟨c₁, hgo, hmade⟩ := exists_made .tick hn trivial hok htick
    obtain ⟨c', rnd, hgo', hself, hothers, hsent⟩ := ih c₁ (by rwa [hmade.self]) (by
      rw [hmade.self]
      change (c.core n).electionTimeoutTicks - ((c.core n).ticksSinceLastHeartbeat + 1 + 1) = wait
      omega)
    rw [hmade.self] at hself hsent
    exact ⟨c', rnd, hgo.trans hgo', hself,
      fun m hm => (hothers m hm).trans (hmade.others m hm), hsent⟩

/-- It can stand again and again, up to any later term. -/
theorem exists_stand_later (draw : ℕ → ℕ) (c : Cluster) (hn : n ∈ cfg.nodes) (hQ : n ∈ Q)
    (hl : (c.core n).state ≠ .leader) {t : ℕ} (ht : (c.core n).currentTerm ≤ t) :
    ∃ c' rnd, Proceeds cfg (Campaigns Q draw) c c' ∧
      c'.core n = ({ c.core n with currentTerm := t } : RaftCore).stand rnd ∧
      (∀ m ≠ n, c'.core m = c.core m) ∧ ∀ peer ∈ (c.core n).peers,
        (peer, .requestVote (c'.core n).voteRequest) ∈ c'.net := by
  induction hrest : t - (c.core n).currentTerm generalizing c with
  | zero =>
    obtain rfl : (c.core n).currentTerm = t := by omega
    obtain ⟨c', rnd, hgo, hcore, hothers, hsent⟩ := exists_stand (Q := Q) draw c hn hQ hl
    exact ⟨c', rnd, hgo, hcore, hothers, hcore ▸ hsent⟩
  | succ rest ih =>
    obtain ⟨c₁, rnd₁, hgo₁, hcore₁, hothers₁, -⟩ := exists_stand (Q := Q) draw c hn hQ hl
    have hterm : (c₁.core n).currentTerm = (c.core n).currentTerm + 1 := by rw [hcore₁]; rfl
    obtain ⟨c', rnd, hgo, hcore, hothers, hsent⟩ := ih c₁ (by rw [hcore₁]; simp [RaftCore.stand])
      (by omega) (by omega)
    rw [hcore₁] at hcore hsent
    exact ⟨c', rnd, hgo₁.trans hgo, hcore, fun m hm => (hothers m hm).trans (hothers₁ m hm), hsent⟩

/-- The request has been sent to `v`, which is of an earlier term and has no further log. -/
structure Willing (cfg : Config) (c : Cluster) (req : RequestVoteRPC) (v : NodeId) : Prop where
  mem : v ∈ cfg.nodes
  id : (c.core v).id = v
  asked : (v, .requestVote req) ∈ c.net
  term : (c.core v).currentTerm < req.term
  tip : (c.core v).tip ≤ ⟨req.lastLogIndex, req.lastLogTerm⟩

theorem Willing.of_proceeds {req : RequestVoteRPC} {v : NodeId} (h : Willing cfg c req v)
    (hp : Proceeds cfg ok c c') (hcore : c'.core v = c.core v) : Willing cfg c' req v :=
  ⟨h.mem, by rw [hcore, h.id], hp.net h.asked, by rw [hcore]; exact h.term,
    by rw [hcore]; exact h.tip⟩

/-- Willing nodes grant their votes, one after the other. -/
theorem exists_votes (draw : ℕ → ℕ) {req : RequestVoteRPC} (voters : List NodeId) (c : Cluster)
    (hnodup : voters.Nodup) (hQ : voters ⊆ Q) (hw : ∀ v ∈ voters, Willing cfg c req v) :
    ∃ c', Proceeds cfg (Campaigns Q draw) c c' ∧ (∀ v ∉ voters, c'.core v = c.core v) ∧
      ∀ v ∈ voters, (∃ rnd, c'.core v =
          ((c.core v).termChecked req.term rnd).grant req.candidateId rnd) ∧
        (req.candidateId, .requestVoteResponse ⟨v, req.term, true⟩) ∈ c'.net := by
  induction voters generalizing c with
  | nil => exact ⟨c, .refl _ _ c, fun _ _ => rfl, by simp⟩
  | cons v voters ih =>
    obtain ⟨hv, hnodup⟩ := List.nodup_cons.mp hnodup
    obtain ⟨hvQ, hQ⟩ := List.cons_subset.mp hQ
    obtain ⟨⟨hmem, hid, hasked, hterm, htip⟩, hw⟩ := List.forall_mem_cons.mp hw
    have hgrant := RaftCore.handleRequestVote_of_lt hterm htip (draw c.trace.length)
    have hok : c.Campaigns Q draw (.call v (.message (.requestVote req)) (draw c.trace.length)) :=
      ⟨trivial, hvQ, rfl⟩
    obtain ⟨c₁, hgo, hmade⟩ :=
      exists_made (.message (.requestVote req)) hmem hasked hok hgrant
    have hne : ∀ w ∈ voters, w ≠ v := fun w hw h => hv (h ▸ hw)
    obtain ⟨c', hgo', hothers, hvotes⟩ := ih c₁ hnodup hQ fun w hmem =>
      (hw w hmem).of_proceeds hgo (hmade.others w (hne w hmem))
    refine ⟨c', hgo.trans hgo', fun w hw => ?_,
      List.forall_mem_cons.mpr ⟨⟨⟨draw c.trace.length, ?_⟩, hgo'.net ?_⟩, fun w hw => ?_⟩⟩
    · rw [hothers w (List.not_mem_of_not_mem_cons hw),
        hmade.others w (List.ne_of_not_mem_cons hw)]
    · rw [hothers v hv, hmade.self]
    · refine hmade.sent _ _ ?_
      rw [hid]
      simp
    · rw [← hmade.others w (hne w hw)]
      exact hvotes w hw

/-- A candidate that is handed votes of its term leads, or has too few of them. -/
theorem exists_count (draw : ℕ → ℕ) (voters : List NodeId) (c : Cluster) (hn : n ∈ cfg.nodes)
    (hQ : n ∈ Q) (hs : (c.core n).state = .candidate)
    (hvotes : ∀ v ∈ voters, (n, .requestVoteResponse ⟨v, (c.core n).currentTerm, true⟩) ∈ c.net) :
    ∃ c', Proceeds cfg (Campaigns Q draw) c c' ∧ (∀ m ≠ n, c'.core m = c.core m) ∧
      ((∃ votes rnd, c'.core n = ({ c.core n with votesReceived := votes } : RaftCore).lead rnd) ∨
        voters = [] ∨
        ((c.core n).votesReceived ∪ voters.toFinset).card ≤ ((c.core n).peers.length + 1) / 2) := by
  induction voters generalizing c with
  | nil => exact ⟨c, .refl _ _ c, fun _ _ => rfl, Or.inr (Or.inl rfl)⟩
  | cons v voters ih =>
    rw [List.forall_mem_cons] at hvotes
    have hcall := RaftCore.handleRequestVoteResponse_eq (c.core n) ⟨v, (c.core n).currentTerm, true⟩
      (draw c.trace.length)
    simp only [RaftCore.termChecked_of_le le_rfl, RaftCore.termActions_of_le le_rfl, hs, ne_eq,
      not_true_eq_false, if_false, if_true] at hcall
    have hok : c.Campaigns Q draw (.call n (.message
        (.requestVoteResponse ⟨v, (c.core n).currentTerm, true⟩)) (draw c.trace.length)) :=
      ⟨fun _ _ => le_rfl, hQ, rfl⟩
    split_ifs at hcall with hquorum
    · obtain ⟨sends, hsends, -⟩ :=
        (((c.core n).collect v).lead (draw c.trace.length)).exists_appendEntries
      rw [hsends] at hcall
      obtain ⟨c', hgo, hmade⟩ := exists_made (.message _) hn hvotes.1 hok hcall
      exact ⟨c', hgo, hmade.others,
        Or.inl ⟨insert v (c.core n).votesReceived, draw c.trace.length, hmade.self⟩⟩
    · obtain ⟨c₁, hgo, hmade⟩ := exists_made (.message _) hn hvotes.1 hok hcall
      obtain ⟨c', hgo', hothers, hcount⟩ := ih c₁ (by rw [hmade.self]; exact hs) fun w hw => by
        rw [hmade.self]
        exact hgo.net (hvotes.2 w hw)
      rw [hmade.self] at hcount
      refine ⟨c', hgo.trans hgo', fun m hm => (hothers m hm).trans (hmade.others m hm),
        hcount.imp (fun h => h) fun h => Or.inr ?_⟩
      · have hunion : (c.core n).votesReceived ∪ (v :: voters).toFinset =
            ((c.core n).collect v).votesReceived ∪ voters.toFinset := by
          rw [List.toFinset_cons, Finset.union_insert, ← Finset.insert_union]
          rfl
        rw [hunion]
        rcases h with rfl | h
        · simpa using Nat.not_lt.mp hquorum
        · exact h

/-- The nodes `Q`, of which `n` is one, are a majority of a cluster of at least two. -/
structure Majority (cfg : Config) (Q : List NodeId) (n : NodeId) : Prop where
  nodes : cfg.nodes.Nodup
  two : 2 ≤ cfg.nodes.length
  nodup : Q.Nodup
  subset : Q ⊆ cfg.nodes
  mem : n ∈ Q
  half : cfg.nodes.length < 2 * Q.length

namespace Majority

theorem all (hd : cfg.nodes.Nodup) (hlen : 2 ≤ cfg.nodes.length) (hn : n ∈ cfg.nodes) :
    Majority cfg cfg.nodes n :=
  ⟨hd, hlen, hd, List.Subset.refl _, hn, by omega⟩

theorem exists_ne (h : Majority cfg Q n) : ∃ m ∈ Q, m ≠ n := by
  have hcard : 1 < Q.toFinset.card := by
    rw [List.toFinset_card_of_nodup h.nodup]
    have := h.half
    have := h.two
    omega
  obtain ⟨m, hm, hne⟩ := Finset.exists_mem_ne hcard n
  exact ⟨m, List.mem_toFinset.mp hm, hne⟩

theorem mem_erase (h : Majority cfg Q n) {m : NodeId} : m ∈ Q.erase n ↔ m ≠ n ∧ m ∈ Q :=
  h.nodup.mem_erase_iff

theorem mem_peers (h : Majority cfg Q n) (hv : VoteInv cfg c) {m : NodeId} (hm : m ∈ Q)
    (hne : m ≠ n) : m ∈ (c.core n).peers :=
  hv.mem_peers.mpr ⟨h.subset hm, hne⟩

theorem length_peers (h : Majority cfg Q n) (hv : VoteInv cfg c) :
    (c.core n).peers.length + 1 = cfg.nodes.length := by
  have herase : (c.core n).peers = cfg.nodes.erase n := by
    rw [hv.peers n, h.nodes.erase_eq_filter]
    refine List.filter_congr fun x _ => ?_
    rw [Bool.eq_iff_iff]
    simp
  rw [herase, List.length_erase_add_one (h.subset h.mem)]

theorem erase_ne_nil (h : Majority cfg Q n) : Q.erase n ≠ [] := by
  obtain ⟨m, hm, hmn⟩ := h.exists_ne
  exact List.ne_nil_of_mem (h.mem_erase.mpr ⟨hmn, hm⟩)

/-- With the node's own vote, those of the others are enough. -/
theorem lt_votes (h : Majority cfg Q n) (hv : VoteInv cfg c) :
    ((c.core n).peers.length + 1) / 2 < ({n} ∪ (Q.erase n).toFinset).card := by
  have hself : n ∉ (Q.erase n).toFinset := fun hn =>
    (h.mem_erase.mp (List.mem_toFinset.mp hn)).1 rfl
  rw [Finset.singleton_union, Finset.card_insert_of_notMem hself,
    List.toFinset_card_of_nodup (h.nodup.erase n), List.length_erase_add_one h.mem,
    h.length_peers hv]
  have := h.half
  omega

end Majority

/-- Node `n` leads and all others of `Q` follow in its term. The next index it has for each peer
is at most one past its log. -/
structure Heads (c : Cluster) (Q : List NodeId) (n : NodeId) : Prop where
  leader : (c.core n).state = .leader
  follower : ∀ p ∈ Q, p ≠ n → (c.core p).state = .follower
  term : ∀ p ∈ Q, p ≠ n → (c.core p).currentTerm = (c.core n).currentTerm
  next : ∀ p ∈ (c.core n).peers, ∃ i, (c.core n).nextIndex.lookup p = some i ∧
    i ≤ (c.core n).lastLogIndex + 1

theorem Heads.presides (h : c.Heads cfg.nodes n) : c.Presides cfg n := by
  refine ⟨h.leader, fun m hm => ?_⟩
  by_cases hmn : m = n
  · rw [hmn]
  · exact (h.term m hm hmn).le

/-- Node `n` has one more entry, and no node has compacted its log. -/
structure Grows (c c' : Cluster) (n : NodeId) : Prop where
  base : ∀ m, (c'.core m).base = (c.core m).base
  last : (c'.core n).lastLogIndex = (c.core n).lastLogIndex + 1

/-- The node with the furthest log of a majority, if it does not lead, stands for a term that is
new to the majority, and gets all of its votes. -/
theorem exists_granted (draw : ℕ → ℕ) (hv : VoteInv cfg c) (hq : Majority cfg Q n)
    (hup : ∀ m ∈ Q, (c.core m).tip ≤ (c.core n).tip) (hl : (c.core n).state ≠ .leader) :
    ∃ c' t rnd, Proceeds cfg (Campaigns Q draw) c c' ∧ (∀ m ∈ Q, (c.core m).currentTerm ≤ t) ∧
      c'.core n = ({ c.core n with currentTerm := t } : RaftCore).stand rnd ∧
      (∀ m ≠ n, m ∉ Q → c'.core m = c.core m) ∧
      ∀ v ∈ Q.erase n,
        (∃ rnd, c'.core v = ((c.core v).termChecked (t + 1) rnd).grant n rnd) ∧
        (n, .requestVoteResponse ⟨v, t + 1, true⟩) ∈ c'.net := by
  have hself : n ∉ Q.erase n := fun h => (hq.mem_erase.mp h).1 rfl
  obtain ⟨t, hle⟩ : ∃ t, ∀ m ∈ Q, (c.core m).currentTerm ≤ t :=
    ⟨Q.toFinset.sup fun m => (c.core m).currentTerm, fun m hm =>
      Finset.le_sup (f := fun m => (c.core m).currentTerm) (List.mem_toFinset.mpr hm)⟩
  obtain ⟨c₁, rnd, hgo₁, hcore₁, hothers₁, hsent₁⟩ :=
    exists_stand_later (Q := Q) draw c (hq.subset hq.mem) hq.mem hl (hle n hq.mem)
  have hreq : (c₁.core n).voteRequest = ⟨t + 1, n, (c.core n).tip.index, (c.core n).tip.term⟩ := by
    rw [hcore₁]
    change (⟨t + 1, (c.core n).id, _, _⟩ : RequestVoteRPC) = _
    rw [hv.id]
    rfl
  have hwilling : ∀ v ∈ Q.erase n, Willing cfg c₁ (c₁.core n).voteRequest v := by
    intro v hvp
    obtain ⟨hne, hvQ⟩ := hq.mem_erase.mp hvp
    rw [hreq]
    exact ⟨hq.subset hvQ, by rw [hothers₁ v hne, hv.id], hreq ▸ hsent₁ v (hq.mem_peers hv hvQ hne),
      by rw [hothers₁ v hne]; exact Nat.lt_succ_of_le (hle v hvQ),
      by rw [hothers₁ v hne]; exact hup v hvQ⟩
  obtain ⟨c₂, hgo₂, hothers₂, hvotes₂⟩ :=
    exists_votes draw _ c₁ (hq.nodup.erase n) List.erase_subset hwilling
  rw [hreq] at hvotes₂
  refine ⟨c₂, t, rnd, hgo₁.trans hgo₂, hle, (hothers₂ n hself).trans hcore₁,
    fun m hmn hmQ => ?_, fun v hvp => ?_⟩
  · rw [hothers₂ m fun h => hmQ (hq.mem_erase.mp h).2, hothers₁ m hmn]
  · obtain ⟨⟨rnd, hrnd⟩, hsent⟩ := hvotes₂ v hvp
    rw [hothers₁ v (hq.mem_erase.mp hvp).1] at hrnd
    exact ⟨⟨rnd, hrnd⟩, hsent⟩

/-- The node with the furthest log of a majority, if it does not lead, is elected by its votes. -/
theorem exists_heads (draw : ℕ → ℕ) (hv : VoteInv cfg c) (hq : Majority cfg Q n)
    (hup : ∀ m ∈ Q, (c.core m).tip ≤ (c.core n).tip) (hl : (c.core n).state ≠ .leader) :
    ∃ c', Proceeds cfg (Campaigns Q draw) c c' ∧ c'.Heads Q n ∧ Grows c c' n := by
  obtain ⟨c₁, t, rnd, hgo₁, hle, hcore₁, hothers₁, hvotes₁⟩ := exists_granted draw hv hq hup hl
  have hterm₁ : (c₁.core n).currentTerm = t + 1 := by rw [hcore₁]; rfl
  obtain ⟨c', hgo, hothers, hcount⟩ := exists_count draw (Q.erase n) c₁ (hq.subset hq.mem) hq.mem
    (by rw [hcore₁]; rfl) fun v hvp => by rw [hterm₁]; exact (hvotes₁ v hvp).2
  have hown : (c₁.core n).votesReceived = {n} := by
    rw [hcore₁]
    change ({(c.core n).id} : Finset NodeId) = {n}
    rw [hv.id]
  have hpeers₁ : (c₁.core n).peers = (c.core n).peers := by rw [hcore₁]; rfl
  rw [hown, hpeers₁] at hcount
  obtain ⟨votes, rnd', hcore⟩ := (hcount.resolve_right fun h =>
    h.elim hq.erase_ne_nil (Nat.not_le.mpr (hq.lt_votes hv)))
  rw [hcore₁] at hcore
  have hpeers : (c'.core n).peers = (c.core n).peers := by rw [hcore]; rfl
  have hterm : (c'.core n).currentTerm = t + 1 := by rw [hcore]; rfl
  have hlast : (c'.core n).lastLogIndex = (c.core n).lastLogIndex + 1 := by
    rw [hcore, RaftCore.lastLogIndex, RaftCore.lastLogIndex, Nat.add_assoc]
    exact congrArg _ List.length_append
  have hgranted : ∀ p ∈ Q, p ≠ n → ∃ rnd, c'.core p =
      ((c.core p).termChecked (t + 1) rnd).grant n rnd := by
    intro p hp hne
    obtain ⟨⟨rnd, hrnd⟩, -⟩ := hvotes₁ p (hq.mem_erase.mpr ⟨hne, hp⟩)
    exact ⟨rnd, (hothers p hne).trans hrnd⟩
  have hbefore : ∀ p ∈ Q, (c.core p).currentTerm < t + 1 := fun p hp => Nat.lt_succ_of_le (hle p hp)
  refine ⟨c', hgo₁.trans hgo, ⟨?_, ?_, ?_, ?_⟩, fun m => ?_, hlast⟩
  · rw [hcore]
    rfl
  · intro p hp hne
    obtain ⟨rnd, hrnd⟩ := hgranted p hp hne
    rw [hrnd, RaftCore.termChecked_of_lt (hbefore p hp)]
    rfl
  · rw [hterm]
    intro p hp hne
    obtain ⟨rnd, hrnd⟩ := hgranted p hp hne
    rw [hrnd, RaftCore.termChecked_of_lt (hbefore p hp)]
    rfl
  · rw [hpeers, hlast]
    intro p hp
    refine ⟨(c.core n).lastLogIndex + 1 + 1, ?_, le_rfl⟩
    rw [hcore]
    exact (lookup_foldl_insert _ _ _ _).trans (if_pos hp)
  · by_cases hmn : m = n
    · rw [hmn, hcore]
      rfl
    · by_cases hmQ : m ∈ Q
      · obtain ⟨rnd, hrnd⟩ := hgranted m hmQ hmn
        rw [hrnd]
        exact RaftCore.termChecked_base _ _ _
      · rw [hothers m hmn, hothers₁ m hmn hmQ]

/-- A leader steps down for another node that stands for election. -/
theorem exists_steps_down (draw : ℕ → ℕ) (hv : VoteInv cfg c) (hq : Majority cfg Q n)
    {m : NodeId} (hm : m ∈ Q) (hmn : m ≠ n) (hl : (c.core m).state ≠ .leader) :
    ∃ c', Proceeds cfg (Campaigns Q draw) c c' ∧ (∀ x, (c'.core x).base = (c.core x).base ∧
      (c'.core x).log = (c.core x).log) ∧ (c'.core n).state = .follower := by
  obtain ⟨c₁, rnd, hgo, hcore, hothers, hsent⟩ := exists_stand_later (Q := Q) draw c (hq.subset hm)
    hm hl (le_max_left (c.core m).currentTerm (c.core n).currentTerm)
  have hasked := hsent n (hv.mem_peers.mpr ⟨hq.subset hq.mem, hmn.symm⟩)
  obtain ⟨after, actions, hcall, hbase, hlog, hstate⟩ := (c₁.core n).exists_answer
    (c₁.core m).voteRequest (draw c₁.trace.length)
  rw [hothers n hmn.symm] at hbase hlog hstate
  have hok : c₁.Campaigns Q draw (.call n (.message (.requestVote (c₁.core m).voteRequest))
      (draw c₁.trace.length)) := ⟨trivial, hq.mem, rfl⟩
  obtain ⟨c', hgo', hmade⟩ := exists_made (.message _) (hq.subset hq.mem) hasked hok hcall
  refine ⟨c', hgo.trans hgo', fun x => ?_, ?_⟩
  · by_cases hx : x = n
    · rw [hx, hmade.self]
      exact ⟨hbase, hlog⟩
    · rw [hmade.others x hx]
      by_cases hxm : x = m
      · rw [hxm, hcore]
        exact ⟨rfl, rfl⟩
      · rw [hothers x hxm]
        exact ⟨rfl, rfl⟩
  · rw [hmade.self]
    refine hstate ?_
    rw [hcore]
    exact Nat.lt_succ_of_le (le_max_right _ _)

/-- Whether it leads or not, the node with the furthest log of a majority can be elected anew, if
there is another one that does not lead. -/
theorem exists_elected (draw : ℕ → ℕ) (h : cfg.machine.Run Sound cfg.init c)
    (hq : Majority cfg Q n) (hup : ∀ m ∈ Q, (c.core m).tip ≤ (c.core n).tip)
    (hquiet : (c.core n).state = .leader → ∃ m ∈ Q, m ≠ n ∧ (c.core m).state ≠ .leader) :
    ∃ c', Proceeds cfg (Campaigns Q draw) c c' ∧ c'.Heads Q n ∧ Grows c c' n := by
  have hv := (sound_run h).1.vote
  by_cases hl : (c.core n).state = .leader
  · obtain ⟨m, hm, hmn, hlm⟩ := hquiet hl
    obtain ⟨c₁, hgo₁, hlogs, hl₁⟩ := exists_steps_down draw hv hq hm hmn hlm
    have hv₁ := (sound_run (h.trans (hgo₁.run.mono fun _ _ h => h.1))).1.vote
    have htips : ∀ m, (c₁.core m).tip = (c.core m).tip := fun m => by
      rw [RaftCore.tip, RaftCore.tip, (hlogs m).1, (hlogs m).2]
    obtain ⟨c', hgo, hheads, hbase, hlast⟩ := exists_heads draw hv₁ hq
      (fun m hm => by rw [htips, htips]; exact hup m hm) (by simp [hl₁])
    refine ⟨c', hgo₁.trans hgo, hheads, fun m => (hbase m).trans (hlogs m).1, hlast.trans ?_⟩
    rw [← RaftCore.tip_index, htips, RaftCore.tip_index]
  · exact exists_heads draw hv hq hup hl

/-- A leader of two nodes or more has a voter that has come to its term. -/
theorem exists_voter (hv : VoteInv cfg c) (hd : cfg.nodes.Nodup) (hlen : 2 ≤ cfg.nodes.length)
    (hl : (c.core n).state = .leader) :
    ∃ m ∈ cfg.nodes, m ≠ n ∧ (c.core n).currentTerm ≤ (c.core m).currentTerm := by
  obtain ⟨-, V, hV, hcard, hvoted⟩ := hv.led n _ (hv.leader n hl)
  rw [List.toFinset_card_of_nodup hd] at hcard
  obtain ⟨m, hm, hmn⟩ := Finset.exists_mem_ne (show 1 < V.card by omega) n
  exact ⟨m, List.mem_toFinset.mp (hV hm), hmn, (hv.voted m _ n (hvoted m hm)).1⟩

/-- Another leader with a log that is not further is one of an earlier term. -/
theorem term_lt_of_leader (hb : BaseInv cfg c) (hl : (c.core n).state = .leader) {m : NodeId}
    (hlm : (c.core m).state = .leader) (hmn : m ≠ n) (hup : (c.core m).tip ≤ (c.core n).tip) :
    (c.core m).currentTerm < (c.core n).currentTerm := by
  have htip := (hb.tree.leader n hl).2.1
  have htip' := (hb.tree.leader m hlm).2.1
  have hbelow := Point.le_def.mp hup
  refine lt_of_le_of_ne (by omega) fun heq => hmn ?_
  have hled := hb.vote.leader m hlm
  rw [heq] at hled
  exact hb.vote.oneLeader m n _ hled (hb.vote.leader n hl)

/-- A node alone is sent nothing and does not lead. -/
theorem alone_run (h : cfg.machine.Run Sound cfg.init c) (hnodes : cfg.nodes = [n]) :
    c.net = [] ∧ (c.core n).state ≠ .leader := by
  refine h.invariant' (P := fun c => c.net = [] ∧ (c.core n).state ≠ .leader)
    ⟨rfl, by simp [core, Config.init, Config.boot, RaftCore.new]⟩ ?_
  rintro c input c' hrun ⟨hnet, hl⟩ - hstep
  have hpeers : (c.core n).peers = [] := by simp [(sound_run hrun).1.vote.peers n, hnodes]
  rcases step_cases hstep with ⟨m, request, rnd, after, actions, rfl, hm, he, ho, rfl⟩ |
    ⟨m, t, rnd, hm, rfl, -⟩
  · obtain rfl : m = n := by simpa [hnodes] using hm
    suffices hquiet : after.state ≠ .leader ∧ ∀ disk, actions.filterMap (outgoing m disk) = [] by
      refine ⟨?_, by rw [core_record_self]; exact hquiet.1⟩
      change actions.filterMap _ ++ c.net = []
      rw [hquiet.2, hnet, List.append_nil]
    cases request with
    | message msg =>
      have hmem : (m, msg) ∈ c.net := he
      simp [hnet] at hmem
    | tick =>
      cases ho with
      | wait => exact ⟨hl, fun _ => rfl⟩
      | heartbeat hlead => exact absurd hlead hl
      | stand => exact ⟨by simp [RaftCore.stand], fun _ => by rw [hpeers]; rfl⟩
    | propose command =>
      cases ho with
      | refuse => exact ⟨hl, fun _ => rfl⟩
      | append hlead => exact absurd hlead hl
    | readBarrier =>
      cases ho
      refine ⟨?_, fun _ => rfl⟩
      unfold RaftCore.requestReadBarrier
      rwa [if_pos hl]
    | snapshot data =>
      cases ho with
      | compact hp hc =>
        rcases RaftCore.completeSnapshot_spec hp hc with ⟨-, rfl⟩ | ⟨k, -, -, -, -, rfl⟩
        · exact ⟨hl, fun _ => rfl⟩
        · exact ⟨hl, fun _ => rfl⟩
  · refine ⟨hnet, fun hl' => hl ?_⟩
    rwa [core_crashed_of_active (by simp [hl'])] at hl'

/-- In every state of a sound run, a node whose log no other log is ahead of can come to lead,
with no node beyond its term, exactly if there is a second node. -/
theorem electable_iff (h : cfg.machine.Run Sound cfg.init c) (hd : cfg.nodes.Nodup)
    (hn : n ∈ cfg.nodes) (hup : ∀ m ∈ cfg.nodes, (c.core m).tip ≤ (c.core n).tip)
    (draw : ℕ → ℕ) :
    (∃ c', cfg.machine.Run (Campaigns cfg.nodes draw) c c' ∧ c'.Presides cfg n) ↔
      2 ≤ cfg.nodes.length := by
  obtain ⟨hb, -⟩ := sound_run h
  constructor
  · rintro ⟨c', hc', hlead, -⟩
    by_contra hlen
    obtain ⟨x, hnodes⟩ : ∃ x, cfg.nodes = [x] := by
      rw [← List.length_eq_one_iff]
      have := List.length_pos_of_mem hn
      omega
    obtain rfl : n = x := by simpa [hnodes] using hn
    exact (alone_run (h.trans (hc'.mono fun _ _ h => h.1)) hnodes).2 hlead
  · intro hlen
    -- a voter of the leader does not lead
    have hquiet : (c.core n).state = .leader →
        ∃ m ∈ cfg.nodes, m ≠ n ∧ (c.core m).state ≠ .leader := by
      intro hl
      obtain ⟨m, hm, hmn, hle⟩ := exists_voter hb.vote hd hlen hl
      exact ⟨m, hm, hmn, fun hlm => Nat.not_lt.mpr hle (term_lt_of_leader hb hl hlm hmn (hup m hm))⟩
    obtain ⟨c', hgo, hheads, -⟩ := exists_elected draw h (.all hd hlen hn) hup hquiet
    exact ⟨c', hgo.run, hheads.presides⟩

/-- Node 1 was elected by node 2 in term 1, and has stopped before anything was delivered. -/
def stoppedLeader : List Input :=
  [.call 1 .tick 1, .call 2 (.message (.requestVote ⟨1, 1, 0, 0⟩)) 1,
    .call 1 (.message (.requestVoteResponse ⟨2, 1, true⟩)) 1, .crash 1 1]

theorem electable_iff_stoppedLeader :
    ∃ c, Config.trio.machine.Run Sound Config.trio.init c ∧
      (∀ m ∈ Config.trio.nodes, (c.core m).state = .follower) ∧
      ∃ c', Config.trio.machine.Run (Campaigns Config.trio.nodes fun k => k) c c' ∧
        c'.Presides Config.trio 1 := by
  obtain ⟨c, hc, hfollow, hup⟩ := Config.trio.machine.exists_run_of_exec Sound Config.trio.init
    stoppedLeader (fun c => (∀ m ∈ Config.trio.nodes, (c.core m).state = .follower) ∧
      ∀ m ∈ Config.trio.nodes, (c.core m).tip ≤ (c.core 1).tip)
    (by decide +kernel) (by decide +kernel)
  refine ⟨c, hc, hfollow, ?_⟩
  exact (electable_iff hc (by decide) (by decide) hup fun k => k).mpr (by decide)

end Cluster

end FerrisFerry
