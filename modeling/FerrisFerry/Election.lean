import FerrisFerry.Vote

/-!
# Election safety

Votes are read off the network : a granted response, or the candidate's own request
(`Cluster.Voted`). `Cluster.VoteInv` relates them to the durable term and vote of the
voter, and says that a node votes at most once per term, crashes included.

`handle_request_vote_response` counts every granted response a candidate receives, also
one of an earlier term. Where no such response is delivered (`Cluster.FreshVotes`), every
counted vote is one of the current term, a leader has a majority of the votes of its term
(`Cluster.Elected`), and two leaders of one term are one node (`Cluster.election_safety`).
-/

namespace FerrisFerry

/-! ## Votes on the network -/

namespace Cluster

/-- `v` granted `x` its vote of term `t`. -/
def Granted (c : Cluster) (v : NodeId) (t : ℕ) (x : NodeId) : Prop :=
  (x, .requestVoteResponse ⟨v, t, true⟩) ∈ c.net

/-- `x` stood for election in term `t` with its log ending at `p`. -/
def Stood (c : Cluster) (x : NodeId) (t : ℕ) (p : Point) : Prop :=
  ∃ dst, (dst, .requestVote ⟨t, x, p.index, p.term⟩) ∈ c.net

/-- `v` voted for `x` in term `t`, a candidate for itself. -/
def Voted (c : Cluster) (v : NodeId) (t : ℕ) (x : NodeId) : Prop :=
  c.Granted v t x ∨ v = x ∧ ∃ p, c.Stood x t p

/-- A majority of the nodes voted for `n` in term `t`. -/
def Elected (cfg : Config) (c : Cluster) (n : NodeId) (t : ℕ) : Prop :=
  (∃ p, c.Stood n t p) ∧ ∃ V ⊆ cfg.nodes.toFinset, cfg.nodes.toFinset.card < 2 * V.card ∧
    ∀ v ∈ V, c.Voted v t n

/-- The votes of a run, the voters' durable state and the leaders they made. -/
structure VoteInv (cfg : Config) (c : Cluster) : Prop where
  id : ∀ n, (c.core n).id = n
  peers : ∀ n, (c.core n).peers = cfg.nodes.filter fun x => x ≠ n
  disk : ∀ n, (c.disk n).VoteOf (c.core n)
  /-- A vote binds the voter for its term. -/
  voted : ∀ v t x, c.Voted v t x → t ≤ (c.core v).currentTerm ∧
    (t = (c.core v).currentTerm → (c.core v).votedFor = some x)
  unique : ∀ v t x y, c.Voted v t x → c.Voted v t y → x = y
  stood_unique : ∀ x t p q, c.Stood x t p → c.Stood x t q → p = q
  stood_mem : ∀ x t p, c.Stood x t p → x ∈ cfg.nodes
  granted : ∀ v t x, c.Granted v t x → v ∈ cfg.nodes ∧ ∃ p, c.Stood x t p
  /-- A candidate still has the log it stood with, and its votes are of its term. -/
  candidate : ∀ n, (c.core n).state = .candidate →
    (∀ p, c.Stood n (c.core n).currentTerm p → p = (c.core n).tip) ∧
    ∀ v ∈ (c.core n).votesReceived, v = n ∨ c.Granted v (c.core n).currentTerm n
  leader : ∀ n, (c.core n).state = .leader → c.Led n (c.core n).currentTerm
  led : ∀ n t, c.Led n t → c.Elected cfg n t

/-- No candidate is handed a vote of an earlier term. -/
def FreshVotes (c : Cluster) : Input → Prop
  | .call n (.message (.requestVoteResponse resp)) _ =>
    (c.core n).state = .candidate → resp.voteGranted = true →
      (c.core n).currentTerm ≤ resp.term
  | _ => True

instance (c : Cluster) : (i : Input) → Decidable (c.FreshVotes i)
  | .call n (.message (.requestVoteResponse resp)) _ =>
    inferInstanceAs (Decidable ((c.core n).state = .candidate → resp.voteGranted = true →
      (c.core n).currentTerm ≤ resp.term))
  | .call _ (.message (.requestVote _)) _ | .call _ (.message (.appendEntries _)) _
  | .call _ (.message (.appendEntriesResponse _)) _ | .call _ (.message (.installSnapshot _)) _
  | .call _ (.message (.installSnapshotResponse _)) _ | .call _ .tick _ | .call _ (.propose _) _
  | .call _ .readBarrier _ | .call _ (.snapshot _) _ | .crash _ _ | .crashAfterTermCheck _ _ _ =>
    inferInstanceAs (Decidable True)

variable {cfg : Config} {c c' : Cluster}

theorem Voted.mono (h : ∀ m ∈ c.net, m ∈ c'.net) {v t x} (hv : c.Voted v t x) :
    c'.Voted v t x :=
  hv.imp (h _) fun ⟨he, p, dst, hp⟩ => ⟨he, p, dst, h _ hp⟩

theorem Elected.mono (h : ∀ m ∈ c.net, m ∈ c'.net) {n t} (he : c.Elected cfg n t) :
    c'.Elected cfg n t := by
  obtain ⟨⟨p, dst, hp⟩, V, hV, hc, hv⟩ := he
  exact ⟨⟨p, dst, h _ hp⟩, V, hV, hc, fun v hvV => (hv v hvV).mono h⟩

/-- One leader per term : two majorities share a voter. -/
theorem VoteInv.elected_unique (h : VoteInv cfg c) {n m t} (hn : c.Elected cfg n t)
    (hm : c.Elected cfg m t) : n = m := by
  obtain ⟨-, V, hV, hVc, hVv⟩ := hn
  obtain ⟨-, W, hW, hWc, hWv⟩ := hm
  obtain ⟨v, hv⟩ := Finset.inter_nonempty_of_card_lt_card_add_card hV hW (by omega)
  obtain ⟨h1, h2⟩ := Finset.mem_inter.mp hv
  exact h.unique v t n m (hVv v h1) (hWv v h2)

/-- What a step of `n` does to the votes : the node votes at most once per term, and what
it becomes is backed by votes. -/
structure Ballot (cfg : Config) (c : Cluster) (n : NodeId) (c' : Cluster) : Prop where
  mem : n ∈ cfg.nodes
  others : ∀ m ≠ n, c'.node m = c.node m
  net : ∀ m ∈ c.net, m ∈ c'.net
  id : (c'.core n).id = n
  peers : (c'.core n).peers = cfg.nodes.filter fun x => x ≠ n
  disk : (c'.disk n).VoteOf (c'.core n)
  term_le : (c.core n).currentTerm ≤ (c'.core n).currentTerm
  vote_kept : (c.core n).currentTerm = (c'.core n).currentTerm →
    (c.core n).votedFor = none ∨ (c'.core n).votedFor = (c.core n).votedFor
  stood : ∀ x t p, c'.Stood x t p → c.Stood x t p ∨ x = n ∧ p = (c.core n).tip ∧
    t = (c'.core n).currentTerm ∧ (c.core n).currentTerm < t ∧ (c'.core n).votedFor = some n
  granted : ∀ v t x, c'.Granted v t x → c.Granted v t x ∨ v = n ∧
    t = (c'.core n).currentTerm ∧ (c'.core n).votedFor = some x ∧
    ∃ p, c.Stood x t p ∧ (c.core n).tip ≤ p
  candidate : (c'.core n).state = .candidate →
    (∀ p, c'.Stood n (c'.core n).currentTerm p → p = (c'.core n).tip) ∧
    ∀ v ∈ (c'.core n).votesReceived, v = n ∨ c'.Granted v (c'.core n).currentTerm n
  led_mono : ∀ m t, c.Led m t → c'.Led m t
  leader : (c'.core n).state = .leader → c'.Led n (c'.core n).currentTerm
  led : ∀ m t, c'.Led m t → c.Led m t ∨ c'.Elected cfg m t

namespace Ballot

variable {n : NodeId}

theorem core_eq (h : Ballot cfg c n c') {m : NodeId} (hm : m ≠ n) : c'.core m = c.core m :=
  congrArg Node.core (h.others m hm)

/-- A new vote is the acting node's, for whom it now holds. -/
theorem voted (h : Ballot cfg c n c') {v t x} (hv : c'.Voted v t x) :
    c.Voted v t x ∨ v = n ∧ t = (c'.core n).currentTerm ∧ (c'.core n).votedFor = some x := by
  rcases hv with hv | ⟨rfl, p, hp⟩
  · rcases h.granted v t x hv with hv | ⟨rfl, ht, hx, -⟩
    · exact Or.inl (Or.inl hv)
    · exact Or.inr ⟨rfl, ht, hx⟩
  · rcases h.stood v t p hp with hp | ⟨rfl, -, ht, -, hx⟩
    · exact Or.inl (Or.inr ⟨rfl, p, hp⟩)
    · exact Or.inr ⟨rfl, ht, hx⟩

/-- An old vote still binds its voter. -/
theorem binds (h : Ballot cfg c n c') (hi : VoteInv cfg c) {v t x} (hv : c.Voted v t x) :
    t ≤ (c'.core v).currentTerm ∧
      (t = (c'.core v).currentTerm → (c'.core v).votedFor = some x) := by
  obtain ⟨hle, hx⟩ := hi.voted v t x hv
  by_cases hvn : v = n
  · subst hvn
    refine ⟨hle.trans h.term_le, fun ht => ?_⟩
    have heq : t = (c.core v).currentTerm := le_antisymm hle (ht ▸ h.term_le)
    rcases h.vote_kept (heq.symm.trans ht) with hn | hk
    · rw [hx heq] at hn
      simp at hn
    · rw [hk, hx heq]
  · rw [h.core_eq hvn]
    exact ⟨hle, hx⟩

end Ballot

/-- A step keeps the invariant of the votes. -/
theorem VoteInv.step {n : NodeId} (hi : VoteInv cfg c) (h : Ballot cfg c n c') :
    VoteInv cfg c' where
  id m := by
    by_cases hm : m = n
    · exact hm ▸ h.id
    · rw [h.core_eq hm, hi.id]
  peers m := by
    by_cases hm : m = n
    · exact hm ▸ h.peers
    · rw [h.core_eq hm, hi.peers]
  disk m := by
    by_cases hm : m = n
    · exact hm ▸ h.disk
    · have hd := hi.disk m
      rwa [Cluster.disk, Cluster.core, ← h.others m hm] at hd
  voted v t x hv := by
    rcases h.voted hv with hv | ⟨rfl, rfl, hx⟩
    · exact h.binds hi hv
    · exact ⟨le_rfl, fun _ => hx⟩
  unique v t x y hx hy := by
    rcases h.voted hx with hx' | ⟨rfl, ht, hx'⟩
    · rcases h.voted hy with hy' | ⟨rfl, ht, hy'⟩
      · exact hi.unique v t x y hx' hy'
      · exact Option.some.inj (((h.binds hi hx').2 ht).symm.trans hy')
    · rcases h.voted hy with hy' | ⟨-, -, hy'⟩
      · exact Option.some.inj (hx'.symm.trans ((h.binds hi hy').2 ht))
      · exact Option.some.inj (hx'.symm.trans hy')
  stood_unique x t p q hp hq := by
    -- a node stands once per term : standing raises its term above every earlier vote
    have hold : ∀ p, c.Stood x t p → t ≤ (c.core x).currentTerm := fun p hp =>
      (hi.voted x t x (Or.inr ⟨rfl, p, hp⟩)).1
    rcases h.stood x t p hp with hp | ⟨rfl, rfl, -, hlt, -⟩
    · rcases h.stood x t q hq with hq | ⟨rfl, -, -, hlt, -⟩
      · exact hi.stood_unique x t p q hp hq
      · exact absurd (hold p hp) (Nat.not_le.mpr hlt)
    · rcases h.stood x t q hq with hq | ⟨-, rfl, -, -, -⟩
      · exact absurd (hold q hq) (Nat.not_le.mpr hlt)
      · rfl
  stood_mem x t p hp := by
    rcases h.stood x t p hp with hp | ⟨rfl, -⟩
    · exact hi.stood_mem x t p hp
    · exact h.mem
  granted v t x hv := by
    rcases h.granted v t x hv with hv | ⟨rfl, -, -, p, ⟨dst, hp⟩, -⟩
    · obtain ⟨hm, p, dst, hp⟩ := hi.granted v t x hv
      exact ⟨hm, p, dst, h.net _ hp⟩
    · exact ⟨h.mem, p, dst, h.net _ hp⟩
  candidate m hc := by
    by_cases hm : m = n
    · subst hm
      exact h.candidate hc
    · rw [h.core_eq hm] at hc ⊢
      obtain ⟨h1, h2⟩ := hi.candidate m hc
      refine ⟨fun p hp => ?_, fun v hv => (h2 v hv).imp_right (h.net _)⟩
      rcases h.stood m _ p hp with hp | ⟨rfl, -⟩
      · exact h1 p hp
      · exact absurd rfl hm
  leader m hl := by
    by_cases hm : m = n
    · subst hm
      exact h.leader hl
    · rw [h.core_eq hm] at hl ⊢
      exact h.led_mono _ _ (hi.leader m hl)
  led m t hl := (h.led m t hl).elim (fun hl => (hi.led m t hl).mono h.net) fun he => he

section record

variable {n : NodeId} {rnd : ℕ} {request : Request} {after : RaftCore} {actions : List Action}

theorem VoteInv.mem_peers (hi : VoteInv cfg c) {n p : NodeId} :
    p ∈ (c.core n).peers ↔ p ∈ cfg.nodes ∧ p ≠ n := by
  rw [hi.peers, List.mem_filter, decide_eq_true_iff]

/-- A node's peers and itself are the cluster. -/
theorem VoteInv.card_nodes_le (hi : VoteInv cfg c) (n : NodeId) :
    cfg.nodes.toFinset.card ≤ (c.core n).peers.length + 1 := by
  have hsub : cfg.nodes.toFinset ⊆ insert n (c.core n).peers.toFinset := by
    intro x hx
    rw [hi.peers]
    by_cases hxn : x = n <;> simp_all
  calc cfg.nodes.toFinset.card ≤ (insert n (c.core n).peers.toFinset).card :=
        Finset.card_le_card hsub
    _ ≤ (c.core n).peers.toFinset.card + 1 := Finset.card_insert_le _ _
    _ ≤ (c.core n).peers.length + 1 := Nat.succ_le_succ (List.toFinset_card_le _)

/-- The votes a candidate has counted, a fresh one included, are votes of its term. -/
theorem VoteInv.collected (hi : VoteInv cfg c) (hc : (c.core n).state = .candidate)
    {resp : RequestVoteResponseRPC} (hg : resp.voteGranted = true)
    (hm : (n, .requestVoteResponse resp) ∈ c.net) (ht : resp.term = (c.core n).currentTerm) :
    c.Granted resp.id (c.core n).currentTerm n ∧
      ∀ v ∈ ((c.core n).collect resp.id).votesReceived,
        v = n ∨ c.Granted v (c.core n).currentTerm n := by
  have hr : c.Granted resp.id (c.core n).currentTerm n := by
    obtain ⟨id, term, granted⟩ := resp
    dsimp only at hg ht
    rwa [hg, ht] at hm
  refine ⟨hr, fun v hv => ?_⟩
  rcases Finset.mem_insert.mp hv with rfl | hv
  · exact Or.inr hr
  · exact (hi.candidate n hc).2 v hv

/-- A candidate that wins has a majority of the votes of its term. -/
theorem VoteInv.elected_of_win (hi : VoteInv cfg c) (hn : n ∈ cfg.nodes)
    (hc : (c.core n).state = .candidate) {resp : RequestVoteResponseRPC}
    (hg : resp.voteGranted = true) (hm : (n, .requestVoteResponse resp) ∈ c.net)
    (ht : resp.term = (c.core n).currentTerm)
    (hq : ((c.core n).peers.length + 1) / 2 < ((c.core n).collect resp.id).votesReceived.card) :
    c.Elected cfg n (c.core n).currentTerm := by
  obtain ⟨hr, hv⟩ := hi.collected hc hg hm ht
  obtain ⟨-, p, hp⟩ := hi.granted _ _ _ hr
  refine ⟨⟨p, hp⟩, ((c.core n).collect resp.id).votesReceived, fun v hvV => ?_, ?_,
    fun v hvV => ?_⟩
  · rcases hv v hvV with rfl | h
    · exact List.mem_toFinset.mpr hn
    · exact List.mem_toFinset.mpr (hi.granted _ _ _ h).1
  · have := hi.card_nodes_le n
    omega
  · rcases hv v hvV with rfl | h
    · exact Or.inr ⟨rfl, p, hp⟩
    · exact Or.inl h

/-- Who stands anew does so in a new term, with its log as it is. -/
theorem stood_record (hid : (c.core n).id = n)
    (h : (c.core n).Outcome rnd request after actions) {x : NodeId} {t : ℕ} {p : Point}
    (hp : (c.record n request after actions).Stood x t p) :
    c.Stood x t p ∨ x = n ∧ p = (c.core n).tip ∧ t = after.currentTerm ∧
      (c.core n).currentTerm < t ∧ after.votedFor = some n := by
  obtain ⟨dst, hm⟩ := hp
  rcases mem_net_record (by simp) hm with hm | hm
  · obtain ⟨r, rfl, hreq⟩ := h.voteMove.stood hm
    simp only [RaftCore.voteRequest, RequestVoteRPC.mk.injEq] at hreq
    obtain ⟨rfl, rfl, h1, h2⟩ := hreq
    exact Or.inr ⟨hid, Point.ext h1 h2, rfl, Nat.lt_succ_self _, congrArg some hid⟩
  · exact Or.inl ⟨dst, hm⟩

/-- An old candidate of the same term with the same log stands as it stood. -/
theorem VoteInv.candidate_record (hi : VoteInv cfg c)
    (h : (c.core n).Outcome rnd request after actions) (hc : (c.core n).state = .candidate)
    (ht : after.currentTerm = (c.core n).currentTerm) (htip : after.tip = (c.core n).tip)
    (hv : ∀ v ∈ after.votesReceived,
      v ∈ (c.core n).votesReceived ∨ c.Granted v (c.core n).currentTerm n) :
    (∀ p, (c.record n request after actions).Stood n after.currentTerm p → p = after.tip) ∧
      ∀ v ∈ after.votesReceived,
        v = n ∨ (c.record n request after actions).Granted v after.currentTerm n := by
  obtain ⟨h1, h2⟩ := hi.candidate n hc
  rw [ht, htip]
  refine ⟨fun p hp => ?_, fun v hvm => ?_⟩
  · rcases stood_record (hi.id n) h hp with hp | ⟨-, hp, -⟩
    · exact h1 p hp
    · exact hp
  · exact ((hv v hvm).elim (h2 v) Or.inr).imp_right mem_net_record_of_mem

theorem ballot_record (hi : VoteInv cfg c) (hn : n ∈ cfg.nodes) (he : c.Enabled n request)
    (hf : c.FreshVotes (.call n request rnd))
    (h : (c.core n).Outcome rnd request after actions) :
    Ballot cfg c n (c.record n request after actions) where
  mem := hn
  others m hm := by simp [record, setNode, hm]
  net _ hm := mem_net_record_of_mem hm
  id := by rw [core_record_self, h.id_eq.1, hi.id]
  peers := by rw [core_record_self, h.id_eq.2, hi.peers]
  disk := by
    rw [core_record_self, disk_record_self]
    exact (hi.disk n).afterCall h
  term_le := by
    rw [core_record_self]
    exact h.voteMove.vote_kept.1
  vote_kept := by
    rw [core_record_self]
    exact h.voteMove.vote_kept.2
  stood x t p hp := by
    rw [core_record_self]
    exact stood_record (hi.id n) h hp
  granted v t x hv := by
    rcases mem_net_record (by simp) hv with hm | hm
    · obtain ⟨req, rfl, rfl, hresp, ht, hvf, hp⟩ := h.voteMove.granted hm rfl
      simp only [RequestVoteResponseRPC.mk.injEq, and_true] at hresp
      obtain ⟨rfl, rfl⟩ := hresp
      rw [core_record_self]
      exact Or.inr ⟨hi.id n, ht.symm, hvf, ⟨req.lastLogIndex, req.lastLogTerm⟩, ⟨n, he⟩, hp⟩
    · exact Or.inl hm
  candidate hc := by
    rw [core_record_self] at hc ⊢
    have hold := hi.candidate_record h
    cases h.voteMove with
    | keep ht hv hs hp hq =>
      rcases hs with hs | ⟨hs, hr⟩
      · simp [hs] at hc
      · exact hold (hs ▸ hc) ht (hp hc) fun v hv => Or.inl (hr ▸ hv)
    | bump ht hv hs hq => simp [hs] at hc
    | stand hl r =>
      refine ⟨fun p hp => ?_, fun v hv => ?_⟩
      · rcases stood_record (hi.id n) h hp with hp | ⟨-, hp, -⟩
        · exact absurd (hi.voted n _ n (Or.inr ⟨rfl, p, hp⟩)).1 (Nat.not_succ_le_self _)
        · exact hp
      · exact Or.inl ((Finset.mem_singleton.mp hv).trans (hi.id n))
    | grant ht hv hp ht' hv' hs' hp' =>
      rcases hs' with hs | ⟨heq, hs, hr⟩
      · simp [hs] at hc
      · exact hold (hs ▸ hc) (ht'.trans heq.symm) hp' fun v hv => Or.inl (hr ▸ hv)
    | @collect resp ht hcand hg =>
      have htt : resp.term = (c.core n).currentTerm := le_antisymm ht (hf hcand hg)
      refine hold hcand rfl rfl fun v hv => ?_
      rcases Finset.mem_insert.mp hv with rfl | hv
      · exact Or.inr (hi.collected hcand hg he htt).1
      · exact Or.inl hv
    | win => simp [RaftCore.lead] at hc
  led_mono m t hl := led_record.mpr (Or.inr hl)
  leader hl := by
    rw [core_record_self] at hl ⊢
    exact led_record.mpr (Or.inl ⟨rfl, hl, rfl⟩)
  led m t hled := by
    rcases led_record.mp hled with ⟨rfl, hl, rfl⟩ | hl
    · cases h.voteMove with
      | keep ht hv hs hp hq =>
        rcases hs with hs | ⟨hs, -⟩
        · simp [hs] at hl
        · rw [ht]
          exact Or.inl (hi.leader n (hs ▸ hl))
      | bump ht hv hs hq => simp [hs] at hl
      | stand => simp [RaftCore.stand] at hl
      | grant ht hv hp ht' hv' hs' hp' =>
        rcases hs' with hs | ⟨heq, hs, -⟩
        · simp [hs] at hl
        · rw [ht', ← heq]
          exact Or.inl (hi.leader n (hs ▸ hl))
      | collect ht hcand hg => simp [RaftCore.collect, hcand] at hl
      | win ht hcand hg hq hs r =>
        have hel := hi.elected_of_win hn hcand hg he (le_antisymm ht (hf hcand hg)) hq
        exact Or.inr (hel.mono fun _ hm => mem_net_record_of_mem hm)
    · exact Or.inl hl

end record

theorem ballot_crashed (hi : VoteInv cfg c) {n : NodeId} (hn : n ∈ cfg.nodes) (t rnd : ℕ) :
    Ballot cfg c n (c.crashed cfg n t rnd) where
  mem := hn
  others m hm := by simp [crashed, setNode, hm]
  net _ hm := hm
  id := by simp [crashed]
  peers := by simp [crashed]
  disk := by simp [crashed, Mirror.VoteOf]
  term_le := by
    have h := ((hi.disk n).termActions t).1
    simpa [crashed] using h
  vote_kept heq := by
    have h := ((hi.disk n).termActions t).2
    simp only [crashed, core_setNode_self, Config.restart_currentTerm,
      Config.restart_votedFor] at heq ⊢
    exact Or.inr (h heq)
  stood _ _ _ hp := Or.inl hp
  granted _ _ _ hv := Or.inl hv
  candidate := by simp [crashed]
  led_mono _ _ hl := hl
  leader := by simp [crashed]
  led _ _ hl := Or.inl hl

theorem voteInv_init (cfg : Config) : VoteInv cfg cfg.init where
  id _ := rfl
  peers _ := rfl
  disk _ := ⟨rfl, rfl⟩
  voted v t x hv := by simp [Voted, Granted, Stood, net, Config.init] at hv
  unique v t x y hv := by simp [Voted, Granted, Stood, net, Config.init] at hv
  stood_unique x t p q hp := by simp [Stood, net, Config.init] at hp
  stood_mem x t p hp := by simp [Stood, net, Config.init] at hp
  granted v t x hv := by simp [Granted, net, Config.init] at hv
  candidate n hc := by cases hc
  leader n hl := by cases hl
  led n t hl := by simp [Led, Config.init] at hl

/-- One step keeps the invariant of the votes. -/
theorem voteInv_step {i : Input} (hi : VoteInv cfg c) (hf : c.FreshVotes i)
    (hs : cfg.machine.step c i = some c') : VoteInv cfg c' := by
  rcases step_cases hs with ⟨n, request, rnd, after, actions, rfl, hn, he, ho, rfl⟩ |
    ⟨n, t, rnd, hn, rfl, -⟩
  · exact hi.step (ballot_record hi hn he hf ho)
  · exact hi.step (ballot_crashed hi hn t rnd)

theorem voteInv_run (h : cfg.machine.Run FreshVotes cfg.init c) : VoteInv cfg c :=
  h.invariant (voteInv_init cfg) fun _ _ _ hi hf hs => voteInv_step hi hf hs

theorem VoteInv.oneLeader (hi : VoteInv cfg c) : c.OneLeader :=
  fun n m t hn hm => hi.elected_unique (hi.led n t hn) (hi.led m t hm)

/-- Election safety : where no candidate is handed a vote of an earlier term, the leaders of
one term are one node, whether they lead now or led at any time of the run. -/
theorem election_safety (h : cfg.machine.Run FreshVotes cfg.init c) :
    c.OneLeader ∧ ∀ n, (c.core n).state = .leader → c.Led n (c.core n).currentTerm :=
  ⟨(voteInv_run h).oneLeader, (voteInv_run h).leader⟩

/-- Two elections among three nodes, the second after a crash of the first leader. -/
def twoElections : List Input :=
  [.call 1 .tick 1, .call 2 (.message (.requestVote ⟨1, 1, 0, 0⟩)) 1,
    .call 1 (.message (.requestVoteResponse ⟨2, 1, true⟩)) 1, .crash 1 1, .call 2 .tick 1,
    .call 3 (.message (.requestVote ⟨2, 2, 0, 0⟩)) 1,
    .call 2 (.message (.requestVoteResponse ⟨3, 2, true⟩)) 1]

theorem election_safety_twoElections :
    ∃ c, Config.trio.machine.Run FreshVotes Config.trio.init c ∧ (c.core 2).state = .leader ∧
      (c.core 2).currentTerm = 2 ∧ ∀ n, c.Led n 2 → n = 2 := by
  obtain ⟨c, hc, hs, ht⟩ := Config.trio.machine.exists_run_of_exec FreshVotes Config.trio.init
    twoElections (fun c => (c.core 2).state = .leader ∧ (c.core 2).currentTerm = 2)
    (by decide +kernel) (by decide +kernel)
  have hled := (election_safety hc).2 2 hs
  rw [ht] at hled
  exact ⟨c, hc, hs, ht, fun n hn => (election_safety hc).1 n 2 2 hn hled⟩

/-- A vote of term 1 reaches its candidate in term 2, while the voter's vote of term 2 goes
to another candidate. -/
def staleVote : List Input :=
  [.call 1 .tick 1, .call 2 (.message (.requestVote ⟨1, 1, 0, 0⟩)) 1, .call 1 .tick 1,
    .call 1 (.message (.requestVoteResponse ⟨2, 1, true⟩)) 1, .call 3 .tick 1,
    .call 3 .tick 1, .call 2 (.message (.requestVote ⟨2, 3, 0, 0⟩)) 1,
    .call 3 (.message (.requestVoteResponse ⟨2, 2, true⟩)) 1]

theorem two_leaders_of_staleVote :
    ∃ c, Config.trio.machine.Run (fun _ _ => True) Config.trio.init c ∧
      (c.core 1).state = .leader ∧ (c.core 3).state = .leader ∧
      (c.core 1).currentTerm = (c.core 3).currentTerm :=
  Config.trio.machine.exists_run_of_exec _ Config.trio.init staleVote _ (by decide +kernel)
    (Machine.execOk_true _ _)

end Cluster

end FerrisFerry
