import FerrisFerry.Election
import FerrisFerry.Tree

/-!
# How a term is opened

`Cluster.Sound` collects the conditions under which the code keeps to the protocol. Each
names a branch that a handler lacks or gets wrong.

Under these conditions every AppendEntries and every snapshot in flight was sent by the
leader of its term to another node (`Cluster.HonestInv`), and every term of the tree was
opened by a majority of votes for a candidate whose log ended in an earlier term
(`Cluster.opened`).
-/

namespace FerrisFerry

namespace Cluster

/-- The steps on which the code keeps to the protocol :
* no candidate is handed a vote of an earlier term;
* a request without a previous entry that is accepted meets a node without a snapshot;
* an answer to an append finds a leader after the term check, a success one of the term it
  answers, and a failure says where the logs part. -/
def Sound (c : Cluster) : Input → Prop
  | .call n (.message (.requestVoteResponse resp)) _ =>
    (c.core n).state = .candidate → resp.voteGranted = true →
      (c.core n).currentTerm ≤ resp.term
  | .call n (.message (.appendEntries req)) _ =>
    (c.core n).Heeds req → req.prevLogIndex = 0 → (c.core n).lastIncludedIndex = 0
  | .call n (.message (.appendEntriesResponse resp)) _ =>
    (c.core n).LeadsAt resp.term ∧
      (resp.success = true → resp.term = (c.core n).currentTerm) ∧
      (resp.success = false → 0 < resp.firstConflictingIndex.getD 0)
  | _ => True

instance (c : Cluster) : (i : Input) → Decidable (c.Sound i)
  | .call n (.message (.requestVoteResponse resp)) _ =>
    inferInstanceAs (Decidable ((c.core n).state = .candidate → resp.voteGranted = true →
      (c.core n).currentTerm ≤ resp.term))
  | .call n (.message (.appendEntries req)) _ =>
    inferInstanceAs (Decidable ((c.core n).Heeds req → req.prevLogIndex = 0 →
      (c.core n).lastIncludedIndex = 0))
  | .call n (.message (.appendEntriesResponse resp)) _ =>
    inferInstanceAs (Decidable ((c.core n).LeadsAt resp.term ∧
      (resp.success = true → resp.term = (c.core n).currentTerm) ∧
      (resp.success = false → 0 < resp.firstConflictingIndex.getD 0)))
  | .call _ (.message (.requestVote _)) _ | .call _ (.message (.installSnapshot _)) _
  | .call _ (.message (.installSnapshotResponse _)) _ | .call _ .tick _ | .call _ (.propose _) _
  | .call _ .readBarrier _ | .call _ (.snapshot _) _ | .crash _ _ | .crashAfterTermCheck _ _ _ =>
    inferInstanceAs (Decidable True)

variable {cfg : Config} {c c' : Cluster} {n : NodeId} {rnd : ℕ} {request : Request}
  {after : RaftCore} {actions : List Action}

theorem Sound.freshVotes {i : Input} (h : c.Sound i) : c.FreshVotes i := by
  unfold FreshVotes
  split
  · exact h
  · trivial

theorem Sound.grounded (h : c.Sound (.call n request rnd)) : (c.core n).Grounded request := by
  rintro req rfl
  exact h

/-! ## Who sends what -/

/-- Requests come from the leader of their term and go to another node, and so do answers. -/
structure HonestInv (cfg : Config) (c : Cluster) : Prop where
  append : ∀ dst req, (dst, .appendEntries req) ∈ c.net →
    c.Led req.leaderId req.term ∧ req.leaderId ≠ dst
  install : ∀ dst req, (dst, .installSnapshot req) ∈ c.net →
    c.Led req.leaderId req.term ∧ req.leaderId ≠ dst
  appendResponse : ∀ dst resp, (dst, .appendEntriesResponse resp) ∈ c.net →
    resp.id ∈ cfg.nodes ∧ resp.id ≠ dst
  installResponse : ∀ dst resp, (dst, .installSnapshotResponse resp) ∈ c.net →
    resp.id ∈ cfg.nodes ∧ resp.id ≠ dst

/-- What speaks for a leader is sent by one, to another node. -/
theorem HonestInv.leading (hi : HonestInv cfg c) (hv : VoteInv cfg c) (he : c.Enabled n request)
    (hs : c.Sound (.call n request rnd)) (ho : (c.core n).Outcome rnd request after actions)
    {a : Action} (ha : a ∈ actions) (hl : a.Leading) : ∃ peer ∈ (c.core n).peers,
      after.buildAppendEntriesForPeer peer = some a ∧ after.state = .leader := by
  obtain ⟨peer, hb, ⟨hst, hp⟩ | ⟨resp, rfl, hf, rfl⟩⟩ := ho.built ha hl
  · exact ⟨peer, hp, hb, hst⟩
  · refine ⟨resp.id, hv.mem_peers.mpr (hi.appendResponse n resp he), hb, ?_⟩
    have hlead := (RaftCore.leadsAt_iff rnd).mp hs.1
    cases ho with
    | success hs' => simp [hf] at hs'
    | failure => exact hlead

/-- A call keeps the messages honest. -/
theorem honestInv_record (hi : HonestInv cfg c) (hv : VoteInv cfg c) (hn : n ∈ cfg.nodes)
    (he : c.Enabled n request) (hs : c.Sound (.call n request rnd))
    (ho : (c.core n).Outcome rnd request after actions) :
    HonestInv cfg (c.record n request after actions) := by
  have hid : after.id = n := ho.id_eq.1.trans (hv.id n)
  have hled : after.state = .leader →
      (c.record n request after actions).Led n after.currentTerm := fun hl =>
    led_record.mpr (Or.inl ⟨rfl, hl, rfl⟩)
  refine ⟨fun dst req hm => ?_, fun dst req hm => ?_, fun dst resp hm => ?_, fun dst resp hm => ?_⟩
  · rcases mem_net_record (by simp) hm with hm | hm
    · obtain ⟨peer, hp, hb, hl⟩ := hi.leading hv he hs ho hm trivial
      rcases RaftCore.buildAppendEntriesForPeer_cases hb with h | ⟨k, -, es, h, -⟩
      · cases h
      · cases h
        rw [show (after.requestFrom _ es).leaderId = n from hid]
        exact ⟨hled hl, (hv.mem_peers.mp hp).2.symm⟩
    · exact (hi.append dst req hm).imp_left fun h => led_record.mpr (Or.inr h)
  · rcases installSnapshot_mem_net_record ho hm with ⟨hsend, hlid, hterm, -⟩ | hm
    · obtain ⟨peer, hp, hb, hl⟩ := hi.leading hv he hs ho hsend trivial
      rcases RaftCore.buildAppendEntriesForPeer_cases hb with h | ⟨k, -, es, h, -⟩
      · rw [hlid, hterm, (Action.sendInstallSnapshot.inj h).1]
        exact ⟨hled hl, (hv.mem_peers.mp hp).2.symm⟩
      · cases h
    · exact (hi.install dst req hm).imp_left fun h => led_record.mpr (Or.inr h)
  · rcases mem_net_record (by simp) hm with hm | hm
    · cases ho.emits hm with
      | leading hb => exact (RaftCore.leading_of_build hb).elim
      | answer hr hid' =>
        subst hr
        rw [hid', hv.id n]
        exact ⟨hn, (hi.append n _ he).2.symm⟩
    · exact hi.appendResponse dst resp hm
  · rcases mem_net_record (by simp) hm with hm | hm
    · cases ho.emits hm with
      | leading hb => exact (RaftCore.leading_of_build hb).elim
      | snapshotAnswer hr hid' =>
        subst hr
        rw [hid', hv.id n]
        exact ⟨hn, (hi.install n _ he).2.symm⟩
    · exact hi.installResponse dst resp hm

/-- A snapshot of a term does not reach the leader of that term. -/
theorem HonestInv.rooted (hi : HonestInv cfg c) (hu : c.OneLeader) (ht : TreeInv c)
    (he : c.Enabled n request) (hs : c.Sound (.call n request rnd)) :
    c.Rooted (.call n request rnd) := by
  refine ⟨hs.grounded, ?_⟩
  rintro req rfl hl heq
  obtain ⟨hled, hne⟩ := hi.install n req he
  rw [heq] at hled
  exact hne (hu _ _ _ hled (ht.leader n hl).1)

/-! ## Opened terms -/

/-- `v` voted in term `t` for a candidate whose log ended at `b`. -/
def Vote (c : Cluster) (v : NodeId) (t : ℕ) (b : Point) : Prop :=
  ∃ x, c.Voted v t x ∧ c.Stood x t b

/-- A leader put its first entry on top of the log it stood with. -/
structure OpenInv (c : Cluster) : Prop where
  candidate : ∀ n, (c.core n).state = .candidate → (c.core n).tip.term < (c.core n).currentTerm
  opened : ∀ n t, c.Led n t → ∃ b a, c.Link b ⟨b.index + 1, t⟩ a ∧ b.term < t ∧ c.Stood n t b

theorem openInv_record (hi : OpenInv c) (hv : VoteInv cfg c) (ht : TreeInv c)
    (hv' : VoteInv cfg (c.record n request after actions)) (he : c.Enabled n request)
    (hr : c.Rooted (.call n request rnd)) (ho : (c.core n).Outcome rnd request after actions) :
    OpenInv (c.record n request after actions) := by
  have hold : ∀ m t, c.Led m t → ∃ b a, (c.record n request after actions).Link b
      ⟨b.index + 1, t⟩ a ∧ b.term < t ∧ (c.record n request after actions).Stood m t b := by
    intro m t hl
    obtain ⟨b, a, hlink, hlt, dst, hb⟩ := hi.opened m t hl
    exact ⟨b, a, link_record_of_link hlink, hlt, dst, mem_net_record_of_mem hb⟩
  refine ⟨fun m hc => ?_, fun m t hl => ?_⟩
  · by_cases hm : m = n
    · subst hm
      rw [core_record_self] at hc ⊢
      obtain ⟨htip, hlt | ⟨hc', heq⟩⟩ := ho.voteMove.candidate hc
      · rw [htip]
        exact lt_of_le_of_lt (ht.tip_term m) hlt
      · rw [htip, heq]
        exact hi.candidate m hc'
    · rw [core_record_of_ne hm] at hc ⊢
      exact hi.candidate m hc
  · rcases led_record.mp hl with ⟨rfl, hs, rfl⟩ | hl'
    · obtain ⟨-, -, hmove⟩ := ht.move he hr (ho.logMove hr.1) ho.voteMove.vote_kept.1
      rcases hmove with ⟨-, hw⟩ | ⟨command, hp⟩
      · obtain ⟨hs₀, heq, -⟩ := hw hs
        rw [heq]
        exact hold n _ (ht.leader n hs₀).1
      · rw [hp.2.2.1]
        cases hst : (c.core n).state with
        | follower => exact absurd hst hp.1
        | leader => exact hold n _ (ht.leader n hst).1
        | candidate =>
          -- a win : the votes are for the log the candidate still has
          obtain ⟨⟨p, hp'⟩, -⟩ := hv'.led n _ hl
          obtain rfl : p = (c.core n).tip := by
            rcases stood_record (hv.id n) ho hp' with h | ⟨-, h, -⟩
            · exact (hv.candidate n hst).1 p (hp.2.2.1 ▸ h)
            · exact h
          refine ⟨(c.core n).tip, command,
            (ht.link_record_of_pushes hp).mpr (Or.inr ⟨rfl, rfl, rfl⟩),
            hi.candidate n hst, hp.2.2.1 ▸ hp'⟩
    · exact hold m t hl'

theorem openInv_crashed (hi : OpenInv c) (n : NodeId) (t rnd : ℕ) :
    OpenInv (c.crashed cfg n t rnd) := by
  refine ⟨fun m hc => ?_, hi.opened⟩
  have hcore : (c.crashed cfg n t rnd).core m = c.core m :=
    core_crashed_of_active (by simp [hc])
  rw [hcore] at hc ⊢
  exact hi.candidate m hc

/-- Every point above the root was opened by a majority of votes for a point of an earlier
term below it. -/
theorem opened (hv : VoteInv cfg c) (ht : TreeInv c) (hi : OpenInv c) :
    ht.tree.Opened cfg.nodes.toFinset c.Vote := by
  intro q hq hpos
  obtain ⟨p, a, hl⟩ : ∃ p a, c.Link p q a := by
    rcases ht.tree_mem.mp hq with rfl | hl
    · simp at hpos
    · exact hl
  obtain ⟨n, hn⟩ := ht.led p q a hl
  obtain ⟨b, a', hlink, hlt, hstood⟩ := hi.opened n q.term hn
  obtain ⟨-, V, hV, hVc, hvotes⟩ := hv.led n q.term hn
  have hl' := ht.tree_link ▸ hl
  have hlink' := ht.tree_link ▸ hlink
  -- the first entry of the term is at or below `q`
  have hfirst : b.index + 1 ≤ q.index := by
    by_contra hc
    have := ht.tree.chain hl' hlink' rfl (by dsimp only; omega)
    dsimp only at this
    omega
  have hanc := EntryTree.anc_of_term_eq (EntryTree.mem_of_link hlink') hq rfl hfirst
  exact ⟨b, ht.tree.down hlink', (EntryTree.anc_of_link hlink').trans hanc, hlt, V, hV, hVc,
    fun v hvV => ⟨n, hvotes v hvV, hstood⟩⟩

/-! ## Sound runs -/

/-- What holds along every sound run before any entry is committed. -/
structure BaseInv (cfg : Config) (c : Cluster) : Prop where
  vote : VoteInv cfg c
  honest : HonestInv cfg c
  tree : TreeInv c
  opens : OpenInv c

theorem BaseInv.rooted (hb : BaseInv cfg c) (he : c.Enabled n request)
    (hs : c.Sound (.call n request rnd)) : c.Rooted (.call n request rnd) :=
  hb.honest.rooted hb.vote.oneLeader hb.tree he hs

theorem baseInv_record (hb : BaseInv cfg c) (hn : n ∈ cfg.nodes) (he : c.Enabled n request)
    (hs : c.Sound (.call n request rnd)) (ho : (c.core n).Outcome rnd request after actions) :
    BaseInv cfg (c.record n request after actions) := by
  have hv := hb.vote.step (ballot_record hb.vote hn he hs.freshVotes ho)
  have hr := hb.rooted he hs
  exact ⟨hv, honestInv_record hb.honest hb.vote hn he hs ho,
    treeInv_record hb.tree hv.oneLeader he hr ho,
    openInv_record hb.opens hb.vote hb.tree hv he hr ho⟩

theorem baseInv_crashed (hb : BaseInv cfg c) (hn : n ∈ cfg.nodes) (t rnd : ℕ) :
    BaseInv cfg (c.crashed cfg n t rnd) :=
  ⟨hb.vote.step (ballot_crashed hb.vote hn t rnd),
    ⟨hb.honest.append, hb.honest.install, hb.honest.appendResponse, hb.honest.installResponse⟩,
    treeInv_crashed hb.tree n t rnd, openInv_crashed hb.opens n t rnd⟩

theorem baseInv_init (cfg : Config) : BaseInv cfg cfg.init where
  vote := voteInv_init cfg
  honest := by constructor <;> intro _ _ hm <;> simp [net, Config.init] at hm
  tree := treeInv_init cfg
  opens := ⟨fun _ hc => (by cases hc), fun _ _ hl => (by simp [Led, Config.init] at hl)⟩

end Cluster

end FerrisFerry
