import FerrisFerry.Progress
import FerrisFerry.Terms

/-!
# What is committed stays

A node holds a point if its log has come that far and it has not voted since for a
candidate below it (`Cluster.Holds`). A point that half of the nodes hold is decided
(`Cluster.Decided`) : it is on the path to every known point that voters rank at or above it
(`Cluster.BaseInv.anc`). `Cluster.SafeInv` says that every commit index, every snapshot and
every commit index in flight ends at a decided point, that an acknowledgement is a point the
sender holds, and that logs only move up in the order of voters.
-/

namespace FerrisFerry

namespace Cluster

/-- `v` has come to `z` and has not voted for less since. -/
def Holds (c : Cluster) (v : NodeId) (z : Point) : Prop :=
  z.term ≤ (c.core v).currentTerm ∧ z ≤ (c.core v).tip ∧
    ∀ t b, z.term < t → c.Vote v t b → z ≤ b

/-- Half of the nodes hold `x`, a point of term `t` or earlier. -/
def Decided (cfg : Config) (c : Cluster) (t : ℕ) (x : Point) : Prop :=
  c.Known x ∧ x.term ≤ t ∧ ∃ Q ⊆ cfg.nodes.toFinset,
    cfg.nodes.toFinset.card ≤ 2 * Q.card ∧ ∀ v ∈ Q, c.Holds v x

/-- The log of `p` agrees up to index `m` with the leader of term `t` : at a point of that
term that `p` holds, or at a decided one. -/
def Matched (cfg : Config) (c : Cluster) (p : NodeId) (t m : ℕ) : Prop :=
  ∃ x, x.index = m ∧ c.Known x ∧ x.term ≤ t ∧ (x.term = t → c.Holds p x) ∧
    (x.term < t → c.Decided cfg t x ∧ x ≤ (c.core p).tip)

variable {cfg : Config} {c c' : Cluster} {n : NodeId} {rnd : ℕ} {request : Request}
  {after : RaftCore} {actions : List Action}

theorem holds_root (c : Cluster) (v : NodeId) : c.Holds v Point.root :=
  ⟨Nat.zero_le _, Point.root_le _, fun _ b _ _ => Point.root_le b⟩

theorem decided_root (cfg : Config) (c : Cluster) (t : ℕ) : c.Decided cfg t Point.root :=
  ⟨Or.inl rfl, Nat.zero_le _, cfg.nodes.toFinset, Finset.Subset.refl _, by omega,
    fun v _ => holds_root c v⟩

theorem Holds.of_le {v : NodeId} {x y : Point} (h : c.Holds v x) (hle : y ≤ x)
    (ht : y.term = x.term) : c.Holds v y :=
  ⟨ht ▸ h.1, hle.trans h.2.1, fun t b hlt hv => hle.trans (h.2.2 t b (ht ▸ hlt) hv)⟩

theorem Decided.mono_term {t t' : ℕ} {x : Point} (h : c.Decided cfg t x) (hle : t ≤ t') :
    c.Decided cfg t' x :=
  ⟨h.1, h.2.1.trans hle, h.2.2⟩

/-- A decided point is below every known point that voters rank at or above it. -/
theorem BaseInv.anc (hb : BaseInv cfg c) {t : ℕ} {x q : Point} (hx : c.Decided cfg t x)
    (hq : c.Known q) (hle : x ≤ q) : hb.tree.tree.Anc x q := by
  obtain ⟨hk, -, Q, hQ, hQc, hhold⟩ := hx
  exact EntryTree.anc_of_acked (opened hb.vote hb.tree hb.opens) (hb.tree.tree_mem.mpr hk)
    ⟨Q, hQ, hQc, fun v hv => (hhold v hv).2.2⟩ (hb.tree.tree_mem.mpr hq) hle

/-- Who has not left the term of a point it has come to holds it. -/
theorem VoteInv.holds (hv : VoteInv cfg c) {v : NodeId} {x : Point}
    (ht : x.term = (c.core v).currentTerm) (hle : x ≤ (c.core v).tip) : c.Holds v x := by
  refine ⟨ht.le, hle, fun t b hlt hvote => ?_⟩
  obtain ⟨y, hy, -⟩ := hvote
  have := (hv.voted v t y hy).1
  omega

/-! ## Steps move forward -/

/-- A step of `n` raises its term and its log in the order of voters, and what it votes for
is at least its log. -/
structure Forward (c : Cluster) (n : NodeId) (c' : Cluster) : Prop where
  others : ∀ m ≠ n, c'.core m = c.core m
  link : ∀ p q a, c.Link p q a → c'.Link p q a
  term : (c.core n).currentTerm ≤ (c'.core n).currentTerm
  tip : (c.core n).tip ≤ (c'.core n).tip
  vote : ∀ v t b, c'.Vote v t b → c.Vote v t b ∨ v = n ∧ (c.core n).tip ≤ b

/-- A new vote of a step is for a log at least as far as the voter's. -/
theorem Ballot.vote (h : Ballot cfg c n c') (hi : VoteInv cfg c) {v : NodeId} {t : ℕ} {b : Point}
    (hv : c'.Vote v t b) : c.Vote v t b ∨ v = n ∧ (c.core n).tip ≤ b := by
  obtain ⟨x, hx, hs⟩ := hv
  rcases h.stood x t b hs with hs | ⟨rfl, rfl, -, hlt, -⟩
  · rcases hx with hx | ⟨rfl, p, hp⟩
    · rcases h.granted v t x hx with hx | ⟨rfl, -, -, p, hp, hle⟩
      · exact Or.inl ⟨x, Or.inl hx, hs⟩
      · exact Or.inr ⟨rfl, hi.stood_unique x t p b hp hs ▸ hle⟩
    · exact Or.inl ⟨v, Or.inr ⟨rfl, b, hs⟩, hs⟩
  · -- nobody has voted yet for who stands only now
    have hnot : ∀ p, ¬c.Stood x t p := fun p hp =>
      absurd (hi.voted x t x (Or.inr ⟨rfl, p, hp⟩)).1 (Nat.not_le.mpr hlt)
    rcases hx with hx | ⟨rfl, -⟩
    · rcases h.granted v t x hx with hx | ⟨rfl, -⟩
      · obtain ⟨-, p, hp⟩ := hi.granted v t x hx
        exact absurd hp (hnot p)
      · exact Or.inr ⟨rfl, le_rfl⟩
    · exact Or.inr ⟨rfl, le_rfl⟩

namespace Forward

theorem tip_le (h : Forward c n c') (v : NodeId) : (c.core v).tip ≤ (c'.core v).tip := by
  by_cases hv : v = n
  · exact hv ▸ h.tip
  · rw [h.others v hv]

theorem term_le (h : Forward c n c') (v : NodeId) :
    (c.core v).currentTerm ≤ (c'.core v).currentTerm := by
  by_cases hv : v = n
  · exact hv ▸ h.term
  · rw [h.others v hv]

theorem holds (h : Forward c n c') {v : NodeId} {z : Point} (hz : c.Holds v z) :
    c'.Holds v z := by
  refine ⟨hz.1.trans (h.term_le v), hz.2.1.trans (h.tip_le v), fun t b hlt hv => ?_⟩
  rcases h.vote v t b hv with hv | ⟨rfl, hle⟩
  · exact hz.2.2 t b hlt hv
  · exact hz.2.1.trans hle

theorem known (h : Forward c n c') {q : Point} (hq : c.Known q) : c'.Known q :=
  hq.mono h.link

theorem decided (h : Forward c n c') {t : ℕ} {x : Point} (hx : c.Decided cfg t x) :
    c'.Decided cfg t x := by
  obtain ⟨hk, ht, Q, hQ, hQc, hh⟩ := hx
  exact ⟨h.known hk, ht, Q, hQ, hQc, fun v hv => h.holds (hh v hv)⟩

theorem matched (h : Forward c n c') {p : NodeId} {t m : ℕ} (hm : c.Matched cfg p t m) :
    c'.Matched cfg p t m := by
  obtain ⟨x, hi, hk, ht, h1, h2⟩ := hm
  refine ⟨x, hi, h.known hk, ht, fun he => h.holds (h1 he), fun hlt => ?_⟩
  exact ⟨h.decided (h2 hlt).1, (h2 hlt).2.trans (h.tip_le p)⟩

end Forward

/-! ## The invariant -/

/-- What a leader knows of its peers. -/
structure Tracks (cfg : Config) (c : Cluster) (core : RaftCore) : Prop where
  keys : ∀ p ∈ core.peers, p ∈ core.matchIndex
  next : ∀ p ∈ core.peers, ∀ i, core.nextIndex.lookup p = some i → 0 < i
  matched : ∀ p m, core.matchIndex.lookup p = some m → c.Matched cfg p core.currentTerm m

/-- Every commit index and every snapshot ends at a decided point, and every
acknowledgement at a point the sender holds. -/
structure SafeInv (cfg : Config) (c : Cluster) : Prop where
  append : ∀ dst req, (dst, .appendEntries req) ∈ c.net → req.last.term = req.term ∧
    ∃ x, x.index = req.leaderCommit ∧ c.Decided cfg req.term x ∧ x ≤ req.last
  install : ∀ dst req, (dst, .installSnapshot req) ∈ c.net → c.Decided cfg req.term req.point
  ack : ∀ dst resp, (dst, .appendEntriesResponse resp) ∈ c.net → resp.success = true →
    c.Known ⟨resp.matchIndex, resp.term⟩ ∧ c.Holds resp.id ⟨resp.matchIndex, resp.term⟩
  installed : ∀ dst resp, (dst, .installSnapshotResponse resp) ∈ c.net →
    ∃ x, x.index = resp.lastIncludedIndex ∧ c.Decided cfg resp.term x ∧
      x ≤ (c.core resp.id).tip ∧ (x.term = resp.term → c.Holds resp.id x)
  commit : ∀ n, ∃ x, x.index = (c.core n).commitIndex ∧
    c.Decided cfg (c.core n).currentTerm x ∧ x ≤ (c.core n).tip
  base : ∀ n, c.Decided cfg (c.core n).currentTerm (c.core n).base
  applied : ∀ n, (c.core n).lastApplied = (c.core n).commitIndex
  keys : ∀ n, ∀ p ∈ (c.core n).matchIndex, p ∈ (c.core n).peers
  leader : ∀ n, (c.core n).state = .leader → Tracks cfg c (c.core n)

namespace SafeInv

/-- An accepted request leaves a log that ends in the term of the request. -/
theorem merged_term (hs : SafeInv cfg c) (hb : BaseInv cfg c) {req : AppendEntriesRPC}
    (he : (n, .appendEntries req) ∈ c.net) (h : (c.core n).Merges req after)
    (ht : after.tip.term ≤ after.currentTerm) :
    after.tip.term = req.term ∧ req.last ≤ after.tip := by
  obtain ⟨-, hanc, -⟩ := hb.tree.merged he h
  have hlast := (hs.append n req he).1
  have hle := hanc.term_le
  rw [h.term_eq] at ht
  exact ⟨by omega, hanc.le⟩

/-- Logs only move up in the order of voters. -/
theorem tip_le (hs : SafeInv cfg c) (hb : BaseInv cfg c) (he : c.Enabled n request)
    (hm : (c.core n).LogMove request after) (ht : after.tip.term ≤ after.currentTerm) :
    (c.core n).tip ≤ after.tip := by
  have hcore := hb.tree.tip_term n
  cases hm with
  | keep hb' hl => rw [RaftCore.tip, RaftCore.tip, hb', hl]
  | @push _ _ command _ _ hterm hb' hl =>
    have htip : after.tip = ⟨(c.core n).tip.index + 1, (c.core n).currentTerm⟩ := by
      rw [RaftCore.tip, RaftCore.tip, hb', hl, endPoint_append]
      rfl
    rw [htip, Point.le_def]
    dsimp only
    omega
  | @merge req _ h =>
    obtain ⟨hterm, -⟩ := hs.merged_term hb he h ht
    obtain ⟨-, hanc, hcases⟩ := hb.tree.merged he h
    have hlast := (hs.append n req he).1
    rcases Nat.lt_or_ge (c.core n).tip.term req.term with hlt | hge
    · exact Point.le_def.mpr (Or.inl (by omega))
    · -- both ends are entries of one leader, so the shorter log is part of the longer
      have heq : (c.core n).tip.term = req.term := by
        have := h.term_le
        omega
      have hkl : hb.tree.tree.Mem req.last := by
        obtain ⟨hk, hes, -⟩ := hb.tree.append n req he
        exact hb.tree.tree_mem.mpr (TreeInv.known_end hk hes)
      have hkt := hb.tree.tree_mem.mpr (hb.tree.known_tip n)
      rcases Nat.le_total req.last.index (c.core n).tip.index with hidx | hidx
      · have := hb.tree.merged_eq he h
          (EntryTree.anc_of_term_eq hkl hkt (hlast.trans heq.symm) hidx)
        rw [RaftCore.tip, RaftCore.tip, h.base_eq, this]
      · exact Point.le_def.mpr (Or.inr ⟨heq.trans hterm.symm, hidx.trans hanc.index_le⟩)
  | @install req _ _ _ _ hi hh hb' hl =>
    have htip : after.tip = req.point := by
      rw [RaftCore.tip, hb', hl]
      rfl
    rw [htip]
    by_contra hlt
    -- a decided point below the log would be on it
    have hanc := hb.anc (hs.install n req he) (hb.tree.known_tip n) (not_le.mp hlt).le
    have hpath := hb.tree.path n
    rw [← hb.tree.tree_link] at hpath
    exact hh (RaftCore.logTermAt_of_anc hpath hanc hi.le)
  | @compact _ _ k _ _ _ hb' hl =>
    rw [RaftCore.tip, RaftCore.tip, hb', hl, ← endPoint_append, List.take_append_drop]

/-- An acknowledgement of the leader's term matches. -/
theorem matched_of_ack (hs : SafeInv cfg c) {resp : AppendEntriesResponseRPC} {t : ℕ}
    (he : (n, .appendEntriesResponse resp) ∈ c.net) (hsucc : resp.success = true)
    (ht : resp.term = t) : c.Matched cfg resp.id t resp.matchIndex := by
  obtain ⟨hk, hh⟩ := hs.ack n resp he hsucc
  rw [ht] at hk hh
  exact ⟨_, rfl, hk, le_rfl, fun _ => hh, fun h => absurd h (lt_irrefl _)⟩

/-- An installed snapshot matches. -/
theorem matched_of_installed (hs : SafeInv cfg c) {resp : InstallSnapshotResponseRPC} {t : ℕ}
    (he : (n, .installSnapshotResponse resp) ∈ c.net) (ht : resp.term ≤ t) :
    c.Matched cfg resp.id t resp.lastIncludedIndex := by
  obtain ⟨x, hx, hd, hle, hh⟩ := hs.installed n resp he
  refine ⟨x, hx, hd.1, hd.2.1.trans ht, fun heq => hh ?_, fun _ => ⟨hd.mono_term ht, hle⟩⟩
  have := hd.2.1
  omega

end SafeInv

theorem Tracks.matched_insert {core : RaftCore} (h : Tracks cfg c core) {p₀ : NodeId} {m₀ : ℕ}
    (hm₀ : c.Matched cfg p₀ core.currentTerm m₀) (p : NodeId) (m : ℕ)
    (hm : (core.matchIndex.insert p₀ m₀).lookup p = some m) :
    c.Matched cfg p core.currentTerm m := by
  rcases lookup_insert_cases hm with ⟨rfl, rfl⟩ | ⟨-, hm⟩
  · exact hm₀
  · exact h.matched p m hm

/-- The steps of a sound run move forward. -/
theorem forward_record (hs : SafeInv cfg c) (hb : BaseInv cfg c) (hn : n ∈ cfg.nodes)
    (he : c.Enabled n request) (hok : c.Sound (.call n request rnd))
    (ho : (c.core n).Outcome rnd request after actions) :
    Forward c n (c.record n request after actions) := by
  have hr := hb.rooted he hok
  have hle := ho.voteMove.vote_kept.1
  have htip := (hb.tree.move he hr (ho.logMove hr.1) hle).2.1
  refine ⟨fun m hm => core_record_of_ne hm, fun p q a => link_record_of_link, ?_, ?_,
    fun v t b hv => (ballot_record hb.vote hn he hok.freshVotes ho).vote hb.vote hv⟩
  · rwa [core_record_self]
  · rw [core_record_self]
    exact hs.tip_le hb he (ho.logMove hr.1) htip

theorem forward_crashed (cfg : Config) (hb : BaseInv cfg c) (n : NodeId) (t rnd : ℕ) :
    Forward c n (c.crashed cfg n t rnd) := by
  obtain ⟨hlog, hbase⟩ := hb.tree.restart cfg n t rnd
  refine ⟨fun m hm => core_setNode_of_ne _ hm, fun _ _ _ h => h, ?_, ?_, fun _ _ _ h => Or.inl h⟩
  · simpa [crashed] using ((hb.tree.vote n).termActions t).1
  · rw [RaftCore.tip, RaftCore.tip, hlog, hbase]

/-! ## Commit by counting -/

section replicated

variable {M : AList fun _ : NodeId => ℕ} {i : ℕ}

/-- The peers whose match index is at least `i`. -/
def reached (M : AList fun _ : NodeId => ℕ) (i : ℕ) : Finset NodeId :=
  ((M.entries.filter fun e => i ≤ e.2).map Sigma.fst).toFinset

theorem mem_reached {p : NodeId} : p ∈ reached M i ↔ ∃ m, M.lookup p = some m ∧ i ≤ m := by
  simp only [reached, List.mem_toFinset, List.mem_map, List.mem_filter, decide_eq_true_eq]
  constructor
  · rintro ⟨⟨p, m⟩, ⟨hm, hi⟩, rfl⟩
    exact ⟨m, AList.mem_lookup_iff.mpr hm, hi⟩
  · rintro ⟨m, hm, hi⟩
    exact ⟨⟨p, m⟩, ⟨AList.mem_lookup_iff.mp hm, hi⟩, rfl⟩

theorem card_reached : (reached M i).card = (M.entries.map Sigma.snd).countP fun m => i ≤ m := by
  have hnodup : ((M.entries.filter fun e => i ≤ e.2).map Sigma.fst).Nodup :=
    M.keys_nodup.sublist (List.filter_sublist.map _)
  rw [reached, List.toFinset_card_of_nodup hnodup, List.length_map, List.countP_map,
    List.countP_eq_length_filter]
  rfl

/-- An index of the current term that the median of the match indices reaches is decided. -/
theorem decided_of_replicated (hb : BaseInv cfg c) (hn : n ∈ cfg.nodes)
    (hl : (c.core n).state = .leader) (hkeys : ∀ p ∈ M, p ∈ (c.core n).peers)
    (hall : ∀ p ∈ (c.core n).peers, p ∈ M)
    (hmatch : ∀ p m, M.lookup p = some m → c.Matched cfg p (c.core n).currentTerm m)
    (hi : (c.core n).logTermAt i = some (c.core n).currentTerm)
    (hrep : i ≤ ((M.entries.map Sigma.snd ++ [(c.core n).lastLogIndex]).insertionSort (· ≤ ·)).getD
      ((M.entries.map Sigma.snd ++ [(c.core n).lastLogIndex]).length / 2) 0) :
    c.Decided cfg (c.core n).currentTerm ⟨i, (c.core n).currentTerm⟩ := by
  have hpath := hb.tree.path n
  rw [← hb.tree.tree_link] at hpath
  have hanc := RaftCore.anc_tip_of_logTermAt hpath hi
  have hknown := hanc.mem (hb.tree.tree_mem.mpr (hb.tree.known_tip n))
  have hlast : i ≤ (c.core n).lastLogIndex := RaftCore.tip_index ▸ hanc.index_le
  have hnotin : n ∉ reached M i := by
    intro h
    obtain ⟨m, hm, -⟩ := mem_reached.mp h
    have hp := hkeys n (AList.lookup_isSome.mp (by rw [hm]; rfl))
    exact (hb.vote.mem_peers.mp hp).2 rfl
  refine ⟨hb.tree.tree_mem.mp hknown, le_rfl, insert n (reached M i), fun p hp => ?_, ?_,
    fun p hp => ?_⟩
  · rcases Finset.mem_insert.mp hp with rfl | hp
    · exact List.mem_toFinset.mpr hn
    · obtain ⟨m, hm, -⟩ := mem_reached.mp hp
      have hp := hkeys p (AList.lookup_isSome.mp (by rw [hm]; rfl))
      exact List.mem_toFinset.mpr (hb.vote.mem_peers.mp hp).1
  · -- the leader and at least half of the list
    have hcount := length_le_two_mul_countP (by simp) hrep
    rw [List.countP_append, List.countP_singleton, if_pos (decide_eq_true hlast),
      List.length_append, List.length_map, List.length_singleton] at hcount
    rw [Finset.card_insert_of_notMem hnotin, card_reached]
    have hsub : cfg.nodes.toFinset ⊆ insert n M.keys.toFinset := by
      intro x hx
      by_cases hxn : x = n
      · simp [hxn]
      · refine Finset.mem_insert_of_mem (List.mem_toFinset.mpr (hall x ?_))
        exact hb.vote.mem_peers.mpr ⟨List.mem_toFinset.mp hx, hxn⟩
    have hcard : cfg.nodes.toFinset.card ≤ M.entries.length + 1 := by
      calc cfg.nodes.toFinset.card ≤ (insert n M.keys.toFinset).card := Finset.card_le_card hsub
        _ ≤ M.keys.toFinset.card + 1 := Finset.card_insert_le _ _
        _ ≤ M.keys.length + 1 := Nat.succ_le_succ (List.toFinset_card_le _)
        _ = M.entries.length + 1 := by rw [AList.keys, List.keys, List.length_map]
    omega
  · rcases Finset.mem_insert.mp hp with rfl | hp
    · exact hb.vote.holds rfl hanc.le
    · obtain ⟨m, hm, him⟩ := mem_reached.mp hp
      obtain ⟨x, rfl, -, hxt, hx1, hx2⟩ := hmatch p m hm
      rcases Nat.lt_or_ge x.term (c.core n).currentTerm with hlt | hge
      · -- a decided point of an earlier term lies below every entry of this one
        have hxtip : x ≤ (c.core n).tip :=
          Point.le_def.mpr (Or.inl (by rw [(hb.tree.leader n hl).2.1]; exact hlt))
        have hxanc := hb.anc (hx2 hlt).1 (hb.tree.known_tip n) hxtip
        have := (EntryTree.anc_total hanc hxanc him).term_le
        dsimp only at this
        omega
      · have heq : x.term = (c.core n).currentTerm := le_antisymm hxt hge
        exact (hx1 heq).of_le (Point.le_def.mpr (Or.inr ⟨heq.symm, him⟩)) heq.symm

end replicated

/-! ## One call -/

theorem keys_record (hs : SafeInv cfg c) (hb : BaseInv cfg c) (he : c.Enabled n request)
    (ho : (c.core n).Outcome rnd request after actions) :
    ∀ p ∈ after.matchIndex, p ∈ after.peers := by
  rw [ho.id_eq.2]
  intro p hp
  have hold : after.matchIndex = (c.core n).matchIndex → p ∈ (c.core n).peers := fun hm =>
    hs.keys n p (hm ▸ hp)
  cases ho.indexMove with
  | keep h => exact hold h.matchIndex
  | reset _ _ _ hm =>
    rw [hm, ← AList.lookup_isSome, lookup_foldl_insert] at hp
    split_ifs at hp with hmem
    · exact hmem
    · exact hs.keys n p (AList.lookup_isSome.mp hp)
  | follow _ _ hm => exact hold hm
  | install hm => exact hold hm
  | @record resp _ _ _ hr =>
    rw [hr.frame, AList.mem_insert, RaftCore.termChecked_matchIndex] at hp
    rcases hp with rfl | hp
    · exact hb.vote.mem_peers.mpr (hb.honest.appendResponse n resp he)
    · exact hs.keys n p hp
  | backOff => exact hold (RaftCore.termChecked_matchIndex _ _ _)
  | @matched resp =>
    rcases (AList.mem_insert _).mp hp with rfl | hp
    · exact hb.vote.mem_peers.mpr (hb.honest.installResponse n resp he)
    · exact hs.keys n p hp

section record

variable (hs : SafeInv cfg c) (hb : BaseInv cfg c) (hn : n ∈ cfg.nodes) (he : c.Enabled n request)
  (hok : c.Sound (.call n request rnd)) (ho : (c.core n).Outcome rnd request after actions)

include hs hb hn he hok ho

/-- The commit index after a call is at a decided point of the log. -/
theorem commit_record : ∃ x, x.index = after.commitIndex ∧
    (c.record n request after actions).Decided cfg after.currentTerm x ∧ x ≤ after.tip := by
  have hf := forward_record hs hb hn he hok ho
  have hterm := hf.term
  have htip := hf.tip
  rw [core_record_self] at hterm htip
  have hold : after.commitIndex = (c.core n).commitIndex → ∃ x, x.index = after.commitIndex ∧
      (c.record n request after actions).Decided cfg after.currentTerm x ∧ x ≤ after.tip := by
    intro hc
    obtain ⟨x, hx, hd, hle⟩ := hs.commit n
    exact ⟨x, hx.trans hc.symm, (hf.decided hd).mono_term hterm, hle.trans htip⟩
  have hr := hb.rooted he hok
  have hmt := (hb.tree.move he hr (ho.logMove hr.1) ho.voteMove.vote_kept.1).2.1
  cases ho.indexMove with
  | keep h => exact hold h.commitIndex
  | reset _ hc => exact hold hc
  | @follow req _ _ hacc _ _ hc =>
    have hm := hacc.merges (hok hacc.heeds)
    obtain ⟨-, x, hx, hd, hle⟩ := hs.append n req he
    have hlast := (hs.merged_term hb he hm hmt).2
    refine ⟨x, ?_, hm.term_eq ▸ hf.decided hd, hle.trans hlast⟩
    -- the log reaches the leader's commit index
    have hb' := baseInv_record hb hn he hok ho
    have hanc := hb'.anc (hf.decided hd) (hb'.tree.known_tip n)
      (by rw [core_record_self]; exact hle.trans hlast)
    have hidx := hanc.index_le
    rw [core_record_self, RaftCore.tip_index] at hidx
    rw [hc, hx, min_eq_left (hx ▸ hidx)]
  | @install req _ _ _ hc _ ht hbase =>
    refine ⟨req.point, hc.symm, ht ▸ hf.decided (hs.install n req he), ?_⟩
    rw [hbase]
    exact le_rfl
  | @record resp _ recorded hsucc hrec =>
    obtain ⟨hlead, hresp, -⟩ := hok
    rw [RaftCore.termChecked_of_le hlead.1] at hrec
    have hfr := hrec.frame
    rcases hrec.commit with hc | ⟨-, hrep, hterm'⟩
    · exact hold hc
    · have hT : after.currentTerm = (c.core n).currentTerm := by rw [hfr]
      have htrack := hs.leader n hlead.2
      refine ⟨⟨after.commitIndex, (c.core n).currentTerm⟩, rfl, ?_, ?_⟩
      · rw [hT]
        refine hf.decided (decided_of_replicated (M := after.matchIndex) hb hn hlead.2 ?_ ?_ ?_
          hterm' ?_)
        · intro p hp
          rw [hfr, AList.mem_insert] at hp
          rcases hp with rfl | hp
          · exact hb.vote.mem_peers.mpr (hb.honest.appendResponse n resp he)
          · exact hs.keys n p hp
        · intro p hp
          rw [hfr, AList.mem_insert]
          exact Or.inr (htrack.keys p hp)
        · intro p m hm
          rw [hfr] at hm
          exact htrack.matched_insert (hs.matched_of_ack he hsucc (hresp hsucc)) p m hm
        · have hlast : after.lastLogIndex = (c.core n).lastLogIndex := by
            rw [hfr]
            rfl
          rw [← hlast]
          exact hrep
      · have hpath := hb.tree.path n
        rw [← hb.tree.tree_link] at hpath
        exact (RaftCore.anc_tip_of_logTermAt hpath hterm').le.trans htip
  | backOff => exact hold (RaftCore.termChecked_commitIndex _ _ _)
  | matched => exact hold rfl

theorem base_record :
    (c.record n request after actions).Decided cfg after.currentTerm after.base := by
  have hf := forward_record hs hb hn he hok ho
  have hterm := hf.term
  rw [core_record_self] at hterm
  have hold := (hf.decided (hs.base n)).mono_term hterm
  cases ho.logMove (hb.rooted he hok).1 with
  | keep hb' => rwa [hb']
  | push _ _ _ hb' => rwa [hb']
  | merge h => rwa [h.base_eq]
  | @install req _ _ ht _ _ _ hb' =>
    rw [hb', ht]
    exact hf.decided (hs.install n req he)
  | @compact _ _ k _ hk hi hb' =>
    -- the snapshot ends at the commit index
    obtain ⟨x, hx, hd, hle⟩ := hs.commit n
    have hpath := hb.tree.path n
    rw [← hb.tree.tree_link] at hpath
    have hpt : after.base = x := by
      refine EntryTree.anc_unique (hb' ▸ EntryTree.anc_take hpath k)
        (hb.anc hd (hb.tree.known_tip n) hle) ?_
      rw [hb', endPoint_index, List.length_take, min_eq_left hk, RaftCore.base_index, ← hi, hx,
        hs.applied n]
    rw [hpt]
    exact (hf.decided hd).mono_term hterm

/-- An old leader keeps what it knows; new entries of its maps are checked one by one. -/
theorem tracks_of_leader (hl : (c.core n).state = .leader)
    (ht : after.currentTerm = (c.core n).currentTerm)
    (hk : ∀ p ∈ (c.core n).matchIndex, p ∈ after.matchIndex)
    (hnx : ∀ p i, after.nextIndex.lookup p = some i →
      0 < i ∨ (c.core n).nextIndex.lookup p = some i)
    (hm : ∀ p m, after.matchIndex.lookup p = some m → c.Matched cfg p (c.core n).currentTerm m) :
    Tracks cfg (c.record n request after actions) after := by
  have hf := forward_record hs hb hn he hok ho
  have htrack := hs.leader n hl
  refine ⟨fun p hp => hk p (htrack.keys p (ho.id_eq.2 ▸ hp)), fun p hp i hi => ?_,
    fun p m hpm => ht ▸ hf.matched (hm p m hpm)⟩
  exact (hnx p i hi).elim (fun h => h) (htrack.next p (ho.id_eq.2 ▸ hp) i)

/-- A leader's knowledge of its peers after a call. -/
theorem tracks_record (hl : after.state = .leader) :
    Tracks cfg (c.record n request after actions) after := by
  have hold := tracks_of_leader hs hb hn he hok ho
  cases ho.indexMove with
  | keep h hst =>
    obtain ⟨hl₀, ht⟩ := hst hl
    refine hold hl₀ ht (fun p hp => h.matchIndex ▸ hp) (fun p i hi => Or.inr (h.nextIndex ▸ hi))
      fun p m hm => (hs.leader n hl₀).matched p m (h.matchIndex ▸ hm)
  | reset _ _ _ hm hnx =>
    refine ⟨fun p hp => ?_, fun p hp i hi => ?_, fun p m hpm => ?_⟩
    · rw [ho.id_eq.2] at hp
      rw [hm, ← AList.lookup_isSome, lookup_foldl_insert, if_pos hp]
      rfl
    · rw [ho.id_eq.2] at hp
      rw [hnx, lookup_foldl_insert, if_pos hp] at hi
      have := Option.some.inj hi
      omega
    · rw [hm, lookup_foldl_insert] at hpm
      split_ifs at hpm with hmem
      · obtain rfl := Option.some.inj hpm
        have hb' :=
          (baseInv_record hb hn he hok ho).tree.active n (by rw [core_record_self, hl]; simp)
        rw [core_record_self] at hb'
        refine ⟨Point.root, rfl, Or.inl rfl, Nat.zero_le _, fun h => ?_, fun _ =>
          ⟨decided_root cfg _ _, Point.root_le _⟩⟩
        rw [← h] at hb'
        exact absurd hb' (lt_irrefl _)
      · exact absurd (hs.keys n p (AList.lookup_isSome.mp (by rw [hpm]; rfl))) hmem
  | follow hst => simp [hst] at hl
  | install _ _ _ _ _ _ hst =>
    rcases hst with hst | ⟨hst, heq⟩
    · simp [hst] at hl
    · exact absurd heq ((hb.rooted he hok).2 _ rfl (hst ▸ hl))
  | @record resp _ _ hsucc hr =>
    obtain ⟨hlead, hresp, -⟩ := hok
    rw [RaftCore.termChecked_of_le hlead.1] at hr
    have hfr := hr.frame
    refine hold hlead.2 (by rw [hfr]) (fun p hp => ?_) (fun p i hi => ?_) fun p m hm => ?_
    · rw [hfr]
      exact (AList.mem_insert _).mpr (Or.inr hp)
    · rw [hfr] at hi
      rcases lookup_insert_cases hi with ⟨-, rfl⟩ | ⟨-, hi⟩
      · exact Or.inl (Nat.succ_pos _)
      · exact Or.inr hi
    · rw [hfr] at hm
      exact (hs.leader n hlead.2).matched_insert (hs.matched_of_ack he hsucc (hresp hsucc)) p m hm
  | @backOff resp hfail =>
    obtain ⟨hlead, -, hconf⟩ := hok
    rw [RaftCore.termChecked_of_le hlead.1] at hold ⊢
    refine hold hlead.2 rfl (fun _ hp => hp) (fun p i hi => ?_)
      fun p m hm => (hs.leader n hlead.2).matched p m hm
    rcases lookup_replace_cases hi with ⟨-, rfl⟩ | hi
    · exact Or.inl (hconf hfail)
    · exact Or.inr hi
  | @matched resp ht hl₀ =>
    refine hold hl₀ rfl (fun p hp => (AList.mem_insert _).mpr (Or.inr hp)) (fun p i hi => ?_)
      fun p m hm => (hs.leader n hl₀).matched_insert (hs.matched_of_installed he ht) p m hm
    rcases lookup_insert_cases hi with ⟨-, rfl⟩ | ⟨-, hi⟩
    · exact Or.inl (Nat.succ_pos _)
    · exact Or.inr hi

/-- A request of a leader carries the rest of its log and its commit index. -/
theorem append_record {dst : NodeId} {req : AppendEntriesRPC}
    (hm : .sendMessage dst (.appendEntries req) ∈ actions) : req.last.term = req.term ∧
      ∃ x, x.index = req.leaderCommit ∧
        (c.record n request after actions).Decided cfg req.term x ∧ x ≤ req.last := by
  obtain ⟨peer, hp, hbuild, hl⟩ := hb.honest.leading hb.vote he hok ho hm trivial
  have htree := (baseInv_record hb hn he hok ho).tree
  have hlead := (htree.leader n (by rwa [core_record_self])).2.1
  rw [core_record_self] at hlead
  rcases RaftCore.buildAppendEntriesForPeer_cases hbuild with h | ⟨k, -, es, h, hes⟩
  · cases h
  · cases h
    have hlast : (after.requestFrom (endPoint after.base (after.log.take k)) es).last =
        after.tip := by
      rcases hes with rfl | ⟨-, -, -, h0⟩
      · change endPoint (endPoint _ _) (after.log.drop k) = _
        rw [← endPoint_append, List.take_append_drop, RaftCore.tip]
      · -- a leader's next index is never `0`
        exfalso
        have htrack := tracks_record hs hb hn he hok ho hl
        cases hlook : after.nextIndex.lookup dst with
        | some i =>
          have := htrack.next dst (ho.id_eq.2 ▸ hp) i hlook
          rw [hlook, Option.getD_some] at h0
          omega
        | none =>
          rw [hlook, Option.getD_none] at h0
          have hknown := htree.known_tip n
          rw [core_record_self] at hknown
          have hroot := htree.eq_root hknown (RaftCore.tip_index.trans h0)
          have hpos := htree.active n (by rw [core_record_self, hl]; simp)
          rw [core_record_self, ← hlead, hroot] at hpos
          exact absurd hpos (lt_irrefl _)
    rw [hlast]
    exact ⟨hlead, commit_record hs hb hn he hok ho⟩

/-- A follower acknowledges the end of its log. -/
theorem ack_record {dst : NodeId} {resp : AppendEntriesResponseRPC}
    (hm : .sendMessage dst (.appendEntriesResponse resp) ∈ actions) (hsucc : resp.success = true) :
    (c.record n request after actions).Known ⟨resp.matchIndex, resp.term⟩ ∧
      (c.record n request after actions).Holds resp.id ⟨resp.matchIndex, resp.term⟩ := by
  have hb' := baseInv_record hb hn he hok ho
  have hr := hb.rooted he hok
  have hmt := (hb.tree.move he hr (ho.logMove hr.1) ho.voteMove.vote_kept.1).2.1
  cases ho.emits hm with
  | leading hbuild => exact (RaftCore.leading_of_build hbuild).elim
  | answer hreq hid hacc =>
    subst hreq
    obtain ⟨rfl, haccepts⟩ := hacc hsucc
    have hmerge := haccepts.merges (hok haccepts.heeds)
    have hterm := (hs.merged_term hb he hmerge hmt).1
    have hpt : (⟨after.lastLogIndex, after.currentTerm⟩ : Point) = after.tip := by
      refine Point.ext RaftCore.tip_index.symm ?_
      rw [hterm, hmerge.term_eq]
    have hn' : after.id = n := ho.id_eq.1.trans (hb.vote.id n)
    change Known _ ⟨after.lastLogIndex, after.currentTerm⟩ ∧
      Holds _ after.id ⟨after.lastLogIndex, after.currentTerm⟩
    rw [hn']
    refine ⟨?_, hb'.vote.holds (by rw [core_record_self]) (by rw [core_record_self, hpt])⟩
    have hknown := hb'.tree.known_tip n
    rwa [core_record_self, ← hpt] at hknown

/-- A node answers a snapshot with a decided point of its log. -/
theorem installed_record {dst : NodeId} {resp : InstallSnapshotResponseRPC}
    (hm : .sendMessage dst (.installSnapshotResponse resp) ∈ actions) :
    ∃ x, x.index = resp.lastIncludedIndex ∧
      (c.record n request after actions).Decided cfg resp.term x ∧
      x ≤ ((c.record n request after actions).core resp.id).tip ∧
      (x.term = resp.term → (c.record n request after actions).Holds resp.id x) := by
  have hf := forward_record hs hb hn he hok ho
  have hb' := baseInv_record hb hn he hok ho
  have hpath := hb'.tree.path n
  rw [core_record_self, ← hb'.tree.tree_link] at hpath
  cases ho.emits hm with
  | leading hbuild => exact (RaftCore.leading_of_build hbuild).elim
  | @snapshotAnswer req _ hreq hid ht hi =>
    have hn' : resp.id = n := hid.trans (hb.vote.id n)
    obtain ⟨x, hx, hd, hle⟩ : ∃ x, x.index = resp.lastIncludedIndex ∧
        (c.record n request after actions).Decided cfg resp.term x ∧ x ≤ after.tip := by
      rcases hi with hi | ⟨hi, hterm, hlog⟩
      · refine ⟨after.base, hi.symm, ht ▸ base_record hs hb hn he hok ho, ?_⟩
        exact (EntryTree.anc_endPoint hpath).le
      · subst hreq
        refine ⟨req.point, hi.symm, ?_, (RaftCore.anc_tip_of_logTermAt hpath hlog).le⟩
        rw [ht, ← hterm]
        exact hf.decided (hs.install n req he)
    rw [hn', core_record_self]
    refine ⟨x, hx, hd, hle, fun heq => hb'.vote.holds ?_ ?_⟩
    · rw [heq, ht, core_record_self]
    · rwa [core_record_self]

/-- A call keeps everything decided. -/
theorem safeInv_record : SafeInv cfg (c.record n request after actions) := by
  have hf := forward_record hs hb hn he hok ho
  refine { append := ?_, install := ?_, ack := ?_, installed := ?_, commit := ?_, base := ?_,
           applied := ?_, keys := ?_, leader := ?_ }
  · intro dst req hm
    rcases mem_net_record (by simp) hm with hm | hm
    · exact append_record hs hb hn he hok ho hm
    · obtain ⟨h1, x, hx, hd, hle⟩ := hs.append dst req hm
      exact ⟨h1, x, hx, hf.decided hd, hle⟩
  · intro dst req hm
    rcases installSnapshot_mem_net_record ho hm with ⟨-, -, hterm, hi, hl⟩ | hm
    · rw [InstallSnapshotRPC.point, hterm, hi, hl]
      exact base_record hs hb hn he hok ho
    · exact hf.decided (hs.install dst req hm)
  · intro dst resp hm hsucc
    rcases mem_net_record (by simp) hm with hm | hm
    · exact ack_record hs hb hn he hok ho hm hsucc
    · obtain ⟨hk, hh⟩ := hs.ack dst resp hm hsucc
      exact ⟨hf.known hk, hf.holds hh⟩
  · intro dst resp hm
    rcases mem_net_record (by simp) hm with hm | hm
    · exact installed_record hs hb hn he hok ho hm
    · obtain ⟨x, hx, hd, hle, hh⟩ := hs.installed dst resp hm
      exact ⟨x, hx, hf.decided hd, hle.trans (hf.tip_le _), fun h => hf.holds (hh h)⟩
  · refine forall_core (P := fun _ core => ∃ x, x.index = core.commitIndex ∧
      Decided cfg _ core.currentTerm x ∧ x ≤ core.tip) hf.others ?_ fun m _ => ?_
    · rw [core_record_self]
      exact commit_record hs hb hn he hok ho
    · obtain ⟨x, hx, hd, hle⟩ := hs.commit m
      exact ⟨x, hx, hf.decided hd, hle⟩
  · refine forall_core (P := fun _ core => Decided cfg _ core.currentTerm core.base) hf.others ?_
      fun m _ => hf.decided (hs.base m)
    rw [core_record_self]
    exact base_record hs hb hn he hok ho
  · refine forall_core (P := fun _ core => core.lastApplied = core.commitIndex) hf.others ?_
      fun m _ => hs.applied m
    rw [core_record_self]
    exact ho.lastApplied_eq (hs.applied n)
  · refine forall_core (P := fun _ core => ∀ p ∈ core.matchIndex, p ∈ core.peers) hf.others ?_
      fun m _ => hs.keys m
    rw [core_record_self]
    exact keys_record hs hb he ho
  · refine forall_core (P := fun _ core => core.state = .leader → Tracks cfg _ core) hf.others ?_
      fun m _ hl => ?_
    · rw [core_record_self]
      exact tracks_record hs hb hn he hok ho
    · obtain ⟨h1, h2, h3⟩ := hs.leader m hl
      exact ⟨h1, h2, fun p k hk => hf.matched (h3 p k hk)⟩

end record

/-! ## Sound runs -/

/-- A crash keeps everything decided. -/
theorem safeInv_crashed (hs : SafeInv cfg c) (hb : BaseInv cfg c) (n : NodeId) (t rnd : ℕ) :
    SafeInv cfg (c.crashed cfg n t rnd) := by
  have hf := forward_crashed cfg hb n t rnd
  obtain ⟨hlog, hbase⟩ := hb.tree.restart cfg n t rnd
  have hi : ((c.crashed cfg n t rnd).core n).commitIndex =
      ((c.crashed cfg n t rnd).core n).lastIncludedIndex := by simp [crashed]
  have hdecided : (c.crashed cfg n t rnd).Decided cfg
      ((c.crashed cfg n t rnd).core n).currentTerm ((c.crashed cfg n t rnd).core n).base := by
    rw [hbase]
    exact (hf.decided (hs.base n)).mono_term hf.term
  refine { append := fun dst req hm => ?_, install := fun dst req hm => ?_,
           ack := fun dst resp hm hsucc => ?_, installed := fun dst resp hm => ?_,
           commit := ?_, base := ?_, applied := ?_, keys := ?_, leader := ?_ }
  · obtain ⟨h1, x, hx, hd, hle⟩ := hs.append dst req hm
    exact ⟨h1, x, hx, hf.decided hd, hle⟩
  · exact hf.decided (hs.install dst req hm)
  · obtain ⟨hk, hh⟩ := hs.ack dst resp hm hsucc
    exact ⟨hf.known hk, hf.holds hh⟩
  · obtain ⟨x, hx, hd, hle, hh⟩ := hs.installed dst resp hm
    exact ⟨x, hx, hf.decided hd, hle.trans (hf.tip_le _), fun h => hf.holds (hh h)⟩
  · refine forall_core (P := fun _ core => ∃ x, x.index = core.commitIndex ∧
      Decided cfg _ core.currentTerm x ∧ x ≤ core.tip) hf.others ?_ fun m _ => ?_
    · refine ⟨_, hi.symm, hdecided, ?_⟩
      have hpath := hb.tree.path n
      rw [← hb.tree.tree_link] at hpath
      rw [RaftCore.tip, hbase, hlog]
      exact (EntryTree.anc_endPoint hpath).le
    · obtain ⟨x, hx, hd, hle⟩ := hs.commit m
      exact ⟨x, hx, hf.decided hd, hle⟩
  · exact forall_core (P := fun _ core => Decided cfg _ core.currentTerm core.base) hf.others
      hdecided fun m _ => hf.decided (hs.base m)
  · exact forall_core (P := fun _ core => core.lastApplied = core.commitIndex) hf.others
      (by simp [crashed]) fun m _ => hs.applied m
  · exact forall_core (P := fun _ core => ∀ p ∈ core.matchIndex, p ∈ core.peers) hf.others
      (by simp [crashed]) fun m _ => hs.keys m
  · refine forall_core (P := fun _ core => core.state = .leader → Tracks cfg _ core) hf.others
      (by simp [crashed]) fun m _ hl => ?_
    obtain ⟨h1, h2, h3⟩ := hs.leader m hl
    exact ⟨h1, h2, fun p k hk => hf.matched (h3 p k hk)⟩

theorem safeInv_init (cfg : Config) : SafeInv cfg cfg.init where
  append dst req hm := by simp [net, Config.init] at hm
  install dst req hm := by simp [net, Config.init] at hm
  ack dst resp hm := by simp [net, Config.init] at hm
  installed dst resp hm := by simp [net, Config.init] at hm
  commit _ := ⟨Point.root, rfl, decided_root cfg _ _, Point.root_le _⟩
  base _ := decided_root cfg _ _
  applied _ := rfl
  keys n p hp := absurd hp (AList.notMem_empty p)
  leader n hl := by cases hl

/-- Everything decided stays so along a sound run. -/
theorem sound_run (h : cfg.machine.Run Sound cfg.init c) : BaseInv cfg c ∧ SafeInv cfg c := by
  refine h.invariant (P := fun c => BaseInv cfg c ∧ SafeInv cfg c)
    ⟨baseInv_init cfg, safeInv_init cfg⟩ ?_
  rintro c i c' ⟨hb, hs⟩ hok hstep
  rcases step_cases hstep with ⟨n, request, rnd, after, actions, rfl, hn, he, ho, rfl⟩ |
    ⟨n, t, rnd, hn, rfl, -⟩
  · exact ⟨baseInv_record hb hn he hok ho, safeInv_record hs hb hn he hok ho⟩
  · exact ⟨baseInv_crashed hb hn t rnd, safeInv_crashed hs hb n t rnd⟩

end Cluster

end FerrisFerry
