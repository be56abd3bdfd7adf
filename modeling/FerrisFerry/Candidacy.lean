import FerrisFerry.Election

/-!
# From a candidacy to a victory

A node stands once per term, and as long as it is a candidate its log ends where it ended
when it stood (`Cluster.CandidacyInv`). So what a voter compared its own log with is what the
candidate has when it wins (`Cluster.vote_restriction`). This holds in every run : which
votes a candidate counts does not matter.
-/

namespace FerrisFerry

/-- The call sent `x` a granted vote of term `t`. -/
def Call.Grants (k : Call) (x : NodeId) (t : ℕ) : Prop :=
  ∃ resp, (x, .requestVoteResponse resp) ∈ k.sent ∧ resp.voteGranted = true ∧ resp.term = t

/-- The node became leader of term `t` in this call. -/
def Call.Wins (k : Call) (t : ℕ) : Prop :=
  k.before.state ≠ .leader ∧ k.after.state = .leader ∧ k.after.currentTerm = t

/-- A node becomes leader as a candidate, in the term it stood in. -/
theorem RaftCore.VoteMove.won {core core' : RaftCore} {request : Request} {actions : List Action}
    (h : core.VoteMove request core' actions) (hl : core.state ≠ .leader)
    (hl' : core'.state = .leader) :
    core.state = .candidate ∧ core'.currentTerm = core.currentTerm := by
  cases h with
  | keep _ _ hs =>
    rcases hs with hs | ⟨hs, -⟩
    · simp [hs] at hl'
    · exact absurd (hs ▸ hl') hl
  | bump _ _ hs => simp [hs] at hl'
  | stand => cases hl'
  | grant _ _ _ _ _ hs =>
    rcases hs with hs | ⟨-, hs, -⟩
    · simp [hs] at hl'
    · exact absurd (hs ▸ hl') hl
  | collect _ hc => exact absurd (hc.symm.trans hl') (by simp)
  | win _ hc => exact ⟨hc, rfl⟩

namespace Cluster

variable {cfg : Config} {c : Cluster} {n : NodeId} {rnd : ℕ} {request : Request}
  {after : RaftCore} {actions : List Action}

/-- Candidacies, the votes granted to them and the victories that came of them. -/
structure CandidacyInv (c : Cluster) : Prop where
  id : ∀ n, (c.core n).id = n
  disk : ∀ n, (c.disk n).VoteOf (c.core n)
  stood_le : ∀ x t p, c.Stood x t p → t ≤ (c.core x).currentTerm
  candidate : ∀ n, (c.core n).state = .candidate →
    ∀ p, c.Stood n (c.core n).currentTerm p → p = (c.core n).tip
  granted : ∀ k ∈ c.trace, ∀ x t, k.Grants x t → ∃ p, c.Stood x t p ∧ k.before.tip ≤ p
  won : ∀ w ∈ c.trace, ∀ t, w.Wins t → t ≤ (c.core w.node).currentTerm ∧
    ∀ p, c.Stood w.node t p → p = w.before.tip

theorem Stood.record {x : NodeId} {t : ℕ} {p : Point} (h : c.Stood x t p) :
    (c.record n request after actions).Stood x t p := by
  obtain ⟨dst, hm⟩ := h
  exact ⟨dst, mem_net_record_of_mem hm⟩

/-- A candidacy of an earlier term is not a new one. -/
theorem CandidacyInv.stood_of_le (hi : CandidacyInv c)
    (ho : (c.core n).Outcome rnd request after actions) {x : NodeId} {t : ℕ} {p : Point}
    (ht : t ≤ (c.core x).currentTerm) (hp : (c.record n request after actions).Stood x t p) :
    c.Stood x t p := by
  rcases stood_record (hi.id n) ho hp with hp | ⟨rfl, -, -, hlt, -⟩
  · exact hp
  · exact absurd ht (Nat.not_le.mpr hlt)

theorem candidacyInv_record (hi : CandidacyInv c) (he : c.Enabled n request)
    (ho : (c.core n).Outcome rnd request after actions) :
    CandidacyInv (c.record n request after actions) := by
  have hmono : ∀ m, (c.core m).currentTerm ≤
      ((c.record n request after actions).core m).currentTerm := by
    intro m
    by_cases hm : m = n
    · subst hm
      rw [core_record_self]
      exact ho.voteMove.vote_kept.1
    · rw [core_record_of_ne hm]
  refine ⟨?_, fun m => ?_, fun x t p hp => ?_, fun m hc p hp => ?_, fun k hk x t hg => ?_,
    fun w hw t hwin => ?_⟩
  · exact forall_core (fun m hm => core_record_of_ne hm) (P := fun m core => core.id = m)
      (by rw [core_record_self, ho.id_eq.1, hi.id]) fun m _ => hi.id m
  · refine forall_node (fun m => core_record_of_ne) (fun m => disk_record_of_ne) ?_ hi.disk m
    rw [core_record_self, disk_record_self]
    exact (hi.disk n).afterCall ho
  · rcases stood_record (hi.id n) ho hp with hp | ⟨rfl, -, rfl, -, -⟩
    · exact (hi.stood_le x t p hp).trans (hmono x)
    · rw [core_record_self]
  · by_cases hm : m = n
    · subst hm
      rw [core_record_self] at hc hp ⊢
      obtain ⟨htip, hlt | ⟨hc', heq⟩⟩ := ho.voteMove.candidate hc
      · rcases stood_record (hi.id m) ho hp with hp | ⟨-, rfl, -⟩
        · exact absurd (hi.stood_le m _ p hp) (Nat.not_le.mpr hlt)
        · exact htip.symm
      · rw [heq] at hp
        rw [htip]
        exact hi.candidate m hc' p (hi.stood_of_le ho le_rfl hp)
    · rw [core_record_of_ne hm] at hc hp ⊢
      exact hi.candidate m hc p (hi.stood_of_le ho le_rfl hp)
  · rcases List.mem_cons.mp hk with rfl | hk
    · obtain ⟨resp, hm, hvote, rfl⟩ := hg
      rcases mem_newCall_sent hm with hm | ⟨_, _, _, _, _, _, hm⟩
      · obtain ⟨req, rfl, rfl, rfl, -, -, hp⟩ := ho.voteMove.granted hm hvote
        exact ⟨⟨req.lastLogIndex, req.lastLogTerm⟩, Stood.record ⟨n, he⟩, hp⟩
      · cases hm
    · obtain ⟨p, hp, hle⟩ := hi.granted k hk x t hg
      exact ⟨p, hp.record, hle⟩
  · rcases List.mem_cons.mp hw with rfl | hw
    · obtain ⟨hl, hl', rfl⟩ := hwin
      obtain ⟨hc, ht⟩ := ho.voteMove.won hl hl'
      refine ⟨?_, fun p hp => ?_⟩
      · dsimp only
        rw [core_record_self]
      · dsimp only at hp ⊢
        rw [ht] at hp
        exact hi.candidate n hc p (hi.stood_of_le ho le_rfl hp)
    · obtain ⟨hle, hp⟩ := hi.won w hw t hwin
      exact ⟨hle.trans (hmono _), fun p hp' => hp p (hi.stood_of_le ho hle hp')⟩

theorem candidacyInv_crashed (hi : CandidacyInv c) (n : NodeId) (t rnd : ℕ) :
    CandidacyInv (c.crashed cfg n t rnd) := by
  have hmono : ∀ m, (c.core m).currentTerm ≤ ((c.crashed cfg n t rnd).core m).currentTerm := by
    intro m
    by_cases hm : m = n
    · subst hm
      simpa [crashed] using ((hi.disk m).termActions t).1
    · rw [crashed, core_setNode_of_ne _ hm]
  refine ⟨?_, fun m => ?_, fun x t p hp => (hi.stood_le x t p hp).trans (hmono x), fun m hc => ?_,
    hi.granted, fun w hw t hwin => ?_⟩
  · exact forall_core (fun m hm => core_setNode_of_ne _ hm) (P := fun m core => core.id = m)
      (by simp) fun m _ => hi.id m
  · refine forall_node (fun m => core_setNode_of_ne _) (fun m => disk_setNode_of_ne _) ?_ hi.disk m
    simp [Mirror.VoteOf]
  · have hcore : (c.crashed cfg n t rnd).core m = c.core m :=
      core_crashed_of_active (by simp [hc])
    rw [hcore] at hc ⊢
    exact hi.candidate m hc
  · obtain ⟨hle, hp⟩ := hi.won w hw t hwin
    exact ⟨hle.trans (hmono _), hp⟩

theorem candidacyInv_init (cfg : Config) : CandidacyInv cfg.init where
  id _ := rfl
  disk _ := ⟨rfl, rfl⟩
  stood_le x t p hp := by simp [Stood, net, Config.init] at hp
  candidate n hc := by cases hc
  granted k hk := by simp [Config.init] at hk
  won w hw := by simp [Config.init] at hw

theorem candidacyInv_run {ok : Cluster → Input → Prop} (h : cfg.machine.Run ok cfg.init c) :
    CandidacyInv c := by
  refine h.invariant (candidacyInv_init cfg) ?_
  intro c i c' hi _ hs
  rcases step_cases hs with ⟨n, request, rnd, after, actions, rfl, -, he, ho, rfl⟩ |
    ⟨n, t, rnd, -, rfl, -⟩
  · exact candidacyInv_record hi he ho
  · exact candidacyInv_crashed hi n t rnd

/-- The vote restriction survives to victory : the log a voter had when it granted its vote
of term `t` ends no later than the log of the winner just before its dummy entry, which ends
where the winner's vote requests of that term say. -/
theorem vote_restriction (h : cfg.machine.Run (fun _ _ => True) cfg.init c) {k w : Call} {t : ℕ}
    (hk : k ∈ c.trace) (hw : w ∈ c.trace) (hg : k.Grants w.node t) (hwin : w.Wins t) :
    k.before.tip ≤ w.before.tip ∧ c.Stood w.node t w.before.tip ∧
      ∀ p, c.Stood w.node t p → p = w.before.tip := by
  have hi := candidacyInv_run h
  obtain ⟨p, hp, hle⟩ := hi.granted k hk _ t hg
  obtain ⟨-, hq⟩ := hi.won w hw t hwin
  obtain rfl := hq p hp
  exact ⟨hle, hp, hq⟩

/-- The second election of `twoElections`. -/
theorem vote_restriction_twoElections :
    ∃ c, Config.trio.machine.Run (fun _ _ => True) Config.trio.init c ∧
      ∃ k ∈ c.trace, ∃ w ∈ c.trace, k.Grants w.node 2 ∧ w.Wins 2 ∧
        k.before.tip ≤ w.before.tip := by
  obtain ⟨c, hrun, k, hk, w, hw, hm, hwin⟩ := Config.trio.machine.exists_run_of_exec _
    Config.trio.init twoElections
    (fun c => ∃ k ∈ c.trace, ∃ w ∈ c.trace,
      (w.node, .requestVoteResponse ⟨3, 2, true⟩) ∈ k.sent ∧ w.before.state ≠ .leader ∧
        w.after.state = .leader ∧ w.after.currentTerm = 2)
    (by decide +kernel) (Machine.execOk_true _ _)
  have hg : k.Grants w.node 2 := ⟨_, hm, rfl, rfl⟩
  exact ⟨c, hrun, k, hk, w, hw, hg, hwin, (vote_restriction hrun hk hw hg hwin).1⟩

end Cluster

end FerrisFerry
