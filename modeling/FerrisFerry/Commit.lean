import FerrisFerry.Safety

/-!
# Who commits

Only a leader commits by counting; everybody else learns a commit index from a leader.
So every commit index of a run is at most that of a leader at the end of one of its calls
(`Cluster.Backed`). A leader that has committed an entry of its own term has therefore
committed whatever was committed so far, or a majority of the nodes has already moved on to
a later term (`Cluster.CommitInv.covers_or_deposed`).
-/

namespace FerrisFerry

namespace Cluster

/-- Some leader had committed up to index `i` at the end of one of its calls. -/
def Backed (c : Cluster) (i : ℕ) : Prop :=
  i = 0 ∨ ∃ k ∈ c.trace, k.after.state = .leader ∧ i ≤ k.after.commitIndex

/-- A majority of the nodes is in a later term than `t`. -/
def Deposed (cfg : Config) (c : Cluster) (t : ℕ) : Prop :=
  ∃ V ⊆ cfg.nodes.toFinset, cfg.nodes.toFinset.card < 2 * V.card ∧
    ∀ v ∈ V, t < (c.core v).currentTerm

/-- Every commit index of the run, and every index on its way to become one, was committed
by a leader; a leader has not gone back since its election. -/
structure CommitInv (cfg : Config) (c : Cluster) : Prop where
  core : ∀ n, c.Backed (c.core n).commitIndex
  base : ∀ n, c.Backed (c.core n).lastIncludedIndex
  append : ∀ dst req, (dst, .appendEntries req) ∈ c.net → c.Backed req.leaderCommit
  install : ∀ dst req, (dst, .installSnapshot req) ∈ c.net → c.Backed req.lastIncludedIndex
  past : ∀ k ∈ c.trace, c.Backed k.after.commitIndex
  decided : ∀ k ∈ c.trace, ∃ x, x.index = k.after.commitIndex ∧
    c.Decided cfg k.after.currentTerm x
  leader : ∀ n, (c.core n).state = .leader → ∀ k ∈ c.trace, k.node = n →
    k.after.state = .leader → k.after.currentTerm = (c.core n).currentTerm →
    k.after.commitIndex ≤ (c.core n).commitIndex

variable {cfg : Config} {c c' : Cluster} {n : NodeId} {rnd : ℕ} {request : Request}
  {after : RaftCore} {actions : List Action}

theorem Backed.of_le {i j : ℕ} (h : c.Backed j) (hle : i ≤ j) : c.Backed i := by
  rcases h with rfl | ⟨k, hk, hl, hj⟩
  · exact Or.inl (Nat.le_zero.mp hle)
  · exact Or.inr ⟨k, hk, hl, hle.trans hj⟩

theorem Backed.record {i : ℕ} (h : c.Backed i) : (c.record n request after actions).Backed i :=
  h.imp_right fun ⟨k, hk, hl, hi⟩ => ⟨k, List.mem_cons_of_mem _ hk, hl, hi⟩

section record

variable (hi : CommitInv cfg c) (hs : SafeInv cfg c) (hb : BaseInv cfg c) (he : c.Enabled n request)
  (hok : c.Sound (.call n request rnd)) (ho : (c.core n).Outcome rnd request after actions)

include hi he hok ho in
/-- The commit index after a call was committed by a leader, this one at the latest. -/
theorem backed_commit : (c.record n request after actions).Backed after.commitIndex := by
  have hold : (c.record n request after actions).Backed (c.core n).commitIndex :=
    (hi.core n).record
  cases ho.indexMove with
  | keep h => rwa [h.commitIndex]
  | reset _ hc => rwa [hc]
  | @follow req _ _ _ _ _ hc =>
    exact ((hi.append n req he).record).of_le (hc ▸ min_le_left _ _)
  | @install req _ _ _ hc => exact hc ▸ (hi.install n req he).record
  | @record resp _ _ _ hr =>
    refine Or.inr ⟨_, List.mem_cons_self, ?_, le_rfl⟩
    rw [RaftCore.termChecked_of_le hok.1.1] at hr
    change after.state = _
    rw [hr.frame]
    exact hok.1.2
  | backOff => exact hold.of_le (RaftCore.termChecked_commitIndex _ _ _).le
  | matched => exact hold

include hi hs hb he hok ho in
/-- The snapshot after a call covers what a leader has committed. -/
theorem backed_base : (c.record n request after actions).Backed after.lastIncludedIndex := by
  have hold : (c.record n request after actions).Backed (c.core n).lastIncludedIndex :=
    (hi.base n).record
  change Backed _ after.base.index
  cases ho.logMove (hb.rooted he hok).1 with
  | keep hb' | push _ _ _ hb' => rwa [hb']
  | merge h => rwa [h.base_eq]
  | @install req _ _ _ _ _ _ hb' =>
    rw [hb']
    exact (hi.install n req he).record
  | @compact _ _ k _ hk hap hb' =>
    rw [hb', endPoint_index, List.length_take, min_eq_left hk, RaftCore.base_index, ← hap,
      hs.applied n]
    exact (hi.core n).record

include hb he hok ho in
/-- A leader does not take a commit back. -/
theorem commit_le_of_leader (hl : after.state = .leader) :
    (c.core n).commitIndex ≤ after.commitIndex := by
  cases ho.indexMove with
  | keep h => exact h.commitIndex.ge
  | reset _ hc => exact hc.ge
  | follow hst => simp [hst] at hl
  | install _ _ _ _ _ _ hst =>
    rcases hst with hst | ⟨hst, heq⟩
    · simp [hst] at hl
    · exact absurd heq ((hb.rooted he hok).2 _ rfl (hst ▸ hl))
  | record _ hr =>
    have := hr.commit
    rw [RaftCore.termChecked_commitIndex] at this
    omega
  | backOff => exact (RaftCore.termChecked_commitIndex _ _ _).ge
  | matched => exact le_rfl

include hi hs hb he hok ho in
theorem commitInv_record (hn : n ∈ cfg.nodes) :
    CommitInv cfg (c.record n request after actions) := by
  have hf := forward_record hs hb hn he hok ho
  have hcommit := backed_commit hi he hok ho
  have hbase := backed_base hi hs hb he hok ho
  refine ⟨?_, ?_, fun dst req hm => ?_, fun dst req hm => ?_, fun k hk => ?_, fun k hk => ?_,
    fun m hl k hk hkn hkl hkt => ?_⟩
  · exact forall_core (P := fun _ core => Backed _ core.commitIndex) hf.others
      (by rwa [core_record_self]) fun m _ => (hi.core m).record
  · exact forall_core (P := fun _ core => Backed _ core.lastIncludedIndex) hf.others
      (by rwa [core_record_self]) fun m _ => (hi.base m).record
  · rcases mem_net_record (by simp) hm with hm | hm
    · obtain ⟨peer, hbuild, -⟩ := ho.built hm trivial
      rcases RaftCore.buildAppendEntriesForPeer_cases hbuild with h | ⟨_, _, _, h, _⟩
      · cases h
      · cases h
        exact hcommit
    · exact (hi.append dst req hm).record
  · rcases installSnapshot_mem_net_record ho hm with ⟨-, -, -, heq, -⟩ | hm
    · rw [heq]
      exact hbase
    · exact (hi.install dst req hm).record
  · rcases List.mem_cons.mp hk with rfl | hk
    · exact hcommit
    · exact (hi.past k hk).record
  · rcases List.mem_cons.mp hk with rfl | hk
    · obtain ⟨x, hx, hd, -⟩ := commit_record hs hb hn he hok ho
      exact ⟨x, hx, hd⟩
    · obtain ⟨x, hx, hd⟩ := hi.decided k hk
      exact ⟨x, hx, hf.decided hd⟩
  · by_cases hmn : m = n
    · subst hmn
      rw [core_record_self] at hl hkt ⊢
      rcases List.mem_cons.mp hk with rfl | hk
      · exact le_rfl
      · -- an earlier call of this leader : it was the leader all along
        obtain ⟨hp0, hple, hpc⟩ := hb.tree.past m _ ⟨k, hk, hkn, hkl, rfl⟩
        have hterm := hf.term
        rw [core_record_self] at hterm
        have hsame : k.after.currentTerm = (c.core m).currentTerm := by omega
        have hlead : (c.core m).state = .leader := by
          have hr := hb.rooted he hok
          obtain ⟨-, -, hw | ⟨_, hp⟩⟩ := hb.tree.move he hr (ho.logMove hr.1) hterm
          · exact (hw.2 hl).1
          · cases h : (c.core m).state with
            | leader => rfl
            | follower => exact absurd h hp.1
            | candidate => exact absurd h (hpc hsame)
        exact (hi.leader m hlead k hk hkn hkl hsame).trans (commit_le_of_leader hb he hok ho hl)
    · rw [core_record_of_ne hmn] at hl hkt ⊢
      rcases List.mem_cons.mp hk with rfl | hk
      · exact absurd hkn.symm hmn
      · exact hi.leader m hl k hk hkn hkl hkt

end record

theorem commitInv_crashed (hi : CommitInv cfg c) (hb : BaseInv cfg c) (n : NodeId) (t rnd : ℕ) :
    CommitInv cfg (c.crashed cfg n t rnd) := by
  have hf := forward_crashed cfg hb n t rnd
  have hbase := congrArg Point.index (hb.tree.restart cfg n t rnd).2
  have hcommit : ((c.crashed cfg n t rnd).core n).commitIndex =
      ((c.crashed cfg n t rnd).core n).base.index := by simp [crashed]
  refine ⟨?_, ?_, hi.append, hi.install, hi.past, fun k hk => ?_, fun m hl => ?_⟩
  · refine forall_core (P := fun _ core => Backed _ core.commitIndex) hf.others ?_
      fun m _ => hi.core m
    rw [hcommit, hbase]
    exact hi.base n
  · refine forall_core (P := fun _ core => Backed _ core.base.index) hf.others ?_
      fun m _ => hi.base m
    rw [hbase]
    exact hi.base n
  · obtain ⟨x, hx, hd⟩ := hi.decided k hk
    exact ⟨x, hx, hf.decided hd⟩
  · have hcore : (c.crashed cfg n t rnd).core m = c.core m :=
      core_crashed_of_active (by simp [hl])
    rw [hcore] at hl ⊢
    exact hi.leader m hl

theorem commitInv_init (cfg : Config) : CommitInv cfg cfg.init where
  core _ := Or.inl rfl
  base _ := Or.inl rfl
  append dst req hm := by simp [net, Config.init] at hm
  install dst req hm := by simp [net, Config.init] at hm
  past k hk := by simp [Config.init] at hk
  decided k hk := by simp [Config.init] at hk
  leader n hl := by cases hl

/-- Whose latest commit is of its own term has committed all that was ever committed, or a
majority has left its term. -/
theorem CommitInv.covers_or_deposed (hi : CommitInv cfg c) (hb : BaseInv cfg c)
    (hl : (c.core n).state = .leader)
    (ht : (c.core n).logTermAt (c.core n).commitIndex = some (c.core n).currentTerm) :
    (∀ k ∈ c.trace, k.after.commitIndex ≤ (c.core n).commitIndex) ∨
      c.Deposed cfg (c.core n).currentTerm := by
  by_contra hcon
  rw [not_or] at hcon
  obtain ⟨hcov, hdep⟩ := hcon
  refine hcov fun k hk => ?_
  rcases hi.past k hk with h0 | ⟨k', hk', hkl, hle⟩
  · omega
  refine hle.trans ?_
  rcases Nat.lt_trichotomy k'.after.currentTerm (c.core n).currentTerm with hlt | heq | hgt
  · -- a decided point of an earlier term is below the commit point
    obtain ⟨x, hx, hd⟩ := hi.decided k' hk'
    have hpath := hb.tree.path n
    rw [← hb.tree.tree_link] at hpath
    have hanc := RaftCore.anc_tip_of_logTermAt hpath ht
    have htip := (hb.tree.leader n hl).2.1
    have hxt := hd.2.1
    have hxanc := hb.anc hd (hb.tree.known_tip n) (Point.le_def.mpr (Or.inl (by omega)))
    by_contra hlt'
    have := (EntryTree.anc_total hanc hxanc (by dsimp only; omega)).term_le
    dsimp only at this
    omega
  · have hn : k'.node = n := hb.vote.oneLeader _ _ _ ⟨k', hk', rfl, hkl, heq⟩
      (hb.vote.leader n hl)
    exact hi.leader n hl k' hk' hn hkl heq
  · -- its voters have left the term
    obtain ⟨-, V, hV, hVc, hvotes⟩ := hb.vote.led _ _ ⟨k', hk', rfl, hkl, rfl⟩
    refine absurd ⟨V, hV, hVc, fun v hv => ?_⟩ hdep
    exact lt_of_lt_of_le hgt (hb.vote.voted v _ _ (hvotes v hv)).1

end Cluster

end FerrisFerry
