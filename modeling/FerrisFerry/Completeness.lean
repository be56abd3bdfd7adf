import FerrisFerry.Agreement

/-!
# Leader completeness

`Cluster.SafeInv` speaks of the cores as they are. `Cluster.Past` says the same of every core
a run has ever had : at each recorded call the commit index was at a point that is decided
now, and the log ended no further than that node's log ends today.

So a committed entry is in the log, or behind the snapshot, of every leader of a later term
(`Cluster.leader_completeness`), and of its own node for good, through overwritten tails,
crashes and installed snapshots (`Cluster.committed_stays`).
-/

namespace FerrisFerry

namespace Cluster

/-- The core after a recorded call, as the run judges it now. -/
structure Past (cfg : Config) (c : Cluster) (k : Call) : Prop where
  base : c.Known k.after.base
  commit : ∃ x, x.index = k.after.commitIndex ∧ c.Decided cfg k.after.currentTerm x ∧
    x ≤ k.after.tip
  leader : k.after.state = .leader → k.after.tip.term = k.after.currentTerm
  tip : k.after.tip ≤ (c.core k.node).tip

/-- A later log of a node ends no earlier. -/
def Ascends (k' k : Call) : Prop :=
  k'.node = k.node → k.after.tip ≤ k'.after.tip

variable {cfg : Config} {c c' : Cluster} {n : NodeId} {k k' : Call}

/-- What is settled stays settled. -/
theorem Settled.run {i : ℕ} {command : Bytes} (hs : c.Settled cfg i command)
    (hr : cfg.machine.Run Sound cfg.init c) (h : cfg.machine.Run Sound c c') :
    c'.Settled cfg i command := by
  refine (h.invariant' (P := fun c' => cfg.machine.Run Sound cfg.init c' ∧ c'.Settled cfg i command)
    ⟨hr, hs⟩ ?_).2
  rintro c₁ input c₂ - ⟨hr, hs⟩ hok hstep
  obtain ⟨hb, hsafe⟩ := sound_run hr
  refine ⟨hr.step hok hstep, ?_⟩
  rcases step_cases hstep with ⟨n, request, rnd, after, actions, rfl, hn, he, ho, rfl⟩ |
    ⟨n, t, rnd, hn, rfl, -⟩
  · exact hs.forward (forward_record hsafe hb hn he hok ho)
  · exact hs.forward (forward_crashed cfg hb n t rnd)

/-- What a node has committed is settled. -/
theorem SafeInv.settled (hs : SafeInv cfg c) (hb : BaseInv cfg c) {i : ℕ} {e : LogEntry}
    (hi : i ≤ (c.core n).commitIndex) (he : (c.core n).logEntryAt i = some e) :
    c.Settled cfg i e.command := by
  obtain ⟨x, hx, hd, hle⟩ := hs.commit n
  have hpath := hb.tree.path n
  rw [← hb.tree.tree_link] at hpath
  obtain ⟨p, hl⟩ := RaftCore.link_of_logEntryAt hpath he
  rw [hb.tree.tree_link] at hl
  refine ⟨p, _, _, x, hl, rfl, hd, hb.tree.anc_iff.mpr ?_⟩
  exact EntryTree.anc_total
    (RaftCore.anc_tip_of_logTermAt hpath (RaftCore.logTermAt_of_logEntryAt he))
    (hb.anc hd (hb.tree.known_tip n) hle) (hx ▸ hi)

theorem Past.forward (h : Past cfg c k) (hf : Forward c n c') : Past cfg c' k where
  base := hf.known h.base
  commit := by
    obtain ⟨x, hx, hd, hle⟩ := h.commit
    exact ⟨x, hx, hf.decided hd, hle⟩
  leader := h.leader
  tip := h.tip.trans (hf.tip_le k.node)

theorem pathIn_of_mem (hk : k ∈ c.trace) : PathIn c.Link k.after.base k.after.log :=
  fun _ hl => ⟨k, hk, hl⟩

/-- What is known of every core of the past, and how two of one node compare. -/
theorem past_run (h : cfg.machine.Run Sound cfg.init c) :
    (∀ k ∈ c.trace, Past cfg c k) ∧ c.trace.Pairwise Ascends := by
  refine h.invariant' (P := fun c => (∀ k ∈ c.trace, Past cfg c k) ∧ c.trace.Pairwise Ascends)
    (by simp [Config.init]) ?_
  rintro c input c' hrun ⟨hpast, hasc⟩ hok hstep
  obtain ⟨hb, hs⟩ := sound_run hrun
  rcases step_cases hstep with ⟨n, request, rnd, after, actions, rfl, hn, he, ho, rfl⟩ |
    ⟨n, t, rnd, hn, rfl, -⟩
  · have hf := forward_record hs hb hn he hok ho
    have hb' := baseInv_record hb hn he hok ho
    have hbase := hb'.tree.base n
    have hlead := hb'.tree.leader n
    have htip := hf.tip
    rw [core_record_self] at hbase hlead htip
    refine ⟨List.forall_mem_cons.mpr ⟨?_, fun k hk => (hpast k hk).forward hf⟩,
      List.pairwise_cons.mpr ⟨fun k hk hkn => ?_, hasc⟩⟩
    · exact ⟨hbase, commit_record hs hb hn he hok ho, fun hl => (hlead hl).2.1,
        le_of_eq (by rw [core_record_self])⟩
    · have hkn : n = k.node := hkn
      exact (hkn ▸ (hpast k hk).tip).trans htip
  · exact ⟨fun k hk => (hpast k hk).forward (forward_crashed cfg hb n t rnd), hasc⟩

/-- An entry committed in one log is in every log of the run that voters rank at or above
the decided point it was committed with. -/
theorem committed_entry (hb : BaseInv cfg c) (hk : k ∈ c.trace) (hk' : k' ∈ c.trace)
    (hp : Past cfg c k) (hp' : Past cfg c k')
    (hle : ∀ x, c.Decided cfg k.after.currentTerm x → x ≤ k.after.tip → x ≤ k'.after.tip)
    {i : ℕ} {e : LogEntry} (hi : i ≤ k.after.commitIndex) (he : k.after.logEntryAt i = some e) :
    i ≤ k'.after.lastLogIndex ∧
      (k'.after.lastIncludedIndex < i → k'.after.logEntryAt i = some e) := by
  obtain ⟨x, hx, hd, hxk⟩ := hp.commit
  have hpath := pathIn_of_mem hk
  have hpath' := pathIn_of_mem hk'
  have htip := hb.anc hd (TreeInv.known_end hp.base hpath) hxk
  have htip' := hb.anc hd (TreeInv.known_end hp'.base hpath') (hle x hd hxk)
  rw [← hb.tree.tree_link] at hpath hpath'
  have hindex := htip'.index_le
  rw [hx] at hindex
  refine ⟨hi.trans (RaftCore.tip_index ▸ hindex), fun hlt => ?_⟩
  obtain ⟨j, hj, hij, -⟩ := RaftCore.logEntryAt_eq_some.mp he
  obtain ⟨e', he₁, he₂⟩ := RaftCore.logEntryAt_agree hpath hpath' htip htip' (hx ▸ hi)
    (by omega) hlt
  rw [he] at he₁
  rw [he₂, ← he₁]

/-- Leader completeness : in every run whose steps are sound, an entry that some node has
committed in one term is in the log or behind the snapshot of every leader of a later one. -/
theorem leader_completeness (h : cfg.machine.Run Sound cfg.init c) {k k' : Call}
    (hk : k ∈ c.trace) (hk' : k' ∈ c.trace) {i : ℕ} {e : LogEntry}
    (hi : i ≤ k.after.commitIndex) (he : k.after.logEntryAt i = some e)
    (hl : k'.after.state = .leader) (ht : k.after.currentTerm < k'.after.currentTerm) :
    i ≤ k'.after.lastLogIndex ∧
      (k'.after.lastIncludedIndex < i → k'.after.logEntryAt i = some e) := by
  obtain ⟨hpast, -⟩ := past_run h
  refine committed_entry (sound_run h).1 hk hk' (hpast k hk) (hpast k' hk') ?_ hi he
  intro x hd _
  -- a leader's log ends in its own term, later than anything decided before it
  have hterm := (hpast k' hk').leader hl
  have := hd.2.1
  exact Point.le_def.mpr (Or.inl (by omega))

/-- Node 1 commits `[7]` in term 1, restarts and stands again; node 2 leads in term 2. -/
def succession : List Input :=
  heardOf ++ [.call 2 .tick 1, .call 3 (.message (.requestVote ⟨2, 2, 2, 1⟩)) 1,
    .call 2 (.message (.requestVoteResponse ⟨3, 2, true⟩)) 1, .crash 1 1, .call 1 .tick 1]

theorem leader_completeness_succession :
    ∃ c, Config.trio.machine.Run Sound Config.trio.init c ∧ ∃ k ∈ c.trace, ∃ k' ∈ c.trace,
      k.node = 1 ∧ k.after.currentTerm = 1 ∧ k.after.commitIndex = 2 ∧
      k'.node = 2 ∧ k'.after.currentTerm = 2 ∧ k'.after.state = .leader ∧
      k'.after.logEntryAt 2 = some ⟨1, [7]⟩ := by
  obtain ⟨c, hc, ⟨k, hk, hn, ht, hi, he⟩, k', hk', hn', ht', hl', hs'⟩ :=
    Config.trio.machine.exists_run_of_exec Sound Config.trio.init succession (fun c =>
      (∃ k ∈ c.trace, k.node = 1 ∧ k.after.currentTerm = 1 ∧ k.after.commitIndex = 2 ∧
        k.after.logEntryAt 2 = some ⟨1, [7]⟩) ∧
      ∃ k' ∈ c.trace, k'.node = 2 ∧ k'.after.currentTerm = 2 ∧ k'.after.state = .leader ∧
        k'.after.lastIncludedIndex = 0) (by decide +kernel) (by decide +kernel)
  exact ⟨c, hc, k, hk, k', hk', hn, ht, hi, hn', ht', hl',
    (leader_completeness hc hk hk' hi.ge he hl' (by omega)).2 (by omega)⟩

/-- What a node has committed it never loses : every later log of the node has the entry,
or a snapshot past it. -/
theorem committed_stays (h : cfg.machine.Run Sound cfg.init c) {k k' : Call}
    {newer older : List Call} (htrace : c.trace = newer ++ k' :: older) (hk : k ∈ older)
    (hn : k'.node = k.node) {i : ℕ} {e : LogEntry} (hi : i ≤ k.after.commitIndex)
    (he : k.after.logEntryAt i = some e) :
    i ≤ k'.after.lastLogIndex ∧
      (k'.after.lastIncludedIndex < i → k'.after.logEntryAt i = some e) := by
  obtain ⟨hpast, hasc⟩ := past_run h
  have hmem : k ∈ c.trace := by simp [htrace, hk]
  have hmem' : k' ∈ c.trace := by simp [htrace]
  rw [htrace] at hasc
  have hup : Ascends k' k := (List.pairwise_cons.mp (List.pairwise_append.mp hasc).2.1).1 k hk
  exact committed_entry (sound_run h).1 hmem hmem' (hpast k hmem) (hpast k' hmem')
    (fun x _ hle => hle.trans (hup hn)) hi he

theorem committed_stays_succession :
    ∃ c, Config.trio.machine.Run Sound Config.trio.init c ∧ ∃ k' older, c.trace = k' :: older ∧
      k'.node = 1 ∧ k'.after.state = .candidate ∧ k'.after.commitIndex = 0 ∧
      k'.after.logEntryAt 2 = some ⟨1, [7]⟩ := by
  obtain ⟨c, hc, ⟨k, hk, hn, hi, he⟩, k', hk', hn', hl', hi', hs'⟩ :=
    Config.trio.machine.exists_run_of_exec Sound Config.trio.init succession (fun c =>
      (∃ k ∈ c.trace.tail, k.node = 1 ∧ k.after.commitIndex = 2 ∧
        k.after.logEntryAt 2 = some ⟨1, [7]⟩) ∧
      ∃ k' ∈ c.trace.head?, k'.node = 1 ∧ k'.after.state = .candidate ∧ k'.after.commitIndex = 0 ∧
        k'.after.lastIncludedIndex = 0) (by decide +kernel) (by decide +kernel)
  have htrace : c.trace = k' :: c.trace.tail := (List.cons_head?_tail hk').symm
  exact ⟨c, hc, k', _, htrace, hn', hl', hi',
    (@committed_stays _ _ hc k k' [] _ htrace hk (hn'.trans hn.symm) _ _ hi.ge he).2 (by omega)⟩

end Cluster

end FerrisFerry
