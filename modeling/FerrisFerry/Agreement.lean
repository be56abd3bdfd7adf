import FerrisFerry.LogMatching
import FerrisFerry.Safety

/-!
# State machine safety

In a sound run every applied command is the entry of a point below a decided point
(`Cluster.Settled`), and two such entries at one index are one entry. So no two nodes ever
apply different commands at one index (`Cluster.state_machine_safety`), and what a leader
counts as replicated on a peer of its term is there (`Cluster.match_index_sound`).

Each of the two comes with a run that leaves the conditions of `Cluster.Sound` and breaks
it. In the first a leader that has restarted still counts acknowledgements of its old term,
with an empty table of match indices, and commits alone. In the second a failure without a
first conflicting index makes the leader probe from index `0`; the follower accepts the empty
probe unread and reports its whole log as matching.
-/

namespace FerrisFerry

namespace Cluster

/-- The command is the entry of a point at index `i` on the path to a decided point. -/
def Settled (cfg : Config) (c : Cluster) (i : ℕ) (command : Bytes) : Prop :=
  ∃ p q t x, c.Link p q command ∧ q.index = i ∧ c.Decided cfg t x ∧
    Relation.ReflTransGen (fun p q => ∃ a, c.Link p q a) q x

variable {cfg : Config} {c c' : Cluster} {n : NodeId}

theorem TreeInv.anc_iff (hi : TreeInv c) {p q : Point} :
    Relation.ReflTransGen (fun p q => ∃ a, c.Link p q a) p q ↔ hi.tree.Anc p q := by
  rw [EntryTree.Anc, hi.tree_link]

theorem Settled.forward {i : ℕ} {command : Bytes} (h : c.Settled cfg i command)
    (hf : Forward c n c') : c'.Settled cfg i command := by
  obtain ⟨p, q, t, x, hl, hi, hd, ha⟩ := h
  exact ⟨p, q, t, x, hf.link _ _ _ hl, hi, hf.decided hd,
    Relation.ReflTransGen.mono (fun p q ⟨a, hl⟩ => ⟨a, hf.link p q a hl⟩) _ _ ha⟩

/-- Two settled commands at one index are one. -/
theorem BaseInv.settled_unique (hb : BaseInv cfg c) {i : ℕ} {command command' : Bytes}
    (h : c.Settled cfg i command) (h' : c.Settled cfg i command') : command = command' := by
  obtain ⟨p, q, t, x, hl, hi, hd, ha⟩ := h
  obtain ⟨p', q', t', x', hl', hi', hd', ha'⟩ := h'
  rw [hb.tree.anc_iff] at ha ha'
  rw [← hb.tree.tree_link] at hl hl'
  have hq : q = q' := by
    rcases le_total x x' with hle | hle
    · exact EntryTree.anc_unique (ha.trans (hb.anc hd hd'.1 hle)) ha' (hi.trans hi'.symm)
    · exact EntryTree.anc_unique ha (ha'.trans (hb.anc hd' hd.1 hle)) (hi.trans hi'.symm)
  subst hq
  exact (hb.tree.tree.inj hl hl').2

/-- Every applied command of a sound run is settled. -/
theorem settled_run (h : cfg.machine.Run Sound cfg.init c) : ∀ k ∈ c.trace, ∀ i command,
    .applyToStateMachine i command ∈ k.actions → c.Settled cfg i command := by
  refine h.invariant' (P := fun c => ∀ k ∈ c.trace, ∀ i command,
    .applyToStateMachine i command ∈ k.actions → c.Settled cfg i command)
    (by simp [Config.init]) ?_
  intro c input c' hrun ih hok hstep
  obtain ⟨hb, hs⟩ := sound_run hrun
  rcases step_cases hstep with ⟨n, request, rnd, after, actions, rfl, hn, he, ho, rfl⟩ |
    ⟨n, t, rnd, hn, rfl, -⟩
  · intro k hk i command hm
    rcases List.mem_cons.mp hk with rfl | hk
    · cases ho.emits hm with
      | leading hbuild => exact (RaftCore.leading_of_build hbuild).elim
      | @apply _ e hi hentry =>
        -- the entry is on the path to the commit point
        obtain ⟨x, hx, hd, hle⟩ := commit_record hs hb hn he hok ho
        have hb' := baseInv_record hb hn he hok ho
        have hpath := hb'.tree.path n
        have hknown := hb'.tree.known_tip n
        rw [core_record_self] at hpath hknown
        rw [← hb'.tree.tree_link] at hpath
        obtain ⟨p, hl⟩ := RaftCore.link_of_logEntryAt hpath hentry
        rw [hb'.tree.tree_link] at hl
        refine ⟨p, _, _, x, hl, rfl, hd, hb'.tree.anc_iff.mpr ?_⟩
        exact EntryTree.anc_total
          (RaftCore.anc_tip_of_logTermAt hpath (RaftCore.logTermAt_of_logEntryAt hentry))
          (hb'.anc hd hknown hle) (hx ▸ hi)
    · exact (ih k hk i command hm).forward (forward_record hs hb hn he hok ho)
  · intro k hk i command hm
    exact (ih k hk i command hm).forward (forward_crashed cfg hb n t rnd)

/-- State machine safety : in every run whose steps are sound, what is applied at one index
is one command, on whatever nodes and however often. -/
theorem state_machine_safety (h : cfg.machine.Run Sound cfg.init c) :
    ∀ k ∈ c.trace, ∀ k' ∈ c.trace, ∀ i command command',
      .applyToStateMachine i command ∈ k.actions → .applyToStateMachine i command' ∈ k'.actions →
      command = command' := by
  intro k hk k' hk' i command command' hm hm'
  exact (sound_run h).1.settled_unique (settled_run h k hk i command hm)
    (settled_run h k' hk' i command' hm')

/-- A leader commits its first entry and a proposal, and a follower hears of it. -/
def heardOf : List Input :=
  replicated ++ [.call 1 (.message (.appendEntriesResponse ⟨2, 1, 2, true, none, none⟩)) 1,
    .call 1 .tick 1, .call 2 (.message (.appendEntries ⟨1, 1, 2, 1, [], 2⟩)) 1]

theorem state_machine_safety_heardOf :
    ∃ c, Config.trio.machine.Run Sound Config.trio.init c ∧
      (∃ k ∈ c.trace, k.node = 1 ∧ .applyToStateMachine 2 [7] ∈ k.actions) ∧
      (∃ k ∈ c.trace, k.node = 2 ∧ .applyToStateMachine 2 [7] ∈ k.actions) ∧
      ∀ k ∈ c.trace, ∀ command, .applyToStateMachine 2 command ∈ k.actions → command = [7] := by
  obtain ⟨c, hc, ⟨k, hk, hn, ha⟩, h2⟩ := Config.trio.machine.exists_run_of_exec Sound
    Config.trio.init heardOf (fun c =>
      (∃ k ∈ c.trace, k.node = 1 ∧ .applyToStateMachine 2 [7] ∈ k.actions) ∧
      ∃ k ∈ c.trace, k.node = 2 ∧ .applyToStateMachine 2 [7] ∈ k.actions)
    (by decide +kernel) (by decide +kernel)
  exact ⟨c, hc, ⟨k, hk, hn, ha⟩, h2, fun k' hk' command ha' =>
    state_machine_safety hc k' hk' k hk 2 command [7] ha' ha⟩

/-- Node 1 appends `[7]` for itself alone, restarts, and commits it as a follower on the
answer to an earlier append. Node 2 is elected and commits its own entry there. -/
def commitsAlone : List Input :=
  [.call 1 .tick 1, .call 2 (.message (.requestVote ⟨1, 1, 0, 0⟩)) 1,
    .call 1 (.message (.requestVoteResponse ⟨2, 1, true⟩)) 1,
    .call 2 (.message (.appendEntries ⟨1, 1, 1, 1, [], 0⟩)) 1,
    .call 1 (.message (.appendEntriesResponse ⟨2, 1, 0, false, some 1, none⟩)) 1,
    .call 2 (.message (.appendEntries ⟨1, 1, 0, 0, [⟨1, []⟩], 0⟩)) 1,
    .call 1 (.propose [7]) 1, .crash 1 1,
    .call 1 (.message (.appendEntriesResponse ⟨2, 1, 1, true, none, none⟩)) 1,
    .call 2 .tick 1, .call 3 (.message (.requestVote ⟨2, 2, 1, 1⟩)) 1,
    .call 2 (.message (.requestVoteResponse ⟨3, 2, true⟩)) 1,
    .call 3 (.message (.appendEntries ⟨2, 2, 2, 2, [], 0⟩)) 1,
    .call 2 (.message (.appendEntriesResponse ⟨3, 2, 0, false, some 1, none⟩)) 1,
    .call 3 (.message (.appendEntries ⟨2, 2, 0, 0, [⟨1, []⟩, ⟨2, []⟩], 0⟩)) 1,
    .call 2 (.message (.appendEntriesResponse ⟨3, 2, 2, true, none, none⟩)) 1]

theorem two_commands_of_commitsAlone :
    ∃ c, Config.trio.machine.Run (fun _ _ => True) Config.trio.init c ∧
      (∃ k ∈ c.trace, k.node = 1 ∧ .applyToStateMachine 2 [7] ∈ k.actions) ∧
      ∃ k ∈ c.trace, k.node = 2 ∧ .applyToStateMachine 2 [] ∈ k.actions :=
  Config.trio.machine.exists_run_of_exec _ Config.trio.init commitsAlone _ (by decide +kernel)
    (Machine.execOk_true _ _)

/-! ## Replication progress -/

/-- The log of a leader has every known point of its term and every decided one. -/
theorem BaseInv.anc_leader (hb : BaseInv cfg c) (hl : (c.core n).state = .leader) {x : Point}
    (hk : c.Known x) (ht : x.term ≤ (c.core n).currentTerm)
    (hd : x.term < (c.core n).currentTerm → c.Decided cfg (c.core n).currentTerm x) :
    hb.tree.tree.Anc x (c.core n).tip := by
  obtain ⟨-, htip, hmax⟩ := hb.tree.leader n hl
  have hknown := hb.tree.known_tip n
  rcases Nat.lt_or_ge x.term (c.core n).currentTerm with hlt | hge
  · exact hb.anc (hd hlt) hknown (Point.le_def.mpr (Or.inl (by omega)))
  · have heq : x.term = (c.core n).currentTerm := le_antisymm ht hge
    refine EntryTree.anc_of_term_eq (hb.tree.tree_mem.mpr hk) (hb.tree.tree_mem.mpr hknown)
      (heq.trans htip.symm) ?_
    rcases hk with rfl | ⟨p, a, hlink⟩
    · exact Nat.zero_le _
    · exact hmax p x a hlink heq

/-- A matched point is on the log of the leader and, if it is in the leader's term, of the
peer. -/
theorem BaseInv.anc_matched (hb : BaseInv cfg c) {p : NodeId} {m : ℕ}
    (hl : (c.core n).state = .leader) (hm : c.Matched cfg p (c.core n).currentTerm m)
    (ht : (c.core p).currentTerm = (c.core n).currentTerm) :
    ∃ x, x.index = m ∧ hb.tree.tree.Anc x (c.core n).tip ∧ hb.tree.tree.Anc x (c.core p).tip := by
  obtain ⟨x, hx, hk, hle, hhold, hdec⟩ := hm
  refine ⟨x, hx, hb.anc_leader hl hk hle fun h => (hdec h).1, ?_⟩
  have hkp := hb.tree.known_tip p
  rcases hle.eq_or_lt with heq | hlt
  · -- the peer holds a point of its own term, where its log ends
    have hxp := (hhold heq).2.1
    have htip := hb.tree.tip_term p
    rw [Point.le_def] at hxp
    exact EntryTree.anc_of_term_eq (hb.tree.tree_mem.mpr hk) (hb.tree.tree_mem.mpr hkp)
      (by omega) (by omega)
  · exact hb.anc (hdec hlt).1 hkp (hdec hlt).2

/-- Replication progress : in every run whose steps are sound, a leader and a peer of its
term have the same entries as far as the leader's match index says. -/
theorem match_index_sound (h : cfg.machine.Run Sound cfg.init c) {n p : NodeId} {m : ℕ}
    (hl : (c.core n).state = .leader) (ht : (c.core p).currentTerm = (c.core n).currentTerm)
    (hm : (c.core n).matchIndex.lookup p = some m) :
    m ≤ (c.core n).lastLogIndex ∧
      ∀ i, max (c.core n).lastIncludedIndex (c.core p).lastIncludedIndex < i → i ≤ m →
        ∃ e, (c.core n).logEntryAt i = some e ∧ (c.core p).logEntryAt i = some e := by
  obtain ⟨hb, hs⟩ := sound_run h
  obtain ⟨x, rfl, hn, hp⟩ := hb.anc_matched hl ((hs.leader n hl).matched p m hm) ht
  have hpath : ∀ v, PathIn hb.tree.tree.link (c.core v).base (c.core v).log := fun v => by
    rw [hb.tree.tree_link]
    exact hb.tree.path v
  refine ⟨RaftCore.tip_index ▸ hn.index_le, fun i hi him => ?_⟩
  exact RaftCore.logEntryAt_agree (hpath n) (hpath p) hn hp him
    (lt_of_le_of_lt (le_max_left _ _) hi) (lt_of_le_of_lt (le_max_right _ _) hi)

theorem match_index_sound_heardOf :
    ∃ c, Config.trio.machine.Run Sound Config.trio.init c ∧ (c.core 1).state = .leader ∧
      (c.core 2).currentTerm = (c.core 1).currentTerm ∧
      (c.core 1).matchIndex.lookup 2 = some 2 ∧ (c.core 2).logEntryAt 2 = some ⟨1, [7]⟩ ∧
      (c.core 1).logEntryAt 2 = some ⟨1, [7]⟩ := by
  obtain ⟨c, hc, hl, ht, hm, hz, he⟩ := Config.trio.machine.exists_run_of_exec Sound
    Config.trio.init heardOf (fun c => (c.core 1).state = .leader ∧
      (c.core 2).currentTerm = (c.core 1).currentTerm ∧ (c.core 1).matchIndex.lookup 2 = some 2 ∧
      max (c.core 1).lastIncludedIndex (c.core 2).lastIncludedIndex < 2 ∧
      (c.core 2).logEntryAt 2 = some ⟨1, [7]⟩)
    (by decide +kernel) (by decide +kernel)
  obtain ⟨e, h1, h2⟩ := (match_index_sound hc hl ht hm).2 2 hz le_rfl
  exact ⟨c, hc, hl, ht, hm, he, h1.trans (h2.symm.trans he)⟩

/-- Node 2 rejects an append of term 1 in term 3, where its sender leads again. The answer
names no conflict, so node 1 probes from index 0, and node 2 accepts the probe unread. -/
def probesFromZero : List Input :=
  [.call 1 .tick 1, .call 3 (.message (.requestVote ⟨1, 1, 0, 0⟩)) 1,
    .call 1 (.message (.requestVoteResponse ⟨3, 1, true⟩)) 1, .call 2 .tick 1, .call 2 .tick 1,
    .call 3 (.message (.requestVote ⟨2, 2, 0, 0⟩)) 1,
    .call 2 (.message (.requestVoteResponse ⟨3, 2, true⟩)) 1, .crash 1 1, .call 1 .tick 1,
    .call 1 .tick 1, .call 3 (.message (.requestVote ⟨3, 1, 1, 1⟩)) 1,
    .call 1 (.message (.requestVoteResponse ⟨3, 3, true⟩)) 1,
    .call 2 (.message (.requestVote ⟨3, 1, 1, 1⟩)) 1,
    .call 2 (.message (.appendEntries ⟨1, 1, 1, 1, [], 0⟩)) 1,
    .call 1 (.message (.appendEntriesResponse ⟨2, 3, 1, false, none, none⟩)) 1,
    .call 2 (.message (.appendEntries ⟨3, 1, 0, 0, [], 0⟩)) 1,
    .call 1 (.message (.appendEntriesResponse ⟨2, 3, 1, true, none, none⟩)) 1]

theorem mismatch_of_probesFromZero :
    ∃ c, Config.trio.machine.Run (fun _ _ => True) Config.trio.init c ∧
      (c.core 1).state = .leader ∧ (c.core 2).currentTerm = (c.core 1).currentTerm ∧
      (c.core 1).matchIndex.lookup 2 = some 1 ∧
      max (c.core 1).lastIncludedIndex (c.core 2).lastIncludedIndex < 1 ∧
      (c.core 1).logEntryAt 1 = some ⟨1, []⟩ ∧ (c.core 2).logEntryAt 1 = some ⟨2, []⟩ :=
  Config.trio.machine.exists_run_of_exec _ Config.trio.init probesFromZero _ (by decide +kernel)
    (Machine.execOk_true _ _)

end Cluster

end FerrisFerry
