import FerrisFerry.Agreement

/-!
# Where commands come from

A leader adds an entry in two places only : its dummy entry, which is empty, when it is elected,
and a proposal. So every other entry of a sound run was put at its point by one call of
`propose` (`Cluster.proposed_run`). What is applied at an index was proposed, and a command is
applied at no more indices than it was accepted times (`Cluster.applied_at_most_accepted`) :
nothing is invented on the way and nothing doubled, however often messages are delivered and
nodes restart.
-/

namespace FerrisFerry

/-- A leader took the command in this call. -/
def Call.Accepts (k : Call) (command : Bytes) : Prop :=
  k.request = .propose command ∧ k.before.state = .leader

instance (k : Call) (command : Bytes) : Decidable (k.Accepts command) :=
  inferInstanceAs (Decidable (k.request = .propose command ∧ k.before.state = .leader))

/-- An entry that a leader appends is empty, or the command it was proposed. -/
theorem RaftCore.Outcome.pushed {core core' : RaftCore} {rnd : ℕ} {request : Request}
    {actions : List Action} (h : core.Outcome rnd request core' actions) {e : LogEntry}
    (hs : core'.state = .leader) (hl : core'.log = core.log ++ [e]) :
    e.command = [] ∨ request = .propose e.command ∧ core.state = .leader := by
  have absurdOf : core'.log.length ≤ core.log.length →
      e.command = [] ∨ request = .propose e.command ∧ core.state = .leader := by
    intro hle
    rw [hl, List.length_append, List.length_singleton] at hle
    omega
  cases h with
  | wait | heartbeat | stand | refuse | collectVote | staleSnapshot | recordSnapshotResponse =>
    exact absurdOf le_rfl
  | barrier =>
    refine absurdOf (le_of_eq ?_)
    unfold requestReadBarrier
    split_ifs <;> rfl
  | compact hp hc =>
    rcases completeSnapshot_spec hp hc with ⟨-, rfl⟩ | ⟨k, -, -, -, -, rfl⟩
    · exact absurdOf le_rfl
    · exact absurdOf (by simp)
  | append hlead =>
    obtain rfl := List.singleton_inj.mp (List.append_cancel_left hl)
    exact Or.inr ⟨rfl, hlead⟩
  | win =>
    obtain rfl := List.singleton_inj.mp (List.append_cancel_left hl)
    exact Or.inl rfl
  | denyVote | grantVote | ignoreVote | rejectAppend | failure | ignoreSnapshotResponse
  | conflictAppend | oldSnapshot | haveSnapshot =>
    exact absurdOf (le_of_eq (congrArg List.length (termChecked_log core _ rnd)))
  | success hs' hr =>
    refine absurdOf (le_of_eq (congrArg List.length ?_))
    rw [(recordSuccess_spec hr).frame]
    exact termChecked_log core _ rnd
  | acceptAppend ht hnl hv ha =>
    -- who accepts entries does not lead
    rw [acceptEntries_frame ha] at hs
    dsimp only [follow] at hs
    split_ifs at hs
    exact absurd hs hnl
  | installSnapshot => exact absurdOf (Nat.zero_le _)

namespace Cluster

variable {cfg : Config} {c : Cluster}

/-- Every entry that is not empty was put there by a call that took it. -/
def ProposedInv (c : Cluster) : Prop :=
  ∀ p q command, c.Link p q command →
    command = [] ∨ ∃ k ∈ c.trace, k.Accepts command ∧ k.after.tip = q

theorem proposed_run (h : cfg.machine.Run Sound cfg.init c) : ProposedInv c := by
  refine h.invariant' (P := ProposedInv) ?_ ?_
  · rintro p q command ⟨k, hk, -⟩
    cases hk
  intro c i c' hr ih hok hstep
  obtain ⟨hb, hs⟩ := sound_run hr
  rcases step_cases hstep with ⟨n, request, rnd, after, actions, rfl, hn, he, ho, rfl⟩ |
    ⟨n, t, rnd, hn, rfl, -⟩
  · have old : ∀ p q command, c.Link p q command → command = [] ∨
        ∃ k ∈ (c.record n request after actions).trace, k.Accepts command ∧ k.after.tip = q :=
      fun p q command hl => (ih p q command hl).imp_right
        fun ⟨k, hk, h⟩ => ⟨k, List.mem_cons_of_mem _ hk, h⟩
    have hroot := hb.rooted he hok
    have hterm := (forward_record hs hb hn he hok ho).term
    rw [core_record_self] at hterm
    obtain ⟨-, -, hmove⟩ := hb.tree.move he hroot (ho.logMove hroot.1) hterm
    intro p q command hl
    rcases hmove with hwalk | ⟨new, hpush⟩
    · rw [link_record_of_path hwalk.1] at hl
      exact old p q command hl
    · rcases (hb.tree.link_record_of_pushes hpush).mp hl with hl | ⟨-, rfl, rfl⟩
      · exact old p q command hl
      · obtain ⟨-, hlead, hsame, hbase, hlog⟩ := hpush
        refine (ho.pushed hlead hlog).imp_right fun hacc => ?_
        refine ⟨_, List.mem_cons_self, hacc, ?_⟩
        rw [RaftCore.tip, hlog, hbase, endPoint_append]
        rfl
  · exact ih

/-- Integrity : in every run whose steps are sound, a command that is not empty is applied at
no more indices, over all nodes, than there are calls in which a leader took it. -/
theorem applied_at_most_accepted (h : cfg.machine.Run Sound cfg.init c) {command : Bytes}
    (hne : command ≠ []) (S : Finset ℕ)
    (hS : ∀ i ∈ S, ∃ k ∈ c.trace, .applyToStateMachine i command ∈ k.actions) :
    S.card ≤ (c.trace.filter fun k => k.Accepts command).length := by
  have hproposed := proposed_run h
  -- the call that put the command at an index ends its log there
  have source : ∀ i ∈ S, ∃ k ∈ c.trace, k.Accepts command ∧ k.after.tip.index = i := by
    intro i hi
    obtain ⟨k, hk, hm⟩ := hS i hi
    obtain ⟨p, q, t, x, hl, rfl, -⟩ := settled_run h k hk i command hm
    obtain ⟨k, hk, hacc, rfl⟩ := (hproposed p q command hl).resolve_left hne
    exact ⟨k, hk, hacc, rfl⟩
  choose call hcall using source
  have hnodup : (S.attach.toList.map fun i => call i.1 i.2).Nodup := by
    refine (Finset.nodup_toList _).map fun i j hij => Subtype.ext ?_
    rw [← (hcall i.1 i.2).2.2, ← (hcall j.1 j.2).2.2, hij]
  have hsub : (S.attach.toList.map fun i => call i.1 i.2) ⊆
      c.trace.filter fun k => k.Accepts command := by
    intro k hk
    obtain ⟨i, -, rfl⟩ := List.mem_map.mp hk
    exact List.mem_filter.mpr ⟨(hcall i.1 i.2).1, decide_eq_true (hcall i.1 i.2).2.1⟩
  have hle := (hnodup.subperm hsub).length_le
  rwa [List.length_map, Finset.length_toList, Finset.card_attach] at hle

/-- Two nodes apply a command that was proposed once. -/
theorem applied_at_most_accepted_heardOf :
    ∃ c, Config.trio.machine.Run Sound Config.trio.init c ∧
      (∃ k ∈ c.trace, k.node = 1 ∧ .applyToStateMachine 2 [7] ∈ k.actions) ∧
      (∃ k ∈ c.trace, k.node = 2 ∧ .applyToStateMachine 2 [7] ∈ k.actions) ∧
      ∀ i, (∃ k ∈ c.trace, .applyToStateMachine i [7] ∈ k.actions) → i = 2 := by
  obtain ⟨c, hc, ⟨k, hk, hn, ha⟩, h2, hlen⟩ := Config.trio.machine.exists_run_of_exec Sound
    Config.trio.init heardOf (fun c =>
      (∃ k ∈ c.trace, k.node = 1 ∧ .applyToStateMachine 2 [7] ∈ k.actions) ∧
      (∃ k ∈ c.trace, k.node = 2 ∧ .applyToStateMachine 2 [7] ∈ k.actions) ∧
      (c.trace.filter fun k => k.Accepts [7]).length = 1) (by decide +kernel) (by decide +kernel)
  refine ⟨c, hc, ⟨k, hk, hn, ha⟩, h2, fun i hi => ?_⟩
  have hne : ([7] : Bytes) ≠ [] := by decide
  have hle := applied_at_most_accepted hc hne {i, 2} (by
    intro j hj
    rcases Finset.mem_insert.mp hj with rfl | hj
    · exact hi
    · rw [Finset.mem_singleton.mp hj]
      exact ⟨k, hk, ha⟩)
  rw [hlen] at hle
  exact Finset.card_le_one.mp hle i (by simp) 2 (by simp)

end Cluster

end FerrisFerry
