import FerrisFerry.Emit
import FerrisFerry.Log
import FerrisFerry.Vote

/-!
# Writes come first

The actions of a call start with its writes : metadata first, then at most one write of the
log (`RaftCore.LogWrite`), and only then messages, applied entries and released barriers
(`RaftCore.Outcome.writeAhead`). A write of entries lies inside the log or right behind it.

So a crash after any message or applied entry finds on disk what the call left in memory
(`Mirror.holds_before_external`).
-/

namespace FerrisFerry

/-- The actions that change durable state. -/
def Action.Writes : Action → Prop
  | .persistMetadata _ _ | .persistLogEntries _ _ | .installSnapshot _ _ _ => True
  | _ => False

theorem Action.Leading.not_writes {a : Action} (h : a.Leading) : ¬a.Writes := by
  cases a with
  | sendMessage | sendInstallSnapshot => exact fun h => h
  | _ => exact h.elim

namespace RaftCore

variable {core core' : RaftCore} {rnd : ℕ} {request : Request} {actions metas rest : List Action}

/-- The write of the log of a call, after its writes of metadata. A node that has written no
metadata writes its log only if it is active or follows a leader of its own term. -/
inductive LogWrite (core : RaftCore) (request : Request) (metas : List Action) :
    List Action → Prop
  | none : LogWrite core request metas []
  | entries {start : ℕ} {es : List LogEntry} (hlo : core.lastIncludedIndex < start)
      (hhi : start ≤ core.lastLogIndex + 1)
      (hf : metas ≠ [] ∨ core.state ≠ .follower ∨ ∃ req,
        request = .message (.appendEntries req) ∧ core.Heeds req ∧ req.entries ≠ [] ∧
        req.term ≤ core.currentTerm) :
    LogWrite core request metas [.persistLogEntries start es]
  | snapshot {req : InstallSnapshotRPC} (hr : request = .message (.installSnapshot req))
      (hi : core.lastIncludedIndex < req.lastIncludedIndex)
      (hf : metas ≠ [] ∨ req.term ≤ core.currentTerm) :
    LogWrite core request metas
      [.installSnapshot req.lastIncludedIndex req.lastIncludedTerm req.data]

/-- The writes of a call in front of the rest of its actions. -/
def WritesFirst (core : RaftCore) (request : Request) (actions : List Action) : Prop :=
  ∃ metas log rest, actions = metas ++ (log ++ rest) ∧
    (∀ a ∈ metas, ∃ t v, a = .persistMetadata t v) ∧ core.LogWrite request metas log ∧
    ∀ a ∈ rest, ¬a.Writes

theorem metadata_of_termActions (core : RaftCore) (t : ℕ) :
    ∀ a ∈ core.termActions t, ∃ t v, a = .persistMetadata t v := by
  intro a ha
  unfold termActions at ha
  split_ifs at ha
  · exact ⟨_, _, List.mem_singleton.mp ha⟩
  · simp at ha

/-- A node writes metadata in the term check or is in the term of the message already. -/
theorem termActions_ne_nil_or (core : RaftCore) (t : ℕ) :
    core.termActions t ≠ [] ∨ t ≤ core.currentTerm := by
  unfold termActions
  split_ifs with h
  · exact Or.inl (by simp)
  · exact Or.inr (Nat.not_lt.mp h)

theorem writesFirst_of_metas (hm : ∀ a ∈ metas, ∃ t v, a = .persistMetadata t v)
    (hr : ∀ a ∈ rest, ¬a.Writes) : core.WritesFirst request (metas ++ rest) :=
  ⟨metas, [], rest, rfl, hm, .none, hr⟩

theorem writesFirst_of_rest (hr : ∀ a ∈ actions, ¬a.Writes) : core.WritesFirst request actions :=
  writesFirst_of_metas (fun _ h => absurd h List.not_mem_nil) hr

/-- An accepted request writes the log behind its term check, and nothing afterwards. -/
theorem logWrite_of_accepted {req : AppendEntriesRPC} {accepted : List Action}
    (ht : core.currentTerm ≤ req.term) (hl : (core.termChecked req.term rnd).state ≠ .leader)
    (hv : core.appendEntriesValid req = true)
    (ha : ((core.termChecked req.term rnd).follow req.leaderId rnd).acceptEntries req =
      some (core', accepted))
    (hg : core.GroundedEntries (.message (.appendEntries req))) :
    ∃ log rest, accepted = log ++ rest ∧
      core.LogWrite (.message (.appendEntries req)) (core.termActions req.term) log ∧
      ∀ a ∈ rest, ¬a.Writes := by
  obtain ⟨merged, persist, applies, -, -, hF, hp, rfl⟩ := acceptEntries_spec ha
  refine ⟨persist, _, List.append_assoc _ _ _, ?_, fun a ha => ?_⟩
  · rcases hp with ⟨-, rfl⟩ | ⟨hne, entries, -, rfl⟩
    · exact .none
    · have hheeds : core.Heeds req := Accepts.heeds ⟨ht, hl, hv, _, ha⟩
      obtain ⟨k, hle, hk, -⟩ := position_of_valid hv (hg _ rfl hheeds hne)
      refine .entries (by omega) (by unfold lastLogIndex; omega) ?_
      exact (termActions_ne_nil_or core req.term).imp_right fun h =>
        Or.inr ⟨req, rfl, hheeds, hne, h⟩
  · rcases List.mem_append.mp ha with ha | ha
    · rcases hF.commit with ⟨-, -, -, rfl⟩ | ⟨-, -, -, entries, hs, rfl⟩
      · simp at ha
      · obtain ⟨i, e, rfl, -⟩ := mem_applyActions hs ha
        exact fun h => h
    · rw [List.mem_singleton.mp ha]
      exact fun h => h

/-- Every call writes first. -/
theorem Outcome.writeAhead (h : core.Outcome rnd request core' actions)
    (hg : core.GroundedEntries request) : core.WritesFirst request actions := by
  cases h with
  | wait | refuse | barrier | compact | collectVote | recordSnapshotResponse =>
    exact writesFirst_of_rest fun _ h => absurd h List.not_mem_nil
  | heartbeat hl hs =>
    exact writesFirst_of_rest fun a ha => (leading_of_appendEntries hs ha).not_writes
  | stand =>
    refine ⟨[_], [], _, rfl, fun a ha => ⟨_, _, List.mem_singleton.mp ha⟩, .none, fun a ha => ?_⟩
    obtain ⟨peer, -, rfl⟩ := List.mem_map.mp ha
    exact fun h => h
  | append hl hs =>
    exact ⟨[], [_], _, rfl, fun _ h => absurd h List.not_mem_nil,
      .entries (by unfold lastLogIndex; omega) le_rfl (Or.inr (Or.inl (by simp [hl]))),
      fun a ha => (leading_of_appendEntries hs ha).not_writes⟩
  | win ht hc hg hq hs =>
    exact ⟨[], [_], _, rfl, fun _ h => absurd h List.not_mem_nil,
      .entries (by unfold lastLogIndex; omega) le_rfl (Or.inr (Or.inl (by simp [hc]))),
      fun a ha => (leading_of_appendEntries hs ha).not_writes⟩
  | @grantVote req =>
    refine ⟨core.termActions req.term ++ [_], [], [_], (List.append_assoc _ [_] [_]).symm,
      fun a ha => ?_, .none, fun a ha => ?_⟩
    · rcases List.mem_append.mp ha with ha | ha
      · exact metadata_of_termActions core _ a ha
      · exact ⟨_, _, List.mem_singleton.mp ha⟩
    · rw [List.mem_singleton.mp ha]
      exact fun h => h
  | @acceptAppend req _ _ ht hl hv ha =>
    obtain ⟨log, rest, rfl, hlog, hrest⟩ := logWrite_of_accepted ht hl hv ha hg
    exact ⟨core.termActions req.term, log, rest, rfl, metadata_of_termActions core _, hlog, hrest⟩
  | success hs hr =>
    refine writesFirst_of_metas (metadata_of_termActions core _) fun a ha => ?_
    rcases mem_recordSuccess hr ha with ⟨i, command, rfl⟩ | ⟨barrier, rfl⟩ <;> exact fun h => h
  | failure hs hb =>
    refine writesFirst_of_metas (metadata_of_termActions core _) fun a ha => ?_
    rw [List.mem_singleton.mp ha]
    exact (leading_of_build hb).not_writes
  | @installSnapshot req ht hi hh =>
    refine ⟨core.termActions req.term, [_], [_], rfl, metadata_of_termActions core _,
      .snapshot rfl hi (termActions_ne_nil_or core _), fun a ha => ?_⟩
    rw [List.mem_singleton.mp ha]
    exact fun h => h
  | staleSnapshot =>
    refine writesFirst_of_rest fun a ha => ?_
    rw [List.mem_singleton.mp ha]
    exact fun h => h
  | denyVote | rejectAppend | conflictAppend | oldSnapshot | haveSnapshot =>
    refine writesFirst_of_metas (metadata_of_termActions core _) fun a ha => ?_
    rw [List.mem_singleton.mp ha]
    exact fun h => h
  | ignoreVote | ignoreSnapshotResponse =>
    exact ⟨_, [], [], (List.append_nil _).symm, metadata_of_termActions core _, .none,
      fun _ h => absurd h List.not_mem_nil⟩

end RaftCore

/-! ## What is on disk when others learn of a call -/

/-- The actions that others see : messages and applied entries. -/
def Action.external : Action → Bool
  | .sendMessage _ _ | .sendInstallSnapshot _ _ _ _ | .applyToStateMachine _ _ => true
  | _ => false

theorem Action.Writes.external_eq {a : Action} (h : a.Writes) : a.external = false := by
  cases a with
  | persistMetadata | persistLogEntries | installSnapshot => rfl
  | _ => exact h.elim

namespace Mirror

variable {m : Mirror} {core core' : RaftCore} {rnd : ℕ} {request : Request}
  {actions : List Action}

theorem replay_not_writes (m : Mirror) (h : ∀ a ∈ actions, ¬a.Writes) : m.replay actions = m := by
  induction actions with
  | nil => rfl
  | cons a actions ih =>
    have ha : m.apply a = m := by
      cases a with
      | persistMetadata | persistLogEntries | installSnapshot =>
        exact absurd trivial (h _ List.mem_cons_self)
      | _ => rfl
    rw [replay, List.foldl_cons, ha]
    exact ih fun b hb => h b (List.mem_cons_of_mem a hb)

/-- What follows the first external action writes nothing. -/
theorem replay_before_external (hw : core.WritesFirst request actions) :
    m.replay (actions.takeWhile fun a => !a.external) = m.replay actions := by
  obtain ⟨metas, log, rest, rfl, hmetas, hlog, hrest⟩ := hw
  have hwrites : ∀ a ∈ metas ++ log, a.Writes := by
    intro a ha
    rcases List.mem_append.mp ha with ha | ha
    · obtain ⟨t, v, rfl⟩ := hmetas a ha
      trivial
    · cases hlog with
      | none => simp at ha
      | entries => exact List.mem_singleton.mp ha ▸ trivial
      | snapshot => exact List.mem_singleton.mp ha ▸ trivial
  have hquiet : ∀ a ∈ metas ++ log, (!a.external) = true := fun a ha => by
    rw [(hwrites a ha).external_eq]
    rfl
  rw [← List.append_assoc, List.takeWhile_append_of_pos hquiet, replay_append _ (metas ++ log),
    replay_append _ (metas ++ log), replay_not_writes _ hrest]
  exact replay_not_writes _ fun a ha => hrest a (List.takeWhile_prefix _ |>.subset ha)

/-- The term, the vote, the snapshot point and the log on disk are those of the core. -/
def Holds (m : Mirror) (core : RaftCore) : Prop :=
  m.VoteOf core ∧ m.LogOf core

instance (m : Mirror) (core : RaftCore) : Decidable (m.Holds core) :=
  inferInstanceAs (Decidable ((m.term = core.currentTerm ∧ m.votedFor = core.votedFor) ∧
    m.log = core.log ∧ m.base = core.base))

/-- Write-ahead order : whatever a call persists is on disk before its first message or
applied entry. -/
theorem holds_before_external (hm : m.Holds core)
    (hc : core.call rnd request = some (core', actions)) (hs : ∀ data, request ≠ .snapshot data)
    (hp : ∀ req, request = .message (.appendEntries req) →
      core.lastIncludedIndex ≤ req.prevLogIndex) :
    (m.replay (actions.takeWhile fun a => !a.external)).Holds core' := by
  have ho := RaftCore.call_outcome hc
  have hg : core.GroundedEntries request := by
    intro req hreq _ _ h0
    have := hp req hreq
    omega
  have hafter : m.afterCall core request actions = m.replay actions := by
    unfold Mirror.afterCall
    split
    · exact absurd rfl (hs _)
    · rfl
  rw [replay_before_external (ho.writeAhead hg), ← hafter]
  exact ⟨hm.1.afterCall ho, hm.2.afterCall ho hg⟩

/-- A follower of term 0 is sent two entries of term 1, the first of them committed. -/
theorem holds_before_external_append : ∃ core' actions,
    (RaftCore.new 2 [1, 2, 3] none (1, 2) 1).call 1
      (.message (.appendEntries ⟨1, 1, 0, 0, [⟨1, []⟩, ⟨1, [7]⟩], 1⟩)) = some (core', actions) ∧
    (actions.takeWhile fun a => !a.external) =
      [.persistMetadata 1 none, .persistLogEntries 1 [⟨1, []⟩, ⟨1, [7]⟩]] ∧
    (Mirror.empty.replay (actions.takeWhile fun a => !a.external)).Holds core' := by
  obtain ⟨⟨core', actions⟩, hc⟩ : ∃ r, (RaftCore.new 2 [1, 2, 3] none (1, 2) 1).call 1
      (.message (.appendEntries ⟨1, 1, 0, 0, [⟨1, []⟩, ⟨1, [7]⟩], 1⟩)) = some r := ⟨_, rfl⟩
  refine ⟨core', actions, hc, ?_, ?_⟩
  · obtain ⟨rfl, rfl⟩ := Prod.mk.inj (Option.some.inj hc)
    rfl
  · exact holds_before_external ⟨⟨rfl, rfl⟩, rfl, rfl⟩ hc (by simp) fun _ _ => Nat.zero_le _

end Mirror

end FerrisFerry
