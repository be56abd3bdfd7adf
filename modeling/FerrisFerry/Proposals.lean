import FerrisFerry.Session

/-!
# Which proposal is answered

A client that proposes is kept under the index of its entry and is told `Ok` when an entry of
that index is applied. The map is emptied only after all actions of a message : when one
AppendEntries makes the leader step down, replaces the entry and commits the new one, the
client is told `Ok` for an entry that is not its own (`RaftDriver.Displaced`).

`Session.confirmed_own_entry` : in runs without such a message every `Ok` to a proposal is
given for the entry that was made for it.
-/

namespace FerrisFerry

namespace RaftCore

variable {core core' : RaftCore} {rnd : ℕ} {request : Request} {actions : List Action}
  {e : LogEntry}

/-! ## Where an entry comes from -/

/-- An entry of a log that is cut before index `i` and continued by `es`. -/
theorem entry_of_cut {i n : ℕ} {es : List LogEntry} (h : core'.logEntryAt n = some e)
    (hi : core.lastIncludedIndex < i) (hlast : i ≤ core.lastLogIndex + 1)
    (hb : core'.lastIncludedIndex = core.lastIncludedIndex)
    (hl : core'.log = core.log.take (i - (core.lastIncludedIndex + 1)) ++ es) :
    core.logEntryAt n = some e ∨ ∃ j, n = i + j ∧ es[j]? = some e := by
  rw [logEntryAt_cut hi hlast hb hl] at h
  split_ifs at h with hlt
  · exact Or.inl h
  · exact Or.inr ⟨n - i, by omega, h⟩

/-- An entry of a merged log is an old one, or an entry of the request at or behind a
conflict. -/
theorem mergeEntries_entry {n i : ℕ} (es : List LogEntry) (h : core.mergeEntries i es = some core')
    (hlast : i ≤ core.lastLogIndex + 1) (he : core'.logEntryAt n = some e) :
    core.logEntryAt n = some e ∨ ∃ k, es[k]? = some e ∧ n = i + k ∧
      ∃ j ≤ k, ∃ e', es[j]? = some e' ∧ core.logTermAt (i + j) ≠ some e'.term := by
  rcases mergeEntries_cases es h hlast with ⟨rfl, -⟩ | ⟨j, e', he', hne, -, hlo, hhi, rfl⟩
  · exact Or.inl he
  · refine (entry_of_cut he hlo hhi rfl rfl).imp_right ?_
    rintro ⟨k, rfl, hk⟩
    rw [List.getElem?_drop] at hk
    exact ⟨j + k, hk, by omega, j, Nat.le_add_right j k, e', he', hne⟩

theorem entry_of_keep (hb : core'.base = core.base) (hl : core'.log = core.log) {i : ℕ}
    (h : core'.logEntryAt i = some e) : core.logEntryAt i = some e :=
  (logEntryAt_congr hb hl i).symm.trans h

/-- Entry `k` of a request stands at or behind the first one whose term is not that of the
log. -/
def Conflicts (core : RaftCore) (req : AppendEntriesRPC) (k : ℕ) : Prop :=
  ∃ j : Fin req.entries.length, j ≤ k ∧
    core.logTermAt (req.prevLogIndex + 1 + j) ≠ some (req.entries.get j).term

instance (core : RaftCore) (req : AppendEntriesRPC) (k : ℕ) : Decidable (core.Conflicts req k) :=
  inferInstanceAs (Decidable (∃ _ : Fin req.entries.length, _))

theorem Accepts.entry {req : AppendEntriesRPC} (h : core.Accepts rnd req core') {i : ℕ}
    (he : core'.logEntryAt i = some e) : core.logEntryAt i = some e ∨
      ∃ k : Fin req.entries.length, i = req.prevLogIndex + 1 + k ∧ e = req.entries.get k ∧
        core.Conflicts req k := by
  obtain ⟨-, -, hv, accepted, ha⟩ := h
  obtain ⟨merged, persist, applies, hme, -, hF, -, -⟩ := acceptEntries_spec ha
  have hb : ((core.termChecked req.term rnd).follow req.leaderId rnd).base = core.base :=
    termChecked_base core req.term rnd
  have hl : ((core.termChecked req.term rnd).follow req.leaderId rnd).log = core.log :=
    termChecked_log core req.term rnd
  have he' : merged.logEntryAt i = some e := by
    rw [hF.frame] at he
    exact he
  have hstart := start_le_of_valid hv
  rw [← lastLogIndex_congr hb hl] at hstart
  refine (mergeEntries_entry req.entries hme hstart he').imp (entry_of_keep hb hl) ?_
  rintro ⟨k, hk, rfl, j, hj, e', hje, hne⟩
  obtain ⟨hk', rfl⟩ := List.getElem?_eq_some_iff.mp hk
  obtain ⟨hj', rfl⟩ := List.getElem?_eq_some_iff.mp hje
  rw [logTermAt_congr hb hl] at hne
  exact ⟨⟨k, hk'⟩, rfl, rfl, ⟨j, hj'⟩, hj, hne⟩

/-- An entry of the log after a call was there before, is the one a leader appends, or comes
from an accepted request. -/
theorem Outcome.entry_cases (h : core.Outcome rnd request core' actions) {i : ℕ}
    (he : core'.logEntryAt i = some e) : core.logEntryAt i = some e ∨
    (core'.state = .leader ∧ (core.state = .leader →
      ∃ command, request = .propose command ∧ i = core.lastLogIndex + 1 ∧
        e = ⟨core.currentTerm, command⟩)) ∨
    ∃ req, request = .message (.appendEntries req) ∧ core.Accepts rnd req core' ∧
      ∃ k : Fin req.entries.length, i = req.prevLogIndex + 1 + k ∧ e = req.entries.get k ∧
        core.Conflicts req k := by
  have hchecked : ∀ (t : ℕ), core'.base = (core.termChecked t rnd).base →
      core'.log = (core.termChecked t rnd).log → core.logEntryAt i = some e := fun t hb hl =>
    entry_of_keep (hb.trans (termChecked_base core t rnd))
      (hl.trans (termChecked_log core t rnd)) he
  cases h with
  | @append command _ hl =>
    have hlen :
        core.log = core.log.take (core.lastLogIndex + 1 - (core.lastIncludedIndex + 1)) := by
      rw [List.take_of_length_le]
      unfold lastLogIndex
      omega
    have hlog : core.log ++ [⟨core.currentTerm, command⟩] =
        core.log.take (core.lastLogIndex + 1 - (core.lastIncludedIndex + 1)) ++
          [⟨core.currentTerm, command⟩] := congrArg (· ++ [_]) hlen
    have hbase : core.lastIncludedIndex < core.lastLogIndex + 1 :=
      Nat.lt_succ_of_le (Nat.le_add_right _ _)
    refine (entry_of_cut he hbase le_rfl rfl hlog).imp_right ?_
    rintro ⟨j, rfl, hj⟩
    rw [List.getElem?_singleton] at hj
    split_ifs at hj with h0
    subst h0
    exact Or.inl ⟨hl, fun _ => ⟨command, rfl, rfl, (Option.some.inj hj).symm⟩⟩
  | win _ hc => exact Or.inr (Or.inl ⟨rfl, fun hl => absurd hl (by simp [hc])⟩)
  | acceptAppend ht hl hv ha =>
    have hacc : core.Accepts rnd _ core' := ⟨ht, hl, hv, _, ha⟩
    exact (hacc.entry he).imp_right fun hk => Or.inr ⟨_, rfl, hacc, hk⟩
  | installSnapshot =>
    obtain ⟨j, hj, -⟩ := logEntryAt_eq_some.mp he
    exact absurd hj (Nat.not_lt_zero j)
  | compact hp hc =>
    rw [← (trims_completeSnapshot hp hc).entries i (lt_of_logEntryAt he)]
    exact Or.inl he
  | barrier =>
    unfold requestReadBarrier at he
    split_ifs at he <;> exact Or.inl (entry_of_keep rfl rfl he)
  | @success resp _ _ _ hr =>
    have hf := (recordSuccess_spec hr).frame
    exact Or.inl (hchecked resp.term (by rw [hf]; rfl) (by rw [hf]))
  | wait | heartbeat | stand | refuse | collectVote | staleSnapshot | recordSnapshotResponse =>
    exact Or.inl (entry_of_keep rfl rfl he)
  | _ => exact Or.inl (hchecked _ rfl rfl)

/-- What an accepted request applies lies behind the commit index and within that of the
leader. -/
theorem Outcome.applied_window {req : AppendEntriesRPC}
    (h : core.Outcome rnd (.message (.appendEntries req)) core' actions) {i : ℕ} {command : Bytes}
    (ha : .applyToStateMachine i command ∈ actions) :
    core.commitIndex < i ∧ i ≤ req.leaderCommit := by
  cases h with
  | rejectAppend | conflictAppend =>
    rcases List.mem_append.mp ha with ha | ha
    · exact absurd trivial (not_reaches_termActions ha)
    · cases List.mem_singleton.mp ha
  | acceptAppend _ _ _ hacc =>
    obtain ⟨merged, persist, applies, -, hm, hF, hp, rfl⟩ := acceptEntries_spec hacc
    have hmc : merged.commitIndex = core.commitIndex := by
      rw [hm]
      exact termChecked_commitIndex core req.term rnd
    have ha' : .applyToStateMachine i command ∈ applies := by
      rcases List.mem_append.mp ha with ha | ha
      · exact absurd trivial (not_reaches_termActions ha)
      · rcases List.mem_append.mp ha with ha | ha
        · rcases List.mem_append.mp ha with ha | ha
          · rcases hp with ⟨-, rfl⟩ | ⟨-, entries, -, rfl⟩
            · cases ha
            · cases List.mem_singleton.mp ha
          · exact ha
        · cases List.mem_singleton.mp ha
    rcases hF.commit with ⟨-, -, -, rfl⟩ | ⟨-, hci, -, entries, hs, rfl⟩
    · cases ha'
    · obtain ⟨n, e, heq, hlo, hhi, -⟩ := mem_applyActions hs ha'
      obtain ⟨rfl, -⟩ := Action.applyToStateMachine.inj heq
      rw [hmc] at hlo
      rw [hci] at hhi
      exact ⟨hlo, hhi.trans (min_le_left _ _)⟩

end RaftCore

/-! ## When a client is told `Ok` -/

deriving instance DecidableEq for RaftDriver.Event

namespace RaftDriver

variable {app : List AppliedEntry → Bytes} {d d' : RaftDriver} {a : Action}
  {actions : List Action} {ch : Channel} {event : Event} {rnd : ℕ} {after : RaftCore}

/-- Among a list of actions, the driver answers `Ok` on a channel while it handles `a`. -/
def Confirms (app : List AppliedEntry → Bytes) (d : RaftDriver) (actions : List Action)
    (a : Action) (ch : Channel) : Prop :=
  ∃ done rest d', actions = done ++ a :: rest ∧ (d.handleActions app done).2 = some d' ∧
    .respond ch none ∈ (d'.handleAction app a).1

/-- A case of it, by computation. -/
theorem confirms_of_any {n : ℕ} (ha : actions[n]? = some a)
    (h : ((d.handleActions app (actions.take n)).2.any
      fun d' => .respond ch none ∈ (d'.handleAction app a).1) = true) :
    d.Confirms app actions a ch := by
  obtain ⟨d', hd, hr⟩ := (Option.any_eq_true _ _).mp h
  obtain ⟨hn, rfl⟩ := List.getElem?_eq_some_iff.mp ha
  refine ⟨actions.take n, actions.drop (n + 1), d', ?_, hd, of_decide_eq_true hr⟩
  rw [← List.drop_eq_getElem_cons hn, List.take_append_drop]

/-- Every `Ok` of a list of actions is given while one of them is handled. -/
theorem exists_confirms (h : .respond ch none ∈ (d.handleActions app actions).1) :
    ∃ a, d.Confirms app actions a ch := by
  induction actions generalizing d with
  | nil => cases h
  | cons a actions ih =>
    rw [handleActions, Handled.andThen] at h
    have hhead : .respond ch none ∈ (d.handleAction app a).1 →
        ∃ b, d.Confirms app (a :: actions) b ch := fun h =>
      ⟨a, [], actions, d, rfl, rfl, h⟩
    cases hd : (d.handleAction app a).2 with
    | none =>
      rw [hd] at h
      exact hhead h
    | some d₁ =>
      rw [hd] at h
      rcases List.mem_append.mp h with h | h
      · exact hhead h
      · obtain ⟨b, done, rest, d', rfl, hdone, hb⟩ := ih h
        refine ⟨b, a :: done, rest, d', rfl, ?_, hb⟩
        rw [handleActions, Handled.andThen, hd]
        exact hdone

/-- Every `Ok` of an event is given while one of its actions is handled. -/
theorem exists_confirms_of_event (h : .respond ch none ∈ (d.handleEvent app rnd event).1) :
    ∃ after actions a, d.core.call rnd event.request = some (after, actions) ∧
      (d.intake event after actions).Confirms app actions a ch := by
  cases hc : d.core.call rnd event.request with
  | none =>
    rw [handleEvent_of_panic hc] at h
    cases h
  | some r =>
    rw [handleEvent_of_call hc, Handled.andThen] at h
    refine ⟨r.1, r.2, ?_⟩
    simp only [true_and]
    cases hd : ((d.intake event r.1 r.2).handleActions app r.2).2 with
    | none =>
      rw [hd] at h
      exact exists_confirms h
    | some d₁ =>
      rw [hd] at h
      refine exists_confirms ((List.mem_append.mp h).resolve_right fun h => ?_)
      -- what follows the actions are refusals
      rcases d.conclude_cases event d₁ with ⟨hc', -⟩ | ⟨-, -, -, hc'⟩
      · rw [hc'] at h
        dsimp only at h
        split_ifs at h
        · cases h
        · obtain ⟨c, -, hc⟩ := List.mem_map.mp h
          cases hc
      · rw [hc', drainPending, run] at h
        obtain ⟨c, -, hc⟩ := List.mem_map.mp h
        cases hc

theorem respond_notMem_takeSnapshot (d : RaftDriver) :
    .respond ch none ∉ (d.takeSnapshot app).1 := by
  rcases takeSnapshot_cases app d with h | ⟨metadata, -, h⟩ | ⟨metadata, core, -, -, h⟩ <;>
    simp [h]

theorem mem_answers {i : ℕ} :
    .respond ch none ∈ d.answers i ↔ d.pendingProposals.lookup i = some ch := by
  simp [answers]

/-- An entry answers the client that waits for its index, a barrier the one that waits for
it. -/
theorem respond_of_handleAction (h : .respond ch none ∈ (d.handleAction app a).1) :
    (∃ i command, a = .applyToStateMachine i command ∧ d.pendingProposals.lookup i = some ch) ∨
      ∃ id, a = .readBarrierReady id ∧ d.pendingReads.lookup id = some ch := by
  cases a with
  | applyToStateMachine i command =>
    refine Or.inl ⟨i, command, rfl, ?_⟩
    rw [handleAction] at h
    by_cases hc : command = []
    · subst hc
      rw [applyToStateMachine_nil] at h
      exact mem_answers.mp h
    · rw [applyToStateMachine_cons d i hc, Handled.andThen] at h
      dsimp only at h
      rcases List.mem_append.mp h with h | h
      · rcases List.mem_append.mp h with h | h
        · exact mem_answers.mp h
        · cases List.mem_singleton.mp h
      · split_ifs at h
        · exact absurd h (respond_notMem_takeSnapshot _)
        · cases h
  | readBarrierReady id =>
    refine Or.inr ⟨id, rfl, ?_⟩
    obtain ⟨c, hc, heq⟩ := List.mem_map.mp h
    obtain ⟨rfl, -⟩ := Effect.respond.inj heq
    exact Option.mem_toList.mp hc
  | sendInstallSnapshot target term i t =>
    rw [handleAction] at h
    cases hb : d.storage.retrieveSnapshotBytes with
    | none =>
      rw [hb] at h
      cases h
    | some data =>
      rw [hb] at h
      cases List.mem_singleton.mp h
  | sendMessage | persistMetadata | persistLogEntries =>
    cases List.mem_singleton.mp h
  | installSnapshot => simp [handleAction, run] at h

/-- Whoever is told `Ok` waited when the driver turned to the actions. -/
theorem Confirms.cases (h : d.Confirms app actions a ch) :
    (∃ i command, a = .applyToStateMachine i command ∧ a ∈ actions ∧
      d.pendingProposals.lookup i = some ch) ∨
      ∃ id, a = .readBarrierReady id ∧ d.pendingReads.lookup id = some ch := by
  obtain ⟨done, rest, d', rfl, hd, h⟩ := h
  have hs : d.Serves done (d.handleActions app done).1 d' := serves_handleActions (Prod.ext rfl hd)
  rcases respond_of_handleAction h with ⟨i, command, rfl, hi⟩ | ⟨id, rfl, hid⟩
  · exact Or.inl ⟨i, command, rfl, by simp, ((hs.proposals i ch).mp hi).1⟩
  · exact Or.inr ⟨id, rfl, ((hs.reads id ch).mp hid).1⟩

/-- One AppendEntries of a higher term makes the leader step down, puts another entry at an
index a client waits for and commits it. -/
def Displaced (d : RaftDriver) : Event → Prop
  | .message (.appendEntries req) => d.core.state = .leader ∧ d.core.currentTerm < req.term ∧
      d.core.appendEntriesValid req = true ∧ ∃ k : Fin req.entries.length,
        req.prevLogIndex + 1 + k ∈ d.pendingProposals ∧
        d.core.commitIndex < req.prevLogIndex + 1 + k ∧
        req.prevLogIndex + 1 + k ≤ req.leaderCommit ∧ d.core.Conflicts req k ∧
        d.core.logEntryAt (req.prevLogIndex + 1 + k) ≠ some (req.entries.get k)
  | _ => False

instance (d : RaftDriver) : (event : Event) → Decidable (d.Displaced event)
  | .message (.appendEntries req) =>
    inferInstanceAs (Decidable (d.core.state = .leader ∧ d.core.currentTerm < req.term ∧
      d.core.appendEntriesValid req = true ∧ ∃ k : Fin req.entries.length,
        req.prevLogIndex + 1 + k ∈ d.pendingProposals ∧
        d.core.commitIndex < req.prevLogIndex + 1 + k ∧
        req.prevLogIndex + 1 + k ≤ req.leaderCommit ∧ d.core.Conflicts req k ∧
        d.core.logEntryAt (req.prevLogIndex + 1 + k) ≠ some (req.entries.get k)))
  | .message (.requestVote _) | .message (.requestVoteResponse _)
  | .message (.appendEntriesResponse _) | .message (.installSnapshot _)
  | .message (.installSnapshotResponse _) | .tick | .propose _ _ | .read _ =>
    inferInstanceAs (Decidable False)

/-- A displaced leader does not lead after the call. -/
theorem not_displaced_of_leads (ho : d.core.Outcome rnd event.request after actions)
    (hl' : d.core.state = .leader → after.state = .leader) : ¬d.Displaced event := by
  cases event with
  | message msg =>
    cases msg with
    | appendEntries req =>
      rintro ⟨hl, ht, hv, -⟩
      have hlead := hl' hl
      cases ho with
      | rejectAppend h =>
        rw [RaftCore.termChecked_of_lt ht] at h
        rcases h with h | h
        · cases h
        · omega
      | conflictAppend _ _ hv' =>
        rw [hv] at hv'
        cases hv'
      | acceptAppend ht hl₁ hv' ha =>
        have hacc : d.core.Accepts rnd req after := ⟨ht, hl₁, hv', _, ha⟩
        rw [hacc.frame.1] at hlead
        cases hlead
    | _ => exact fun h => h
  | _ => exact fun h => h

/-- Who waits for an index once a new client is entered. -/
theorem lookup_intake_proposals (ho : d.core.Outcome rnd event.request after actions) {i : ℕ}
    (h : (d.intake event after actions).pendingProposals.lookup i = some ch) :
    (∃ command, event = .propose command ch ∧ d.core.state = .leader ∧
      i = d.core.lastLogIndex + 1) ∨
    d.pendingProposals.lookup i = some ch ∧ ∀ command, event.request = .propose command →
      d.core.state = .leader → i ≠ d.core.lastLogIndex + 1 := by
  cases event with
  | tick | message => exact Or.inr ⟨h, nofun⟩
  | read =>
    rw [intake_read] at h
    split_ifs at h <;> exact Or.inr ⟨h, nofun⟩
  | propose command respond =>
    rw [intake_propose ho] at h
    split_ifs at h with hl
    · rcases lookup_insert_cases h with ⟨rfl, rfl⟩ | ⟨hi, h⟩
      · exact Or.inl ⟨command, rfl, hl, rfl⟩
      · exact Or.inr ⟨h, fun _ _ _ => hi⟩
    · exact Or.inr ⟨h, fun _ _ hl' => absurd hl' hl⟩

/-- Who waits for a barrier once a new client is entered. -/
theorem lookup_intake_reads (ho : d.core.Outcome rnd event.request after actions) {id : ℕ}
    (h : (d.intake event after actions).pendingReads.lookup id = some ch) :
    event = .read ch ∨ d.pendingReads.lookup id = some ch := by
  cases event with
  | tick | message => exact Or.inr h
  | propose =>
    rw [intake_propose ho] at h
    split_ifs at h <;> exact Or.inr h
  | read respond =>
    rw [intake_read] at h
    split_ifs at h with hl
    · rcases lookup_insert_cases h with ⟨-, rfl⟩ | ⟨-, h⟩
      · exact Or.inl rfl
      · exact Or.inr h
    · exact Or.inr h

/-- An entry at an index a client waits for, as long as the node leads or when it is
applied, is the one the leader had there or has just appended. -/
theorem entry_of_pending (hl : d.core.state = .leader) (hok : ¬d.Displaced event)
    (ho : d.core.Outcome rnd event.request after actions) {i : ℕ} {e : LogEntry}
    (hi : i ∈ d.pendingProposals)
    (happ : after.state = .leader ∨ ∃ command, .applyToStateMachine i command ∈ actions)
    (he : after.logEntryAt i = some e) : d.core.logEntryAt i = some e ∨
      ∃ command, event.request = .propose command ∧ i = d.core.lastLogIndex + 1 ∧
        e = ⟨d.core.currentTerm, command⟩ := by
  rcases ho.entry_cases he with hold | ⟨-, hpush⟩ | ⟨req, hreq, hacc, k, rfl, rfl, hk⟩
  · exact Or.inl hold
  · exact Or.inr (hpush hl)
  · -- the node has stepped down, so the entry is applied at once
    have hterm : d.core.currentTerm < req.term := by
      by_contra hge
      have := hacc.not_leader
      rw [RaftCore.termChecked_of_le (Nat.not_lt.mp hge)] at this
      exact this hl
    have hstate : after.state ≠ .leader := by simp [hacc.frame.1]
    obtain ⟨command, ha⟩ := happ.resolve_left hstate
    rw [hreq] at ho
    obtain ⟨hlo, hhi⟩ := ho.applied_window ha
    obtain rfl : event = .message (.appendEntries req) := by
      cases event with
      | message msg => exact congrArg Event.message (Request.message.inj hreq)
      | _ => cases hreq
    by_contra hne
    exact hok ⟨hl, hterm, hacc.valid, k, hi, hlo, hhi, hk, fun h => hne (Or.inl h)⟩

end RaftDriver

/-! ## Sessions -/

namespace Session

variable {app : List AppliedEntry → Bytes} {s s' : Session} {event : RaftDriver.Event} {rnd : ℕ}
  {after : RaftCore} {actions : List Action} {ch : Channel}

/-- What a channel stands for is known from what has come. -/
theorem eq_of_channel {events : List RaftDriver.Event}
    (h : (events.filterMap RaftDriver.Event.channel).Nodup) {e₁ e₂ : RaftDriver.Event}
    (h₁ : e₁ ∈ events) (h₂ : e₂ ∈ events) (hc₁ : e₁.channel = some ch)
    (hc₂ : e₂.channel = some ch) : e₁ = e₂ := by
  induction events with
  | nil => cases h₁
  | cons e events ih =>
    have hmem : ∀ {e' : RaftDriver.Event}, e' ∈ events → e'.channel = some ch →
        ch ∈ events.filterMap RaftDriver.Event.channel := fun hm hc =>
      List.mem_filterMap.mpr ⟨_, hm, hc⟩
    cases hc : e.channel with
    | none =>
      rw [List.filterMap_cons_none hc] at h
      have hne : ∀ {e' : RaftDriver.Event}, e' ∈ e :: events → e'.channel = some ch →
          e' ∈ events := fun hm hc' => (List.mem_cons.mp hm).resolve_left fun heq => by
        rw [heq, hc] at hc'
        cases hc'
      exact ih h (hne h₁ hc₁) (hne h₂ hc₂)
    | some c =>
      rw [List.filterMap_cons_some hc, List.nodup_cons] at h
      rcases List.mem_cons.mp h₁ with rfl | hm₁ <;> rcases List.mem_cons.mp h₂ with rfl | hm₂
      · rfl
      · obtain rfl := Option.some.inj (hc.symm.trans hc₁)
        exact absurd (hmem hm₂ hc₂) h.1
      · obtain rfl := Option.some.inj (hc.symm.trans hc₂)
        exact absurd (hmem hm₁ hc₁) h.1
      · exact ih h.2 hm₁ hm₂

/-- Whoever waits for a proposal holds a ticket, and the log has nothing else at its index. -/
structure Filed (s : Session) : Prop where
  follower : s.driver.core.state ≠ .leader → s.driver.pendingProposals = ∅
  ticket : ∀ i ch, s.driver.pendingProposals.lookup i = some ch → ∃ t ∈ s.tickets,
    t.channel = ch ∧ t.index = i ∧
      ∀ e, s.driver.core.logEntryAt i = some e → e = ⟨t.term, t.command⟩
  proposed : ∀ t ∈ s.tickets, .propose t.command t.channel ∈ s.events
  reads : ∀ id ch, s.driver.pendingReads.lookup id = some ch → .read ch ∈ s.events
  nodup : s.channels.Nodup
  unique : (s.tickets.map Ticket.channel).Nodup

theorem nodup_cons_event (h : s.channels.Nodup) (hfresh : ∀ ch ∈ event.channel, ch ∉ s.channels) :
    ((event :: s.events).filterMap RaftDriver.Event.channel).Nodup := by
  cases hc : event.channel with
  | none => rwa [List.filterMap_cons_none hc]
  | some ch =>
    rw [List.filterMap_cons_some hc]
    exact List.nodup_cons.mpr ⟨hfresh ch hc, h⟩

theorem ticket_eq_some {d : RaftDriver} {t : Ticket} (h : d.ticket event = some t) :
    event = .propose t.command t.channel ∧ d.core.state = .leader ∧
      t.index = d.core.lastLogIndex + 1 ∧ t.term = d.core.currentTerm := by
  cases event with
  | propose command respond =>
    rw [RaftDriver.ticket] at h
    split_ifs at h with hl
    obtain rfl := Option.some.inj h
    exact ⟨rfl, hl, rfl, rfl⟩
  | tick | read | message => cases h

namespace Filed

theorem proposed_cons (h : s.Filed) :
    ∀ t ∈ (s.driver.ticket event).toList ++ s.tickets,
      .propose t.command t.channel ∈ event :: s.events := by
  intro t ht
  rcases List.mem_append.mp ht with ht | ht
  · rw [← (ticket_eq_some (Option.mem_toList.mp ht)).1]
    exact List.mem_cons_self
  · exact List.mem_cons_of_mem _ (h.proposed t ht)

theorem unique_cons (h : s.Filed) (hfresh : ∀ ch ∈ event.channel, ch ∉ s.channels) :
    (((s.driver.ticket event).toList ++ s.tickets).map Ticket.channel).Nodup := by
  cases ht : s.driver.ticket event with
  | none => exact h.unique
  | some t =>
    obtain ⟨rfl, -⟩ := ticket_eq_some ht
    refine List.nodup_cons.mpr ⟨fun hm => ?_, h.unique⟩
    obtain ⟨t', ht', heq⟩ := List.mem_map.mp hm
    refine hfresh t.channel rfl (List.mem_filterMap.mpr ⟨_, h.proposed t' ht', ?_⟩)
    exact congrArg some heq

/-- When the driver turns to the actions of an event, whoever waits for a proposal holds a
ticket, and has reason to : at its index the log has the entry of the ticket, unless the node
has stepped down and does not apply it. -/
theorem intake (h : s.Filed) (hok : ¬s.driver.Displaced event)
    (ho : s.driver.core.Outcome rnd event.request after actions) {i : ℕ}
    (hi : (s.driver.intake event after actions).pendingProposals.lookup i = some ch) :
    s.driver.core.state = .leader ∧ ∃ t ∈ (s.driver.ticket event).toList ++ s.tickets,
      t.channel = ch ∧ t.index = i ∧
        ((after.state = .leader ∨ ∃ command, .applyToStateMachine i command ∈ actions) →
          ∀ e, after.logEntryAt i = some e → e = ⟨t.term, t.command⟩) := by
  rcases RaftDriver.lookup_intake_proposals ho hi with ⟨command, rfl, hl, rfl⟩ | ⟨hold, hnew⟩
  · refine ⟨hl, ⟨ch, s.driver.core.lastLogIndex + 1, s.driver.core.currentTerm, command⟩, ?_, rfl,
      rfl, fun _ e he => ?_⟩
    · rw [RaftDriver.ticket, if_pos hl]
      exact List.mem_cons_self
    · rcases ho.entry_cases he with hold | ⟨-, hpush⟩ | ⟨req, hreq, -⟩
      · have := (RaftCore.logTermAt_eq_some.mp (RaftCore.logTermAt_of_logEntryAt hold)).2.1
        omega
      · obtain ⟨c, hreq, -, rfl⟩ := hpush hl
        cases hreq
        rfl
      · cases hreq
  · have hmem : i ∈ s.driver.pendingProposals := AList.lookup_isSome.mp (by simp [hold])
    have hl : s.driver.core.state = .leader := by
      by_contra hl
      rw [h.follower hl] at hmem
      exact AList.notMem_empty i hmem
    obtain ⟨t, ht, hch, hidx, hent⟩ := h.ticket i ch hold
    refine ⟨hl, t, List.mem_append_right _ ht, hch, hidx, fun happ e he => ?_⟩
    rcases RaftDriver.entry_of_pending hl hok ho hmem happ he with he' | ⟨command, hreq, hi', -⟩
    · exact hent e he'
    · exact absurd hi' (hnew command hreq hl)

/-- Every event keeps the tickets in order. -/
theorem step (h : s.Filed) (hs : (machine app).step s (event, rnd) = some s') : s'.Filed := by
  obtain ⟨hfresh, effects, he, -, hev, htk, -⟩ := step_cases hs
  obtain ⟨after, actions, served, rest, d₁, hc, hserve, hd, -⟩ := RaftDriver.handleEvent_serves he
  have ho := RaftCore.call_outcome hc
  have hcore := hserve.core
  rw [RaftDriver.core_intake] at hcore
  have hst : d₁.core.state = after.state := by rw [hcore.frame]
  have hread : ∀ id ch, d₁.pendingReads.lookup id = some ch → .read ch ∈ event :: s.events := by
    intro id ch hid
    rcases RaftDriver.lookup_intake_reads ho ((hserve.reads id ch).mp hid).1 with rfl | hold
    · exact List.mem_cons_self
    · exact List.mem_cons_of_mem _ (h.reads id ch hold)
  have hnodup : s'.channels.Nodup := by
    rw [channels, hev]
    exact nodup_cons_event h.nodup hfresh
  rcases s.driver.conclude_cases event d₁ with ⟨hc', hmsg⟩ | ⟨-, hl', -, hc'⟩
  · have hd₁ : s'.driver = d₁ := Option.some.inj (Prod.mk.inj (hd.symm.trans hc')).2
    have hstay := RaftDriver.leads_of_concluded ho hst hmsg
    have hok := RaftDriver.not_displaced_of_leads ho hstay
    refine ⟨fun hl' => ?_, fun i ch hi => ?_, ?_, ?_, hnodup, ?_⟩
    · rw [hd₁] at hl' ⊢
      refine eq_empty_of_notMem fun i hi => ?_
      obtain ⟨ch, hi⟩ := Option.isSome_iff_exists.mp (AList.lookup_isSome.mpr hi)
      exact hl' (hst.trans (hstay (h.intake hok ho ((hserve.proposals i ch).mp hi).1).1))
    · rw [hd₁] at hi ⊢
      rw [htk]
      obtain ⟨hl, t, ht, hch, hidx, hent⟩ := h.intake hok ho ((hserve.proposals i ch).mp hi).1
      refine ⟨t, ht, hch, hidx, fun e hentry => hent (Or.inl (hstay hl)) e ?_⟩
      rw [← hcore.entries i (RaftCore.lt_of_logEntryAt hentry)]
      exact hentry
    · rw [htk, hev]
      exact h.proposed_cons
    · rw [hd₁, hev]
      exact hread
    · rw [htk]
      exact h.unique_cons hfresh
  · rw [hd, RaftDriver.drainPending, RaftDriver.run, RaftDriver.foldl_perform_respond] at hc'
    have hd₁ := Option.some.inj (Prod.mk.inj hc').2
    refine ⟨fun _ => ?_, fun i ch hi => ?_, ?_, fun id ch hid => ?_, hnodup, ?_⟩
    · rw [hd₁]
    · rw [hd₁] at hi
      cases hi
    · rw [htk, hev]
      exact h.proposed_cons
    · rw [hd₁] at hid
      cases hid
    · rw [htk]
      exact h.unique_cons hfresh

end Filed

theorem filed_start {cfg : DriverConfig} {storage : Storage} {d : RaftDriver}
    (h : cfg.new storage rnd = some d) : (start d).Filed := by
  obtain ⟨core, -, rfl⟩ := cfg.started_of_new h
  exact ⟨fun _ => rfl, nofun, nofun, nofun, List.nodup_nil, List.nodup_nil⟩

/-- What confirms a proposal applies the entry that was made for it : a barrier is no business
of its client, and what is applied at a pending index is the entry of the ticket. -/
theorem Filed.ticket_of_confirms {a : Action}
    {command : Bytes} (h : s.Filed) (hfresh : ∀ ch ∈ event.channel, ch ∉ s.channels)
    (hok : ¬s.driver.Displaced event) (hp : .propose command ch ∈ event :: s.events)
    (ho : s.driver.core.Outcome rnd event.request after actions)
    (ha : (s.driver.intake event after actions).Confirms app actions a ch) :
    ∃ t ∈ (s.driver.ticket event).toList ++ s.tickets, t.channel = ch ∧
      a = .applyToStateMachine t.index t.command ∧
      after.logEntryAt t.index = some ⟨t.term, t.command⟩ := by
  rcases ha.cases with ⟨i, c, rfl, hmem, hi⟩ | ⟨id, -, hid⟩
  · obtain ⟨-, t, ht, hch, rfl, hent⟩ := h.intake hok ho hi
    obtain ⟨e, he, rfl⟩ : ∃ e, after.logEntryAt t.index = some e ∧ e.command = c := by
      cases ho.emits hmem with
      | leading hb => exact (RaftCore.leading_of_build hb).elim
      | apply _ he => exact ⟨_, he, rfl⟩
    obtain rfl := hent (Or.inr ⟨_, hmem⟩) e he
    exact ⟨t, ht, hch, rfl, he⟩
  · have hread : .read ch ∈ event :: s.events := by
      rcases RaftDriver.lookup_intake_reads ho hid with rfl | hold
      · exact List.mem_cons_self
      · exact List.mem_cons_of_mem _ (h.reads id ch hold)
    cases eq_of_channel (nodup_cons_event h.nodup hfresh) hp hread rfl rfl

/-- `Ok` means that the proposal is committed : in every run without a displaced proposal,
whenever the driver answers `Ok` to a client that has proposed a command, there is exactly
one entry that was made for it, and the action being handled applies that entry. -/
theorem confirmed_own_entry {cfg : DriverConfig} {storage : Storage} {d₀ : RaftDriver}
    {rnd₀ : ℕ} {command : Bytes} (h₀ : cfg.new storage rnd₀ = some d₀)
    (h : (machine app).Run (fun s input => ¬s.driver.Displaced input.1) (start d₀) s)
    (hfresh : ∀ ch ∈ event.channel, ch ∉ s.channels) (hok : ¬s.driver.Displaced event)
    (hp : .propose command ch ∈ event :: s.events)
    (hm : .respond ch none ∈ (s.driver.handleEvent app rnd event).1) :
    ∃ after actions t, s.driver.core.call rnd event.request = some (after, actions) ∧
      t ∈ (s.driver.ticket event).toList ++ s.tickets ∧ t.channel = ch ∧ t.command = command ∧
      (∀ t' ∈ (s.driver.ticket event).toList ++ s.tickets, t'.channel = ch → t' = t) ∧
      (∃ a, (s.driver.intake event after actions).Confirms app actions a ch) ∧
      ∀ a, (s.driver.intake event after actions).Confirms app actions a ch →
        a = .applyToStateMachine t.index command ∧
          after.logEntryAt t.index = some ⟨t.term, command⟩ := by
  have hs : s.Filed := h.invariant (filed_start h₀) fun s input s' hs _ hstep => hs.step hstep
  obtain ⟨after, actions, a, hc, hconf⟩ := RaftDriver.exists_confirms_of_event hm
  have ho := RaftCore.call_outcome hc
  have hunique : ∀ t ∈ (s.driver.ticket event).toList ++ s.tickets, ∀ t' ∈
      (s.driver.ticket event).toList ++ s.tickets, t'.channel = t.channel → t' = t :=
    fun t ht t' ht' heq => List.inj_on_of_nodup_map (hs.unique_cons hfresh) ht' ht heq
  obtain ⟨t, ht, rfl, -⟩ := hs.ticket_of_confirms hfresh hok hp ho hconf
  have hcmd : t.command = command := by
    cases eq_of_channel (nodup_cons_event hs.nodup hfresh) hp (hs.proposed_cons t ht) rfl rfl
    rfl
  refine ⟨after, actions, t, hc, ht, rfl, hcmd, fun t' ht' => hunique t ht t' ht', ⟨a, hconf⟩,
    fun b hb => ?_⟩
  obtain ⟨t', ht', hch', hb', he'⟩ := hs.ticket_of_confirms hfresh hok hp ho hb
  obtain rfl := hunique t ht t' ht' hch'
  rw [← hcmd]
  exact ⟨hb', he'⟩

/-- A proposal and the success that commits it. -/
def proposal : List (RaftDriver.Event × ℕ) :=
  [(.tick, 1), (.message (.requestVoteResponse ⟨2, 1, true⟩), 1), (.propose [7] 5, 1)]

theorem confirmed_own_entry_proposal : ∃ s after actions t,
    (machine fun _ => []).Run (fun s input => ¬s.driver.Displaced input.1) (start (rare.boot 1)) s ∧
    s.driver.core.call 1 (.message (.appendEntriesResponse ⟨2, 1, 2, true, none, none⟩)) =
      some (after, actions) ∧
    t ∈ s.tickets ∧ t.channel = 5 ∧ t.command = [7] ∧
    after.logEntryAt t.index = some ⟨t.term, [7]⟩ := by
  obtain ⟨s, hs, hfresh, hok, hp, hm⟩ := (machine fun _ => []).exists_run_of_exec
    (fun s input => ¬s.driver.Displaced input.1) (start (rare.boot 1)) proposal
    (fun s => (∀ ch ∈ RaftDriver.Event.channel
        (.message (.appendEntriesResponse ⟨2, 1, 2, true, none, none⟩)), ch ∉ s.channels) ∧
      ¬s.driver.Displaced (.message (.appendEntriesResponse ⟨2, 1, 2, true, none, none⟩)) ∧
      .propose [7] 5 ∈ .message (.appendEntriesResponse ⟨2, 1, 2, true, none, none⟩) :: s.events ∧
      .respond 5 none ∈ (s.driver.handleEvent (fun _ => []) 1
        (.message (.appendEntriesResponse ⟨2, 1, 2, true, none, none⟩))).1)
    (by decide +kernel) (by decide +kernel)
  have h₀ : rare.new Storage.empty 1 = some (rare.boot 1) := rfl
  obtain ⟨after, actions, t, hc, ht, hch, hcmd, -, ⟨a, ha⟩, hall⟩ :=
    confirmed_own_entry h₀ hs hfresh hok hp hm
  exact ⟨s, after, actions, t, hs, hc, ht, hch, hcmd, (hall a ha).2⟩

/-- The next leader replaces the proposed entry by its own and says that it is committed. -/
def usurper : RaftDriver.Event :=
  .message (.appendEntries ⟨2, 2, 1, 1, [⟨2, []⟩], 2⟩)

/-- The client that has proposed `[7]` is told `Ok` while the dummy entry of the next leader is
applied. -/
theorem confirmed_usurper : ∃ s after actions,
    (machine fun _ => []).Run (fun _ _ => True) (start (rare.boot 1)) s ∧
    .propose [7] 5 ∈ s.events ∧ s.tickets = [⟨5, 2, 1, [7]⟩] ∧
    s.driver.core.call 1 usurper.request = some (after, actions) ∧
    (s.driver.intake usurper after actions).Confirms (fun _ => []) actions
      (.applyToStateMachine 2 []) 5 ∧
    after.logEntryAt 2 = some ⟨2, []⟩ := by
  obtain ⟨s, hs, hp, ht, hc⟩ := (machine fun _ => []).exists_run_of_exec (fun _ _ => True)
    (start (rare.boot 1)) proposal
    (fun s => .propose [7] 5 ∈ s.events ∧ s.tickets = [⟨5, 2, 1, [7]⟩] ∧
      ((s.driver.core.call 1 usurper.request).any fun r => r.1.logEntryAt 2 = some ⟨2, []⟩ ∧
        r.2[3]? = some (.applyToStateMachine 2 []) ∧
        ((s.driver.intake usurper r.1 r.2).handleActions (fun _ => []) (r.2.take 3)).2.any
          (fun d' =>
            .respond 5 none ∈ (d'.handleAction (fun _ => []) (.applyToStateMachine 2 [])).1)
            = true) = true)
    (by decide +kernel) (Machine.execOk_true _ _)
  obtain ⟨⟨after, actions⟩, hcall, hr⟩ := (Option.any_eq_true _ _).mp hc
  obtain ⟨he, ha, hconf⟩ := of_decide_eq_true hr
  exact ⟨s, after, actions, hs, hp, ht, hcall, RaftDriver.confirms_of_any ha hconf, he⟩

end Session

end FerrisFerry
