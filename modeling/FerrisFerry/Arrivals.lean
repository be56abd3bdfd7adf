import FerrisFerry.Proposals

/-!
# What a turn brings

One turn of the event loop, as it is seen from the application : what is sent on the applied
channel comes from the actions of the call (`RaftDriver.brings_handleEvent`), and a client that
is told `Ok` for its entry has the command sent in the same turn
(`RaftDriver.Confirms.delivers`). On a node that leads before and after the turn, the commands
are those of its log or the one that is proposed (`Session.Filed.turn`).
-/

namespace FerrisFerry

theorem Handled.mem_andThen_left {h : Handled} {f : RaftDriver → Handled} {e : Effect}
    (he : e ∈ h.1) : e ∈ (h.andThen f).1 := by
  unfold Handled.andThen
  cases h.2 with
  | none => exact he
  | some d => exact List.mem_append_left _ he

theorem Handled.mem_andThen_right {h : Handled} {f : RaftDriver → Handled} {e : Effect}
    {d : RaftDriver} (hd : h.2 = some d) (he : e ∈ (f d).1) : e ∈ (h.andThen f).1 := by
  unfold Handled.andThen
  rw [hd]
  exact List.mem_append_right _ he

/-- A leader that stays one and is not sent a snapshot of its own term installs none. -/
theorem RaftCore.Outcome.not_install_of_leader {core core' : RaftCore} {rnd : ℕ} {request : Request}
    {actions : List Action} (h : core.Outcome rnd request core' actions)
    (hl : core.state = .leader) (hl' : core'.state = .leader) (hown : ¬core.OwnSnapshot request)
    (hsnap : ∀ data, request ≠ .snapshot data) (i l : ℕ) (data : Bytes) :
    .installSnapshot i l data ∉ actions := by
  cases h.baseMove hsnap with
  | keep _ ha => exact ha i l data
  | @install req reply hr hi hb =>
    subst hr
    have hkeep := h.stale_of_leader hl hl' hown
    have hidx : core'.lastIncludedIndex = req.lastIncludedIndex := congrArg Point.index hb
    rw [hkeep] at hidx
    omega

/-- A command is in the log. -/
def RaftCore.Holds (core : RaftCore) (command : Bytes) : Prop :=
  ∃ i e, core.logEntryAt i = some e ∧ e.command = command

theorem RaftCore.Holds.mem {core : RaftCore} {command : Bytes} (h : core.Holds command) :
    ∃ e ∈ core.log, e.command = command := by
  obtain ⟨i, e, he, hc⟩ := h
  obtain ⟨j, hj, -, rfl⟩ := RaftCore.logEntryAt_eq_some.mp he
  exact ⟨_, List.getElem_mem hj, hc⟩

namespace RaftDriver

variable {app : List AppliedEntry → Bytes} {d d' : RaftDriver} {a : Action}
  {actions : List Action} {effects : List Effect} {ch : Channel} {event : Event} {rnd : ℕ}

/-- What actions bring to the application. -/
inductive Brings (actions : List Action) : AppliedEntry → Prop
  | command {i : ℕ} {command : Bytes} (h : .applyToStateMachine i command ∈ actions) :
    Brings actions (.command command)
  | snapshot {i l : ℕ} {data : Bytes} (h : .installSnapshot i l data ∈ actions) :
    Brings actions (.snapshot data)
  | request : Brings actions .snapshotRequest

theorem Brings.mono {entry : AppliedEntry} {as bs : List Action} (h : Brings as entry)
    (hs : as ⊆ bs) : Brings bs entry := by
  cases h with
  | command h => exact .command (hs h)
  | snapshot h => exact .snapshot (hs h)
  | request => exact .request

theorem Answers.brings {h : Handled} (ha : d.Answers h) :
    h.Meets (fun e => ∀ entry ∈ e.entry, Brings actions entry) fun _ => True := by
  refine ⟨fun e he entry hentry => ?_, fun _ _ => trivial⟩
  cases ha with
  | panic => cases he
  | some hout =>
    rw [(hout e he).entry] at hentry
    cases hentry

theorem brings_handleAction (d : RaftDriver) (a : Action) :
    (d.handleAction app a).Meets (fun e => ∀ entry ∈ e.entry, Brings [a] entry) fun _ => True := by
  cases a with
  | sendMessage | sendInstallSnapshot | readBarrierReady =>
    exact Answers.brings (answers_of_outward (by trivial) d)
  | persistMetadata | persistLogEntries =>
    refine ⟨fun e he entry hentry => ?_, fun _ _ => trivial⟩
    rw [List.mem_singleton.mp he] at hentry
    cases hentry
  | installSnapshot i l data =>
    refine ⟨fun e he entry hentry => ?_, fun _ _ => trivial⟩
    simp only [handleAction, run, List.mem_cons, List.not_mem_nil, or_false] at he
    rcases he with rfl | rfl | rfl
    · cases hentry
    · obtain rfl := Option.some.inj hentry
      exact .snapshot List.mem_cons_self
    · cases hentry
  | applyToStateMachine index command =>
    by_cases hc : command = []
    · subst hc
      exact Answers.brings (answers_of_outward (a := .applyToStateMachine index []) rfl d)
    · rw [handleAction, applyToStateMachine_cons d index hc]
      refine Handled.Meets.andThen (P := fun _ => True)
        ⟨fun e he entry hentry => ?_, fun _ _ => trivial⟩ fun d₁ _ => ?_
      · rcases List.mem_append.mp he with he | he
        · rw [(outward_respond _ _ e he).entry] at hentry
          cases hentry
        · rw [List.mem_singleton.mp he] at hentry
          obtain rfl := Option.some.inj hentry
          exact .command List.mem_cons_self
      · -- a snapshot asks the application for its state
        refine ⟨fun e he entry hentry => ?_, fun _ _ => trivial⟩
        split_ifs at he
        · rcases takeSnapshot_cases app d₁ with h | ⟨metadata, -, h⟩ | ⟨metadata, core, -, -, h⟩ <;>
            rw [h] at he <;> simp only [List.mem_cons, List.not_mem_nil, or_false] at he
          · subst he
            obtain rfl := Option.some.inj hentry
            exact .request
          · rcases he with rfl | rfl
            · obtain rfl := Option.some.inj hentry
              exact .request
            · cases hentry
          · rcases he with rfl | rfl | rfl
            · obtain rfl := Option.some.inj hentry
              exact .request
            · cases hentry
            · cases hentry
        · cases he

theorem brings_handleActions (d : RaftDriver) (actions : List Action) :
    (d.handleActions app actions).Meets (fun e => ∀ entry ∈ e.entry, Brings actions entry)
      fun _ => True := by
  refine meets_actions trivial fun d₁ _ a hm => ?_
  refine (d₁.brings_handleAction a).mono (fun e he entry hentry => ?_) fun _ h => h
  exact (he entry hentry).mono (List.cons_subset.mpr ⟨hm, List.nil_subset _⟩)

/-- What an event brings to the application comes from the actions of its call. -/
theorem brings_handleEvent {after : RaftCore}
    (hc : d.core.call rnd event.request = some (after, actions)) {entry : AppliedEntry}
    (h : entry ∈ (d.handleEvent app rnd event).1.filterMap Effect.entry) :
    Brings actions entry := by
  obtain ⟨e, he, hentry⟩ := List.mem_filterMap.mp h
  rw [handleEvent_of_call hc] at he
  have hall : (((d.intake event after actions).handleActions app actions).andThen
      (d.conclude event)).Meets (fun e => ∀ entry ∈ e.entry, Brings actions entry) fun _ => True :=
    (brings_handleActions _ actions).andThen fun d₁ _ => (d.answers_conclude event d₁).brings
  exact hall.effects e he entry hentry

/-- Whoever is told `Ok` for an entry has its command delivered in the same event. -/
theorem Confirms.delivers {i : ℕ} {command : Bytes}
    (h : d.Confirms app actions (.applyToStateMachine i command) ch) (hne : command ≠ []) :
    .apply (.command command) ∈ (d.handleActions app actions).1 := by
  obtain ⟨done, rest, d', rfl, hd, -⟩ := h
  rw [handleActions_append]
  refine Handled.mem_andThen_right hd (Handled.mem_andThen_left ?_)
  rw [handleAction, applyToStateMachine_cons d' i hne]
  exact Handled.mem_andThen_left (List.mem_append_right _ List.mem_cons_self)

/-- The role after an event is that after its call, and its log is what is left of the log after
the call. -/
theorem handleEvent_state (h : d.handleEvent app rnd event = (effects, some d')) :
    ∃ after actions, d.core.call rnd event.request = some (after, actions) ∧
      d'.core.state = after.state ∧ after.Trims d'.core := by
  obtain ⟨after, actions, served, rest, d₁, hc, hserve, hd, -⟩ := handleEvent_serves h
  have hcore := hserve.core
  rw [core_intake] at hcore
  have halike : d₁.Alike d' := (d.answers_conclude event d₁).alike (by rw [hd])
  have hd' : d'.core = d₁.core := by rw [halike]
  refine ⟨after, actions, hc, ?_, hd' ▸ hcore⟩
  rw [hd', hcore.frame]

end RaftDriver

namespace Session

variable {app : List AppliedEntry → Bytes} {s s' : Session} {event : RaftDriver.Event} {rnd : ℕ}
  {after : RaftCore} {actions : List Action} {ch : Channel}

/-- A command that the log holds or an event brings. -/
def Offers (s : Session) (event : RaftDriver.Event) (command : Bytes) : Prop :=
  s.driver.core.Holds command ∨ ∃ ch, event = .propose command ch

/-- A turn of a leader that stays one, as the application and the clients see it. -/
structure Turned (app : List AppliedEntry → Bytes) (s : Session) (event : RaftDriver.Event)
    (rnd : ℕ) (s' : Session) : Prop where
  filed : s'.Filed
  events : s'.events = event :: s.events
  applied : s'.driver.applied =
    s.driver.applied ++ (s.driver.handleEvent app rnd event).1.filterMap Effect.entry
  held : ∀ command, s'.driver.core.Holds command → s.Offers event command
  brought : ∀ entry ∈ (s.driver.handleEvent app rnd event).1.filterMap Effect.entry,
    entry = .snapshotRequest ∨ ∃ command, entry = .command command ∧ s.Offers event command
  told : ∀ ch, .respond ch none ∈ (s.driver.handleEvent app rnd event).1 →
    (∃ command, .propose command ch ∈ s'.events ∧ (command ≠ [] → .command command ∈
      (s.driver.handleEvent app rnd event).1.filterMap Effect.entry)) ∨ .read ch ∈ s'.events

/-- The log of a leader after a call has what it had and what was proposed. -/
theorem offers_of_holds (ho : s.driver.core.Outcome rnd event.request after actions)
    (hl : s.driver.core.state = .leader) (hl' : after.state = .leader) {command : Bytes}
    (h : after.Holds command) : s.Offers event command := by
  obtain ⟨i, e, he, rfl⟩ := h
  rcases ho.entry_cases he with hold | ⟨-, hpush⟩ | ⟨req, -, hacc, -⟩
  · exact Or.inl ⟨i, e, hold, rfl⟩
  · obtain ⟨command, hreq, -, rfl⟩ := hpush hl
    cases event with
    | propose command' ch =>
      obtain rfl := Request.propose.inj hreq
      exact Or.inr ⟨ch, rfl⟩
    | tick | read | message => cases hreq
  · rw [hacc.frame.1] at hl'
    cases hl'

/-- What a leader that stays one brings to the application. -/
theorem offers_of_brings (ho : s.driver.core.Outcome rnd event.request after actions)
    (hl : s.driver.core.state = .leader) (hl' : after.state = .leader)
    (hown : ¬s.driver.core.OwnSnapshot event.request) {entry : AppliedEntry}
    (h : RaftDriver.Brings actions entry) : entry = .snapshotRequest ∨
      ∃ command, entry = .command command ∧ s.Offers event command := by
  cases h with
  | request => exact Or.inl rfl
  | @command i command ha =>
    refine Or.inr ⟨command, rfl, ?_⟩
    cases ho.emits ha with
    | leading hb => exact (RaftCore.leading_of_build hb).elim
    | apply _ he => exact offers_of_holds ho hl hl' ⟨_, _, he, rfl⟩
  | snapshot ha =>
    exact absurd ha (ho.not_install_of_leader hl hl' hown event.request_ne_snapshot _ _ _)

theorem Filed.turn (h : s.Filed) (hl : s.driver.core.state = .leader)
    (hs : (machine app).step s (event, rnd) = some s') (hl' : s'.driver.core.state = .leader)
    (hown : ¬s.driver.core.OwnSnapshot event.request) : Turned app s event rnd s' := by
  obtain ⟨hfresh, effects, he, -, hev, -, -⟩ := step_cases hs
  obtain ⟨after, actions, hc, hst, htrims⟩ := RaftDriver.handleEvent_state he
  have ho := RaftCore.call_outcome hc
  rw [hst] at hl'
  have hok := RaftDriver.not_displaced_of_leads ho fun _ => hl'
  refine ⟨h.step hs, hev, ?_, ?_, ?_, ?_⟩
  · exact (s.driver.performs_handleEvent rnd event s'.driver (by rw [he])).2
  · rintro command ⟨i, e, hi, hcmd⟩
    refine offers_of_holds ho hl hl' ⟨i, e, ?_, hcmd⟩
    rw [← htrims.entries i (RaftCore.lt_of_logEntryAt hi)]
    exact hi
  · intro entry hentry
    exact offers_of_brings ho hl hl' hown (RaftDriver.brings_handleEvent hc hentry)
  · intro ch hch
    rw [hev]
    obtain ⟨after', actions', a, hc', hconf⟩ := RaftDriver.exists_confirms_of_event hch
    obtain ⟨rfl, rfl⟩ := Prod.mk.inj (Option.some.inj (hc.symm.trans hc'))
    rcases hconf.cases with ⟨i, command, rfl, -, hi⟩ | ⟨id, -, hid⟩
    · refine Or.inl ?_
      obtain ⟨-, t, ht, rfl, -⟩ := h.intake hok ho hi
      obtain ⟨t', ht', hch', ha, -⟩ :=
        h.ticket_of_confirms hfresh hok (h.proposed_cons t ht) ho hconf
      obtain ⟨-, rfl⟩ := Action.applyToStateMachine.inj ha
      refine ⟨t'.command, hch' ▸ h.proposed_cons t' ht', fun hne => ?_⟩
      refine List.mem_filterMap.mpr ⟨.apply (.command t'.command), ?_, rfl⟩
      rw [RaftDriver.handleEvent_of_call hc]
      exact Handled.mem_andThen_left (hconf.delivers hne)
    · refine Or.inr ?_
      rcases RaftDriver.lookup_intake_reads ho hid with rfl | hold
      · exact List.mem_cons_self
      · exact List.mem_cons_of_mem _ (h.reads id ch hold)

end Session

end FerrisFerry
