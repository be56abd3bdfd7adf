import FerrisFerry.Cluster
import FerrisFerry.Driver

/-!
# Handling, piece by piece

What a piece of handling comes to : the actions one after the other, the snapshot at the
threshold with its two panics (`RaftDriver.takeSnapshot_cases`), a delivered command, and an
event (`RaftDriver.handleEvent_cases`), which is a call of the core, its actions and answers
to clients. The proofs about drivers split on these and never look at an event again.
-/

namespace FerrisFerry

theorem Handled.andThen_assoc (h : Handled) (f g : RaftDriver → Handled) :
    (h.andThen f).andThen g = h.andThen fun d => (f d).andThen g := by
  obtain ⟨effects, r⟩ := h
  cases r with
  | none => rfl
  | some d => cases hf : (f d).2 <;> simp [andThen, hf]

@[simp] theorem Handled.andThen_run_nil (h : Handled) : (h.andThen fun d => d.run []) = h := by
  obtain ⟨effects, r⟩ := h
  cases r with
  | none => rfl
  | some d => simp [andThen, RaftDriver.run]

theorem Storage.replay_append (s : Storage) (e₁ e₂ : List Effect) :
    s.replay (e₁ ++ e₂) = (s.replay e₁).replay e₂ := by
  rw [Storage.replay, List.filterMap_append, List.foldl_append]
  rfl

/-- What is for other nodes and for clients. -/
def Effect.Outward : Effect → Prop
  | .send _ _ | .respond _ _ => True
  | _ => False

theorem Effect.Outward.op {e : Effect} (h : e.Outward) : e.op = none := by
  cases e with
  | store | apply => exact absurd h fun h => h
  | send | respond => rfl

/-- What an effect sends to the application. -/
def Effect.entry : Effect → Option AppliedEntry
  | .apply entry => some entry
  | _ => none

theorem Effect.Outward.entry {e : Effect} (h : e.Outward) : e.entry = none := by
  cases e with
  | store | apply => exact absurd h fun h => h
  | send | respond => rfl

/-- The actions that touch neither the storage nor the application. -/
def Action.Outward : Action → Prop
  | .sendMessage _ _ | .sendInstallSnapshot _ _ _ _ | .readBarrierReady _ => True
  | .applyToStateMachine _ command => command = []
  | _ => False

namespace RaftDriver

variable {app : List AppliedEntry → Bytes} {d d' : RaftDriver}

/-! ## Effects -/

theorem perform_frame (effects : List Effect) (d : RaftDriver) :
    effects.foldl perform d = { d with
      storage := d.storage.replay effects
      applied := (effects.foldl perform d).applied } := by
  induction effects generalizing d with
  | nil => rfl
  | cons e effects ih => cases e <;> exact ih _

theorem foldl_perform_respond (d : RaftDriver) (channels : List Channel)
    (error : Option ProposalError) :
    (channels.map fun channel => Effect.respond channel error).foldl perform d = d := by
  induction channels with
  | nil => rfl
  | cons channel channels ih => exact ih

theorem outward_respond (channels : List Channel) (error : Option ProposalError) :
    ∀ e ∈ channels.map fun channel => Effect.respond channel error, e.Outward := by
  intro e he
  obtain ⟨channel, -, rfl⟩ := List.mem_map.mp he
  trivial

/-- The same driver up to the clients that wait. -/
def Alike (d d' : RaftDriver) : Prop :=
  d' = { d with
    pendingProposals := d'.pendingProposals
    pendingReads := d'.pendingReads }

/-- Handling that only sends and answers, or panics before it does anything. -/
inductive Answers (d : RaftDriver) : Handled → Prop
  | panic : Answers d ([], none)
  | some {effects : List Effect} {d' : RaftDriver} (he : ∀ e ∈ effects, e.Outward)
      (hd : d.Alike d') : Answers d (effects, some d')

theorem Answers.alike {h : Handled} (ha : d.Answers h) (hd : h.2 = .some d') : d.Alike d' := by
  cases ha with
  | panic => cases hd
  | some _ hd' =>
    obtain rfl := Option.some.inj hd
    exact hd'

/-! ## Actions -/

theorem handleActions_append (d : RaftDriver) (as bs : List Action) :
    d.handleActions app (as ++ bs) =
      (d.handleActions app as).andThen fun d => d.handleActions app bs := by
  induction as generalizing d with
  | nil => rfl
  | cons a as ih =>
    simp only [List.cons_append, handleActions, ih, Handled.andThen_assoc]

/-- The number of commands the actions deliver to the application. -/
def delivered (actions : List Action) : ℕ :=
  actions.countP fun
    | .applyToStateMachine _ command => command ≠ []
    | _ => false

theorem delivered_cons_of_ne {a : Action} {actions : List Action}
    (h : ∀ i command, a = .applyToStateMachine i command → command = []) :
    delivered (a :: actions) = delivered actions := by
  unfold delivered
  refine List.countP_cons_of_neg ?_
  cases a with
  | applyToStateMachine i command => simp [h i command rfl]
  | _ => simp

theorem delivered_cons {i : ℕ} {command : Bytes} (hc : command ≠ []) (actions : List Action) :
    delivered (.applyToStateMachine i command :: actions) = delivered actions + 1 := by
  unfold delivered
  exact List.countP_cons_of_pos (by simpa using hc)

theorem delivered_append (as bs : List Action) :
    delivered (as ++ bs) = delivered as + delivered bs :=
  List.countP_append

theorem delivered_eq_zero {actions : List Action}
    (h : ∀ i command, .applyToStateMachine i command ∉ actions) : delivered actions = 0 := by
  refine List.countP_eq_zero.mpr fun a ha => ?_
  cases a with
  | applyToStateMachine i command => exact absurd ha (h i command)
  | _ => simp

/-! ## Snapshots and commands -/

/-- The snapshot the driver stores at the threshold. -/
def snapshotAt (app : List AppliedEntry → Bytes) (d : RaftDriver) (metadata : SnapshotMetadata) :
    Snapshot :=
  ⟨metadata.lastApplied, metadata.lastAppliedTerm, app (d.applied ++ [.snapshotRequest])⟩

/-- A snapshot at the threshold panics in the core, before or after it is stored, or it is
stored, taken over by the core and followed by clearing the log. -/
theorem takeSnapshot_cases (app : List AppliedEntry → Bytes) (d : RaftDriver) :
    d.takeSnapshot app = ([.apply .snapshotRequest], none) ∨
    (∃ metadata, d.core.prepareSnapshot = some metadata ∧
      d.takeSnapshot app =
        ([.apply .snapshotRequest, .store (.storeSnapshot (d.snapshotAt app metadata))], none)) ∨
    ∃ metadata core, d.core.prepareSnapshot = some metadata ∧
      d.core.completeSnapshot metadata = some core ∧
      d.takeSnapshot app =
        ([.apply .snapshotRequest, .store (.storeSnapshot (d.snapshotAt app metadata)),
          .store .truncateLog],
        some { d with
          core := core
          numEntries := 0
          storage := (d.storage.exec (.storeSnapshot (d.snapshotAt app metadata))).exec .truncateLog
          applied := d.applied ++ [.snapshotRequest] }) := by
  cases hp : d.core.prepareSnapshot with
  | none => exact Or.inl (by simp [takeSnapshot, Handled.andThen, run, perform, hp])
  | some metadata =>
    cases hc : d.core.completeSnapshot metadata with
    | none =>
      refine Or.inr (Or.inl ⟨metadata, rfl, ?_⟩)
      simp [takeSnapshot, Handled.andThen, run, perform, hp, hc, snapshotAt]
    | some core =>
      refine Or.inr (Or.inr ⟨metadata, core, rfl, hc, ?_⟩)
      simp [takeSnapshot, Handled.andThen, run, perform, hp, hc, snapshotAt]

/-- The driver with a command delivered. -/
def deliver (d : RaftDriver) (index : ℕ) (command : Bytes) : RaftDriver :=
  { d with
    pendingProposals := d.pendingProposals.erase index
    numEntries := d.numEntries + 1
    applied := d.applied ++ [.command command] }

/-- The answer to the client that waits for an index. -/
def answers (d : RaftDriver) (index : ℕ) : List Effect :=
  (d.pendingProposals.lookup index).toList.map fun channel => .respond channel none

/-- Answering a client and delivering a command is not for the storage. -/
theorem no_op_deliver (d : RaftDriver) (index : ℕ) (command : Bytes) :
    ∀ e ∈ d.answers index ++ [.apply (.command command)], e.op = none := by
  intro e he
  rcases List.mem_append.mp he with he | he
  · exact (outward_respond _ _ e he).op
  · rw [List.mem_singleton.mp he]
    rfl

theorem applyToStateMachine_nil (d : RaftDriver) (index : ℕ) :
    d.applyToStateMachine app index [] =
      (d.answers index, some { d with pendingProposals := d.pendingProposals.erase index }) := by
  simp only [applyToStateMachine, run, Handled.andThen, foldl_perform_respond, if_true,
    List.foldl_nil, List.append_nil]
  rfl

/-- A command is delivered, and a snapshot taken if the threshold is reached. -/
theorem applyToStateMachine_cons (d : RaftDriver) (index : ℕ) {command : Bytes}
    (hc : command ≠ []) :
    d.applyToStateMachine app index command =
      Handled.andThen
        (d.answers index ++ [.apply (.command command)], some (d.deliver index command))
        fun d => if d.snapshotThreshold ≤ d.numEntries then d.takeSnapshot app else d.run [] := by
  simp only [applyToStateMachine, run, Handled.andThen, foldl_perform_respond, if_neg hc,
    List.foldl_cons, List.foldl_nil, ← List.append_assoc]
  rfl

theorem answers_of_outward {a : Action} (h : a.Outward) (d : RaftDriver) :
    d.Answers (d.handleAction app a) := by
  cases a with
  | persistMetadata | persistLogEntries | installSnapshot => exact absurd h fun h => h
  | sendMessage target message => exact .some (fun e he => List.mem_singleton.mp he ▸ trivial) rfl
  | sendInstallSnapshot target term i t =>
    rw [handleAction]
    cases d.storage.retrieveSnapshotBytes with
    | none => exact .panic
    | some data => exact .some (fun e he => List.mem_singleton.mp he ▸ trivial) rfl
  | readBarrierReady id =>
    rw [handleAction, run, foldl_perform_respond]
    exact .some (outward_respond _ _) rfl
  | applyToStateMachine index command =>
    obtain rfl : command = [] := h
    rw [handleAction, applyToStateMachine_nil]
    exact .some (outward_respond _ _) rfl

/-! ## Events -/

/-- A snapshot at the threshold is not an event of its own. -/
theorem Event.request_ne_snapshot (event : Event) (data : Bytes) :
    event.request ≠ .snapshot data := by
  cases event <;> exact fun h => by cases h

/-- The driver as it turns to the actions of an event : the core is called, and a client that
has to wait is entered in its map. -/
def intake (d : RaftDriver) (event : Event) (after : RaftCore) (actions : List Action) :
    RaftDriver :=
  match event with
  | .propose _ respond =>
    match firstPersisted actions with
    | some startIndex =>
      { d with core := after, pendingProposals := d.pendingProposals.insert startIndex respond }
    | none => { d with core := after }
  | .read respond =>
    match d.core.requestReadBarrier.2 with
    | some id => { d with core := after, pendingReads := d.pendingReads.insert id respond }
    | none => { d with core := after }
  | .tick | .message _ => { d with core := after }

/-- What follows the actions of an event : a client whose request was refused is told so, and
a leader that no longer leads tells everybody who waits. -/
def conclude (d : RaftDriver) (event : Event) (d' : RaftDriver) : Handled :=
  match event with
  | .propose _ respond | .read respond =>
    if d.core.state = .leader then d'.run []
    else d'.run [.respond respond (some (.followerNode d'.core.currentLeader))]
  | .message _ => if d.core.isLeader ∧ ¬d'.core.isLeader then d'.drainPending else d'.run []
  | .tick => d'.run []

theorem alike_intake (d : RaftDriver) (event : Event) (after : RaftCore) (actions : List Action) :
    { d with core := after }.Alike (d.intake event after actions) := by
  cases event with
  | tick | message => rfl
  | propose | read =>
    unfold intake
    dsimp only
    split <;> rfl

theorem answers_conclude (d : RaftDriver) (event : Event) (d' : RaftDriver) :
    d'.Answers (d.conclude event d') := by
  have hnone : d'.Answers (d'.run []) := .some (fun _ h => absurd h List.not_mem_nil) rfl
  cases event with
  | tick => exact hnone
  | propose _ respond | read respond =>
    rw [conclude]
    split_ifs
    · exact hnone
    · exact .some (fun e he => List.mem_singleton.mp he ▸ trivial) rfl
  | message msg =>
    rw [conclude]
    split_ifs
    · rw [drainPending, run, foldl_perform_respond]
      exact .some (outward_respond _ _) rfl
    · exact hnone

theorem propose_eq_none_iff {core core' : RaftCore} {command : Bytes}
    {answer : Option (List Action)}
    (h : core.propose command = some (core', answer)) : answer = none ↔ core.state ≠ .leader := by
  unfold RaftCore.propose at h
  split_ifs at h with hl
  · obtain ⟨-, rfl⟩ := Prod.mk.inj (Option.some.inj h)
    exact iff_of_true rfl hl
  · simp only [bind, Option.bind_eq_some_iff, Option.some.injEq, Prod.mk.injEq] at h
    obtain ⟨entries, -, sends, -, -, rfl⟩ := h
    exact iff_of_false (by simp) hl

/-- An event is a call of the core, its actions and answers to clients. A call that panics
leaves nothing. -/
theorem handleEvent_of_call {rnd : ℕ} {event : Event} {after : RaftCore} {actions : List Action}
    (h : d.core.call rnd event.request = some (after, actions)) :
    d.handleEvent app rnd event =
      ((d.intake event after actions).handleActions app actions).andThen (d.conclude event) := by
  cases event with
  | tick =>
    rw [handleEvent, show d.core.tick rnd = some (after, actions) from h]
    exact (Handled.andThen_run_nil _).symm
  | propose command respond =>
    simp only [Event.request, RaftCore.call, bind, Option.bind_eq_some_iff, Option.some.injEq,
      Prod.mk.injEq] at h
    obtain ⟨⟨core, answer⟩, hp, rfl, rfl⟩ := h
    have hnone := propose_eq_none_iff hp
    rw [handleEvent, hp]
    cases answer with
    | none =>
      have hconc : d.conclude (.propose command respond) = fun d' =>
          d'.run [.respond respond (some (.followerNode d'.core.currentLeader))] :=
        funext fun d' => if_neg (hnone.mp rfl)
      rw [hconc]
      rfl
    | some actions =>
      have hl : d.core.state = .leader := by
        by_contra hl
        cases hnone.mpr hl
      have hconc : d.conclude (.propose command respond) = fun d' => d'.run [] :=
        funext fun d' => if_pos hl
      rw [hconc, Handled.andThen_run_nil, Option.getD_some]
      cases hf : firstPersisted actions with
      | none => simp only [intake, hf]
      | some index => simp only [intake, hf]
  | read respond =>
    obtain ⟨rfl, rfl⟩ := Prod.mk.inj (Option.some.inj h)
    rw [handleEvent]
    by_cases hl : d.core.state = .leader
    · have hreq : d.core.requestReadBarrier.2 = some (d.core.nextReadBarrierId + 1) := by
        rw [RaftCore.requestReadBarrier, if_neg (by simp [hl])]
      have hconc : d.conclude (.read respond) = fun d' => d'.run [] := funext fun d' => if_pos hl
      rw [hconc, Handled.andThen_run_nil, ← Prod.eta d.core.requestReadBarrier, hreq]
      simp only [intake, hreq, handleActions]
    · have hreq : d.core.requestReadBarrier.2 = none := by
        rw [RaftCore.requestReadBarrier, if_pos hl]
      have hconc : d.conclude (.read respond) = fun d' =>
          d'.run [.respond respond (some (.followerNode d'.core.currentLeader))] :=
        funext fun d' => if_neg hl
      rw [hconc, ← Prod.eta d.core.requestReadBarrier, hreq]
      simp only [intake, hreq, handleActions]
      rfl
  | message msg =>
    rw [handleEvent, show d.core.handleMessage msg rnd = some (after, actions) from h]
    rfl

theorem handleEvent_of_panic {rnd : ℕ} {event : Event}
    (h : d.core.call rnd event.request = none) : d.handleEvent app rnd event = ([], none) := by
  cases event with
  | tick => rw [handleEvent, show d.core.tick rnd = none from h]
  | propose command respond =>
    have hp : d.core.propose command = none := by
      cases hp : d.core.propose command with
      | none => rfl
      | some r => simp [Event.request, RaftCore.call, hp] at h
    rw [handleEvent, hp]
  | read respond => cases h
  | message msg => rw [handleEvent, show d.core.handleMessage msg rnd = none from h]

/-- The same, without what the event does to the clients. -/
theorem handleEvent_cases (app : List AppliedEntry → Bytes) (d : RaftDriver) (rnd : ℕ)
    (event : Event) :
    d.handleEvent app rnd event = ([], none) ∨
    ∃ after actions d₁ finish, d.core.call rnd event.request = some (after, actions) ∧
      { d with core := after }.Alike d₁ ∧
      d.handleEvent app rnd event = (d₁.handleActions app actions).andThen finish ∧
      ∀ d' : RaftDriver, d'.Answers (finish d') := by
  cases hc : d.core.call rnd event.request with
  | none => exact Or.inl (handleEvent_of_panic hc)
  | some r =>
    exact Or.inr ⟨r.1, r.2, d.intake event r.1 r.2, d.conclude event, rfl, d.alike_intake event _ _,
      handleEvent_of_call hc, d.answers_conclude event⟩

end RaftDriver

/-! ## What holds of a piece of handling -/

/-- The effects of a piece of handling meet `E` and the driver after it meets `P`. -/
structure Handled.Meets (h : Handled) (E : Effect → Prop) (P : RaftDriver → Prop) : Prop where
  effects : ∀ e ∈ h.1, E e
  after : ∀ d, h.2 = some d → P d

namespace Handled.Meets

variable {h : Handled} {E E' : Effect → Prop} {P Q : RaftDriver → Prop}

theorem panic_nil : Handled.Meets ([], none) E P :=
  ⟨fun _ h => absurd h List.not_mem_nil, fun _ h => (by cases h)⟩

theorem mono (hm : h.Meets E P) (hE : ∀ e, E e → E' e) (hP : ∀ d, P d → Q d) : h.Meets E' Q :=
  ⟨fun e he => hE e (hm.effects e he), fun d hd => hP d (hm.after d hd)⟩

theorem andThen {f : RaftDriver → Handled} (hm : h.Meets E P) (hf : ∀ d, P d → (f d).Meets E Q) :
    (h.andThen f).Meets E Q := by
  obtain ⟨effects, r⟩ := h
  cases r with
  | none => exact ⟨hm.effects, fun _ h => (by cases h)⟩
  | some d =>
    have hd := hf d (hm.after d rfl)
    refine ⟨fun e he => ?_, hd.after⟩
    rcases List.mem_append.mp he with he | he
    · exact hm.effects e he
    · exact hd.effects e he

end Handled.Meets

/-- What one action keeps, a list of actions keeps. -/
theorem RaftDriver.meets_actions {app : List AppliedEntry → Bytes} {d : RaftDriver}
    {actions : List Action} {E : Effect → Prop} {P : RaftDriver → Prop} (h : P d)
    (step : ∀ d, P d → ∀ a ∈ actions, (d.handleAction app a).Meets E P) :
    (d.handleActions app actions).Meets E P := by
  induction actions generalizing d with
  | nil =>
    refine ⟨fun e he => absurd he List.not_mem_nil, ?_⟩
    rintro _ ⟨⟩
    exact h
  | cons a actions ih =>
    refine (step d h a List.mem_cons_self).andThen fun d₁ h₁ => ?_
    exact ih h₁ fun d hd b hb => step d hd b (List.mem_cons_of_mem a hb)

/-! ## What is stored and delivered -/

/-- After a piece of handling that starts from `d`, the storage and what the application has
received are what the effects make of them. -/
def Handled.Performs (h : Handled) (d : RaftDriver) : Prop :=
  ∀ d', h.2 = some d' → d'.storage = d.storage.replay h.1 ∧
    d'.applied = d.applied ++ h.1.filterMap Effect.entry

namespace Handled.Performs

variable {h : Handled} {d : RaftDriver}

theorem panic {effects : List Effect} : Handled.Performs (effects, none) d := by
  rintro d' ⟨⟩

theorem andThen {f : RaftDriver → Handled} (hh : h.Performs d) (hf : ∀ d', (f d').Performs d') :
    (h.andThen f).Performs d := by
  obtain ⟨effects, r⟩ := h
  cases r with
  | none => exact panic
  | some d₁ =>
    intro d' hd'
    obtain ⟨hs₁, ha₁⟩ := hh d₁ rfl
    obtain ⟨hs, ha⟩ := hf d₁ d' hd'
    refine ⟨?_, ?_⟩
    · rw [hs, hs₁]
      exact (Storage.replay_append d.storage effects (f d₁).1).symm
    · rw [ha, ha₁, List.append_assoc, ← List.filterMap_append]
      rfl

end Handled.Performs

namespace RaftDriver

variable {app : List AppliedEntry → Bytes} {d d' : RaftDriver}

theorem performs_run (d : RaftDriver) (effects : List Effect) : (d.run effects).Performs d := by
  rintro _ ⟨⟩
  refine ⟨by rw [perform_frame]; rfl, ?_⟩
  change (effects.foldl perform d).applied = d.applied ++ effects.filterMap Effect.entry
  induction effects generalizing d with
  | nil => exact (List.append_nil _).symm
  | cons e effects ih =>
    rw [List.foldl_cons, ih]
    cases e with
    | apply entry => exact List.append_assoc ..
    | store | send | respond => rfl

theorem Answers.performs {h : Handled} (ha : d.Answers h) : h.Performs d := by
  cases ha with
  | panic => exact .panic
  | @some effects d' he hd =>
    rintro _ ⟨⟩
    have hop : ∀ e ∈ effects, e.op = none := fun e h => (he e h).op
    have hentry : ∀ e ∈ effects, e.entry = none := fun e h => (he e h).entry
    rw [hd, Storage.replay, List.filterMap_eq_nil_iff.mpr hop, List.filterMap_eq_nil_iff.mpr hentry,
      List.append_nil]
    exact ⟨rfl, rfl⟩

theorem performs_takeSnapshot (d : RaftDriver) : (d.takeSnapshot app).Performs d := by
  rcases d.takeSnapshot_cases app with h | ⟨metadata, -, h⟩ | ⟨metadata, core, -, -, h⟩ <;> rw [h]
  · exact .panic
  · exact .panic
  · rintro _ ⟨⟩
    exact ⟨rfl, rfl⟩

theorem performs_applyToStateMachine (d : RaftDriver) (index : ℕ) (command : Bytes) :
    (d.applyToStateMachine app index command).Performs d := by
  by_cases hc : command = []
  · subst hc
    exact (answers_of_outward (a := .applyToStateMachine index []) rfl d).performs
  · rw [applyToStateMachine_cons d index hc]
    refine .andThen ?_ fun d => ?_
    · rintro _ ⟨⟩
      have hentry : ∀ e ∈ d.answers index, e.entry = none := fun e he =>
        (outward_respond _ _ e he).entry
      rw [Storage.replay, List.filterMap_eq_nil_iff.mpr (d.no_op_deliver index command),
        List.filterMap_append, List.filterMap_eq_nil_iff.mpr hentry]
      exact ⟨rfl, rfl⟩
    · split_ifs
      · exact d.performs_takeSnapshot
      · exact d.performs_run []

theorem performs_handleAction (d : RaftDriver) (a : Action) :
    (d.handleAction app a).Performs d := by
  cases a with
  | applyToStateMachine index command => exact d.performs_applyToStateMachine index command
  | sendMessage | sendInstallSnapshot | readBarrierReady =>
    exact Answers.performs (answers_of_outward (by trivial) d)
  | persistMetadata | persistLogEntries | installSnapshot => exact d.performs_run _

theorem performs_handleActions (d : RaftDriver) (actions : List Action) :
    (d.handleActions app actions).Performs d := by
  induction actions generalizing d with
  | nil => exact d.performs_run []
  | cons a actions ih => exact (d.performs_handleAction a).andThen ih

theorem performs_handleEvent (d : RaftDriver) (rnd : ℕ) (event : Event) :
    (d.handleEvent app rnd event).Performs d := by
  rcases d.handleEvent_cases app rnd event with h | ⟨after, actions, d₁, finish, -, ha, h, hf⟩
  · rw [h]
    exact .panic
  · rw [h]
    have hall : ((d₁.handleActions app actions).andThen finish).Performs d₁ :=
      (d₁.performs_handleActions actions).andThen fun d' => (hf d').performs
    intro d' hd'
    obtain ⟨hs, happ⟩ := hall d' hd'
    have hd₁ : d₁.storage = d.storage ∧ d₁.applied = d.applied := by
      rw [ha]
      exact ⟨rfl, rfl⟩
    rw [hs, happ, hd₁.1, hd₁.2]
    exact ⟨rfl, rfl⟩

end RaftDriver

end FerrisFerry
