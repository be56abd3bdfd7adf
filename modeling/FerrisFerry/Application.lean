import FerrisFerry.Delivery
import FerrisFerry.Durability

/-!
# What the application has received

An application folds what is sent to it over its initial state and answers a
`SnapshotRequest` with an encoding of its state. The committed log is a sequence of commands;
`Application.stateAt` is the state after its first `n`, the empty ones left out.

At every head of the event loop the application is where `last_applied` is
(`Application.state_eq_stateAt`), as long as no restart finds a snapshot : the core takes up
its index, and nobody sends its data to the application. A snapshot stored at the threshold
has the data of its index (`Application.stored_snapshot_aligned`) if the threshold is reached
by the last command of the actions of a call : the core has applied them all by then, the
application only those in front.
-/

namespace FerrisFerry

theorem RaftDriver.delivered_cons_of_not_reaches {a : Action} {actions : List Action}
    (h : ¬a.Reaches) : delivered (a :: actions) = delivered actions := by
  refine delivered_cons_of_ne ?_
  rintro i command rfl
  exact absurd trivial h

/-- An application with an encoding of its state. -/
structure Application (σ : Type*) where
  init : σ
  apply : σ → Bytes → σ
  encode : σ → Bytes
  decode : Bytes → σ
  decode_encode : ∀ s, decode (encode s) = s

namespace Application

variable {σ : Type*} (A : Application σ) (cmd : ℕ → Bytes)

def receive (s : σ) : AppliedEntry → σ
  | .command command => A.apply s command
  | .snapshot data => A.decode data
  | .snapshotRequest => s

/-- The state after everything received since the start. -/
def state (received : List AppliedEntry) : σ :=
  received.foldl A.receive A.init

/-- The answer to a `SnapshotRequest`. -/
def answer (received : List AppliedEntry) : Bytes :=
  A.encode (A.state received)

/-- The state after the first commands of the committed log. -/
def stateAt : ℕ → σ
  | 0 => A.init
  | n + 1 => if cmd (n + 1) = [] then stateAt n else A.apply (stateAt n) (cmd (n + 1))

/-- A snapshot holds the state of its index. -/
def Holds (snapshot : Snapshot) : Prop :=
  snapshot.data = A.encode (A.stateAt cmd snapshot.lastIncludedIndex)

/-- An action hands out what is committed : a command of the committed log, or a snapshot
that holds the state of its index. -/
def Agrees : Action → Prop
  | .applyToStateMachine i command => command = cmd i
  | .installSnapshot i t data => A.Holds cmd ⟨i, t, data⟩
  | _ => True

/-- A stored snapshot holds the state of its index. -/
def Stores : Effect → Prop
  | .store (.storeSnapshot snapshot) => A.Holds cmd snapshot
  | _ => True

@[simp] theorem state_append (received : List AppliedEntry) (entry : AppliedEntry) :
    A.state (received ++ [entry]) = A.receive (A.state received) entry := by
  rw [state, List.foldl_append]
  rfl

variable {A cmd} {n m : ℕ} {actions : List Action}

theorem stateAt_succ_nil (h : cmd (n + 1) = []) : A.stateAt cmd (n + 1) = A.stateAt cmd n :=
  if_pos h

theorem stateAt_succ (h : cmd (n + 1) ≠ []) :
    A.stateAt cmd (n + 1) = A.apply (A.stateAt cmd n) (cmd (n + 1)) :=
  if_neg h

/-- Actions that deliver nothing do not move the state. -/
theorem stateAt_of_delivered_eq_zero (h : Applies n actions m)
    (ha : ∀ a ∈ actions, A.Agrees cmd a) (hd : RaftDriver.delivered actions = 0) :
    A.stateAt cmd m = A.stateAt cmd n := by
  induction h with
  | nil => rfl
  | @apply n m command actions h ih =>
    have hcmd : command = cmd (n + 1) := ha _ List.mem_cons_self
    have ha' := fun b hb => ha b (List.mem_cons_of_mem _ hb)
    by_cases hc : command = []
    · rw [RaftDriver.delivered_cons_of_ne fun _ _ h => by cases h; exact hc] at hd
      rw [ih ha' hd, stateAt_succ_nil (hcmd ▸ hc)]
    · rw [RaftDriver.delivered_cons hc] at hd
      omega
  | @skip n m a actions hr h ih =>
    rw [RaftDriver.delivered_cons_of_not_reaches hr] at hd
    exact ih (fun b hb => ha b (List.mem_cons_of_mem a hb)) hd

end Application

namespace RaftDriver

variable {σ : Type*} {A : Application σ} {cmd : ℕ → Bytes} {app : List AppliedEntry → Bytes}
  {d d' : RaftDriver} {n m : ℕ} {actions : List Action}

/-- The same driver up to its storage and the clients that wait. -/
def SameState (d d' : RaftDriver) : Prop :=
  d' = { d with
    pendingProposals := d'.pendingProposals
    pendingReads := d'.pendingReads
    storage := d'.storage }

theorem Alike.sameState (h : d.Alike d') : d.SameState d' := by
  rw [h]
  rfl

theorem SameState.trans {d'' : RaftDriver} (h : d.SameState d') (h' : d'.SameState d'') :
    d.SameState d'' := by
  rw [SameState, h', h]

theorem stores_of_outward {e : Effect} (h : e.Outward) : A.Stores cmd e := by
  cases e with
  | store | apply => exact absurd h fun h => h
  | send | respond => trivial

theorem Answers.meets {h : Handled} (ha : d.Answers h) : h.Meets (A.Stores cmd) d.SameState := by
  cases ha with
  | panic => exact .panic_nil
  | some he hd =>
    refine ⟨fun e h => stores_of_outward (he e h), ?_⟩
    rintro _ ⟨⟩
    exact hd.sameState

/-- An action that does not reach the application. -/
theorem meets_of_not_reaches {a : Action} (ha : ¬a.Reaches) :
    (d.handleAction app a).Meets (A.Stores cmd) d.SameState := by
  cases a with
  | applyToStateMachine | installSnapshot => exact absurd trivial ha
  | sendMessage | sendInstallSnapshot | readBarrierReady =>
    exact Answers.meets (answers_of_outward (by trivial) d)
  | persistMetadata | persistLogEntries =>
    refine ⟨fun e he => List.mem_singleton.mp he ▸ trivial, ?_⟩
    rintro _ ⟨⟩
    rfl

theorem meets_of_forall_not_reaches (ha : ∀ a ∈ actions, ¬a.Reaches) :
    (d.handleActions app actions).Meets (A.Stores cmd) d.SameState := by
  refine meets_actions rfl fun d' hd' a hm => ?_
  exact (meets_of_not_reaches (ha a hm)).mono (fun _ h => h) fun _ => hd'.trans

/-! ## Delivering the actions of a call -/

/-- The application has received the committed log up to index `n`. -/
structure Tracks (A : Application σ) (cmd : ℕ → Bytes) (d : RaftDriver) (n : ℕ) : Prop where
  state : A.state d.applied = A.stateAt cmd n
  caughtUp : d.core.CaughtUp

theorem Tracks.sameState (h : d.Tracks A cmd n) (hs : d.SameState d') : d'.Tracks A cmd n := by
  rw [hs]
  exact ⟨h.state, h.caughtUp⟩

/-- The actions reach the threshold with their last command, if they do. -/
def Fits (d : RaftDriver) (actions : List Action) : Prop :=
  d.numEntries + delivered actions ≤ max 1 d.snapshotThreshold

theorem Fits.sameState (h : d.Fits actions) (hs : d.SameState d') : d'.Fits actions := by
  rw [hs]
  exact h

/-- A snapshot at the threshold holds the state the application is in, under the index the
core is at. -/
theorem meets_takeSnapshot (h : d.Tracks A cmd n) {fits : Prop}
    (hn : fits → A.stateAt cmd d.core.lastApplied = A.stateAt cmd n) :
    (d.takeSnapshot A.answer).Meets (fun e => fits → A.Stores cmd e) fun d' =>
      d'.Tracks A cmd n ∧ d'.core.lastApplied = d.core.lastApplied ∧ d'.numEntries = 0 := by
  have hholds : ∀ metadata, d.core.prepareSnapshot = some metadata → fits →
      A.Holds cmd (d.snapshotAt A.answer metadata) := by
    intro metadata hp hfits
    obtain ⟨hla, -⟩ := RaftCore.prepareSnapshot_eq_some.mp hp
    change A.answer (d.applied ++ [.snapshotRequest]) =
      A.encode (A.stateAt cmd metadata.lastApplied)
    rw [hla, hn hfits, ← h.state, Application.answer, Application.state_append]
    rfl
  rcases takeSnapshot_cases A.answer d with heq | ⟨metadata, hp, heq⟩ |
    ⟨metadata, core, hp, hc, heq⟩ <;> rw [heq]
  · exact ⟨fun e he _ => List.mem_singleton.mp he ▸ trivial, fun _ h => (by cases h)⟩
  · refine ⟨fun e he hfits => ?_, fun _ h => (by cases h)⟩
    simp only [List.mem_cons, List.not_mem_nil, or_false] at he
    rcases he with rfl | rfl
    · trivial
    · exact hholds metadata hp hfits
  · refine ⟨fun e he hfits => ?_, ?_⟩
    · simp only [List.mem_cons, List.not_mem_nil, or_false] at he
      rcases he with rfl | rfl | rfl
      · trivial
      · exact hholds metadata hp hfits
      · trivial
    · rintro _ ⟨⟩
      have hcall : d.core.call 0 (.snapshot []) = some (core, []) := by
        simp [RaftCore.call, hp, hc]
      refine ⟨⟨?_, ((RaftCore.call_outcome hcall).delivers h.caughtUp).2⟩,
        (RaftCore.completeSnapshot_frame hp hc).2.2.2, rfl⟩
      rw [Application.state_append]
      exact h.state

/-- A committed command is delivered. A snapshot taken at it holds the state of its index if
the actions behind it deliver nothing. -/
theorem meets_apply {command : Bytes} (h : d.Tracks A cmd n) (hcmd : command = cmd (n + 1))
    (hs : Applies (n + 1) actions d.core.lastApplied) (ha : ∀ a ∈ actions, A.Agrees cmd a) :
    (d.handleAction A.answer (.applyToStateMachine (n + 1) command)).Meets
      (fun e => d.Fits (.applyToStateMachine (n + 1) command :: actions) → A.Stores cmd e) fun d' =>
        d'.Tracks A cmd (n + 1) ∧ d'.core.lastApplied = d.core.lastApplied ∧
          (d.Fits (.applyToStateMachine (n + 1) command :: actions) → d'.Fits actions) := by
  by_cases hc : command = []
  · have hout : (Action.applyToStateMachine (n + 1) command).Outward := hc
    refine (answers_of_outward hout d).meets.mono (fun e he _ => he) fun d' hd' => ?_
    have hd : d'.Tracks A cmd n := h.sameState hd'
    refine ⟨⟨?_, hd.caughtUp⟩, by rw [hd'], fun hf => ?_⟩
    · rw [Application.stateAt_succ_nil (hcmd ▸ hc)]
      exact hd.state
    · rw [Fits, delivered_cons_of_ne fun _ _ h => by cases h; exact hc] at hf
      exact Fits.sameState hf hd'
  · rw [handleAction, applyToStateMachine_cons d (n + 1) hc]
    have hd : (d.deliver (n + 1) command).Tracks A cmd (n + 1) := by
      refine ⟨?_, h.caughtUp⟩
      rw [deliver, Application.state_append, h.state, Application.stateAt_succ (hcmd ▸ hc), ← hcmd]
      rfl
    refine Handled.Meets.andThen (P := fun d₁ => d₁ = d.deliver (n + 1) command) ⟨?_, ?_⟩ ?_
    · intro e he _
      rcases List.mem_append.mp he with he | he
      · exact stores_of_outward (outward_respond _ _ e he)
      · exact List.mem_singleton.mp he ▸ trivial
    · rintro _ ⟨⟩
      rfl
    rintro _ rfl
    rw [Fits, delivered_cons hc]
    split_ifs with ht
    · change d.snapshotThreshold ≤ d.numEntries + 1 at ht
      -- the threshold is reached here, so nothing is delivered behind it
      have hzero : d.numEntries + (delivered actions + 1) ≤ max 1 d.snapshotThreshold →
          delivered actions = 0 := fun hf => by omega
      refine (meets_takeSnapshot hd fun hf =>
        Application.stateAt_of_delivered_eq_zero hs ha (hzero hf)).mono (fun _ h => h)
          fun d' hd' => ?_
      refine ⟨hd'.1, hd'.2.1, fun hf => ?_⟩
      rw [Fits, hd'.2.2, hzero hf]
      exact Nat.zero_le _
    · refine ⟨fun e he => absurd he List.not_mem_nil, ?_⟩
      rintro _ ⟨⟩
      refine ⟨hd, rfl, fun hf => ?_⟩
      change d.numEntries + 1 + delivered actions ≤ max 1 d.snapshotThreshold
      omega

/-- The actions of a call that applies entries. -/
theorem meets_handleActions (hs : Applies n actions d.core.lastApplied) (h : d.Tracks A cmd n)
    (ha : ∀ a ∈ actions, A.Agrees cmd a) :
    (d.handleActions A.answer actions).Meets (fun e => d.Fits actions → A.Stores cmd e) fun d' =>
      d'.Tracks A cmd d'.core.lastApplied := by
  generalize hm : d.core.lastApplied = m at hs
  induction hs generalizing d with
  | nil =>
    refine ⟨fun e he => absurd he List.not_mem_nil, ?_⟩
    rintro _ ⟨⟩
    rw [← hm] at h
    exact h
  | @apply n m command actions hs ih =>
    have ha' := fun b hb => ha b (List.mem_cons_of_mem _ hb)
    refine (meets_apply h (ha _ List.mem_cons_self) (hm ▸ hs) ha').andThen fun d' hd' => ?_
    exact (ih hd'.1 ha' (hd'.2.1.trans hm)).mono (fun _ he hf => he (hd'.2.2 hf)) fun _ h => h
  | @skip n m a actions hr hs ih =>
    have hfirst : (d.handleAction A.answer a).Meets
        (fun e => d.Fits (a :: actions) → A.Stores cmd e) d.SameState :=
      (meets_of_not_reaches hr).mono (fun _ he _ => he) fun _ h => h
    refine hfirst.andThen fun d' hd' => ?_
    refine (ih (h.sameState hd') (fun b hb => ha b (List.mem_cons_of_mem a hb)) ?_).mono
      (fun _ he hf => he ?_) fun _ h => h
    · rw [hd']
      exact hm
    · rw [Fits, delivered_cons_of_not_reaches hr] at hf
      exact Fits.sameState hf hd'

/-- A snapshot is installed : its data replace the state of the application. -/
theorem meets_install {i t : ℕ} {data : Bytes} (h : A.Holds cmd ⟨i, t, data⟩)
    (hc : d.core.CaughtUp) :
    (d.handleAction A.answer (.installSnapshot i t data)).Meets (A.Stores cmd) fun d' =>
      d'.Tracks A cmd i ∧ d'.core = d.core := by
  refine ⟨fun e he => ?_, ?_⟩
  · simp only [handleAction, run, List.mem_cons, List.not_mem_nil, or_false] at he
    rcases he with rfl | rfl | rfl
    · exact h
    · trivial
    · trivial
  · rintro _ ⟨⟩
    refine ⟨⟨?_, hc⟩, rfl⟩
    change A.state (d.applied ++ [.snapshot data]) = A.stateAt cmd i
    rw [Application.state_append]
    exact (congrArg A.decode h).trans (A.decode_encode _)

/-! ## Events and restarts -/

/-- What the core hands out on an event is committed. -/
def Faithful (A : Application σ) (cmd : ℕ → Bytes) (d : RaftDriver) (rnd : ℕ) (event : Event) :
    Prop :=
  ∀ r ∈ d.core.call rnd event.request, ∀ a ∈ r.2, A.Agrees cmd a

instance (A : Application σ) (cmd : ℕ → Bytes) : DecidablePred (A.Agrees cmd)
  | .applyToStateMachine i command => inferInstanceAs (Decidable (command = cmd i))
  | .installSnapshot i _ data => inferInstanceAs (Decidable (data = A.encode (A.stateAt cmd i)))
  | .sendMessage _ _ | .persistMetadata _ _ | .persistLogEntries _ _ | .sendInstallSnapshot _ _ _ _
  | .readBarrierReady _ => inferInstanceAs (Decidable True)

instance (A : Application σ) (cmd : ℕ → Bytes) (d : RaftDriver) (rnd : ℕ) (event : Event) :
    Decidable (d.Faithful A cmd rnd event) :=
  inferInstanceAs (Decidable (∀ r ∈ d.core.call rnd event.request, ∀ a ∈ r.2, A.Agrees cmd a))

/-- An event that reaches the threshold reaches it with the last command it delivers. -/
def Spaced (d : RaftDriver) (rnd : ℕ) (event : Event) : Prop :=
  ∀ r ∈ d.core.call rnd event.request, d.Fits r.2

instance (d : RaftDriver) (rnd : ℕ) (event : Event) : Decidable (d.Spaced rnd event) :=
  inferInstanceAs (Decidable (∀ r ∈ d.core.call rnd event.request,
    d.numEntries + delivered r.2 ≤ max 1 d.snapshotThreshold))

/-- The steps in which what the core hands out is committed. -/
def Fed (A : Application σ) (cmd : ℕ → Bytes) (d : RaftDriver) : DriverInput → Prop
  | .event event rnd => d.Faithful A cmd rnd event
  | .crash _ _ _ _ => True

/-- A crash leaves no snapshot behind, or one of the initial state. -/
def Forgets (A : Application σ) (cmd : ℕ → Bytes) (d : RaftDriver) : DriverInput → Prop
  | .event _ _ => True
  | .crash event rnd done _ => ∀ snapshot ∈ (d.crashStorage A.answer rnd event done).snapshot,
    A.stateAt cmd snapshot.lastIncludedIndex = A.init

/-- The steps that keep the application with the core. -/
def Replays (A : Application σ) (cmd : ℕ → Bytes) (d : RaftDriver) (i : DriverInput) : Prop :=
  d.Fed A cmd i ∧ d.Forgets A cmd i

theorem meets_handleEvent {rnd : ℕ} {event : Event} (h : d.Tracks A cmd d.core.lastApplied)
    (ha : d.Faithful A cmd rnd event) :
    (d.handleEvent A.answer rnd event).Meets
      (fun e => d.Spaced rnd event → A.Stores cmd e) fun d' =>
      d'.Tracks A cmd d'.core.lastApplied := by
  rcases handleEvent_cases A.answer d rnd event with heq |
    ⟨after, actions, d₁, finish, hc, hd₁, heq, hfinish⟩ <;> rw [heq]
  · exact .panic_nil
  obtain ⟨hdel, hup⟩ := (RaftCore.call_outcome hc).delivers h.caughtUp
  have hag := ha _ hc
  have hcore : d₁.core = after := by rw [hd₁]
  have htracks : d₁.Tracks A cmd d.core.lastApplied := by
    rw [hd₁]
    exact ⟨h.state, hup⟩
  have hactions : (d₁.handleActions A.answer actions).Meets
      (fun e => d.Spaced rnd event → A.Stores cmd e)
      fun d' => d'.Tracks A cmd d'.core.lastApplied := by
    generalize hreq : event.request = request at hdel
    cases hdel with
    | entries hs =>
      refine (meets_handleActions (hcore ▸ hs) htracks hag).mono (fun _ he hf => he ?_) fun _ h => h
      rw [Fits, hd₁]
      exact hf _ hc
    | @snapshot req _ metas rest hm hr happ =>
      refine Handled.Meets.mono (E := A.Stores cmd)
        (P := fun d' => d'.Tracks A cmd d'.core.lastApplied)
        ?_ (fun _ he _ => he) fun _ h => h
      rw [handleActions_append]
      refine (meets_of_forall_not_reaches hm).andThen fun d₂ hd₂ => ?_
      have hholds : A.Holds cmd ⟨req.lastIncludedIndex, req.lastIncludedTerm, req.data⟩ :=
        hag _ (List.mem_append_right _ List.mem_cons_self)
      refine (meets_install hholds (htracks.sameState hd₂).caughtUp).andThen fun d₃ hd₃ => ?_
      refine (meets_of_forall_not_reaches hr).mono (fun _ h => h) fun d₄ hd₄ => ?_
      have hla : d₄.core.lastApplied = req.lastIncludedIndex := by
        rw [hd₄, ← happ, ← hcore, hd₃.2, hd₂]
      rw [hla]
      exact hd₃.1.sameState hd₄
  refine hactions.andThen fun d' hd' => ?_
  refine (hfinish d').meets.mono (fun _ he _ => he) fun d'' hd'' => ?_
  have hla : d''.core = d'.core := by rw [hd'']
  rw [hla]
  exact hd'.sameState hd''

instance (A : Application σ) (cmd : ℕ → Bytes) (d : RaftDriver) :
    (i : DriverInput) → Decidable (d.Fed A cmd i)
  | .event event rnd => inferInstanceAs (Decidable (d.Faithful A cmd rnd event))
  | .crash _ _ _ _ => inferInstanceAs (Decidable True)

instance [DecidableEq σ] (A : Application σ) (cmd : ℕ → Bytes) (d : RaftDriver) :
    (i : DriverInput) → Decidable (d.Forgets A cmd i)
  | .event _ _ => inferInstanceAs (Decidable True)
  | .crash event rnd done _ => inferInstanceAs (Decidable (∀ snapshot ∈
    (d.crashStorage A.answer rnd event done).snapshot,
      A.stateAt cmd snapshot.lastIncludedIndex = A.init))

instance [DecidableEq σ] (A : Application σ) (cmd : ℕ → Bytes) (d : RaftDriver) (i : DriverInput) :
    Decidable (d.Replays A cmd i) :=
  inferInstanceAs (Decidable (d.Fed A cmd i ∧ d.Forgets A cmd i))

end RaftDriver

namespace Application

variable {σ : Type*} {A : Application σ} {cmd : ℕ → Bytes} {cfg : DriverConfig} {d : RaftDriver}

/-- A restart puts the core at the index of the snapshot and the application at the start. -/
theorem tracks_of_new {s : Storage} {rnd : ℕ} (h : cfg.new s rnd = some d)
    (hs : ∀ snapshot ∈ s.snapshot, A.stateAt cmd snapshot.lastIncludedIndex = A.init) :
    d.Tracks A cmd d.core.lastApplied := by
  unfold DriverConfig.new at h
  cases hsnap : s.snapshot with
  | some snapshot =>
    simp only [hsnap, bind, Option.bind_eq_some_iff] at h
    obtain ⟨metadata, -, entries, -, ⟨⟩⟩ := h
    exact ⟨(hs snapshot hsnap).symm, rfl, le_rfl⟩
  | none =>
    rw [hsnap] at h
    cases hm : s.metadata <;> rw [hm] at h <;> cases h <;> exact ⟨rfl, rfl, le_rfl⟩

theorem tracks_of_run {rnd : ℕ}
    (h : (cfg.machine A.answer).Run (RaftDriver.Replays A cmd) (cfg.boot rnd) d) :
    d.Tracks A cmd d.core.lastApplied := by
  refine h.invariant (P := fun d => d.Tracks A cmd d.core.lastApplied) ⟨rfl, rfl, le_rfl⟩ ?_
  intro d i d' hd hok hstep
  cases i with
  | event event rnd => exact (RaftDriver.meets_handleEvent hd hok.1).after d' hstep
  | crash event rnd done restartRnd => exact tracks_of_new hstep hok.2

/-- The application follows `last_applied` : in every run in which what the core hands out is
committed and no restart finds a snapshot of more than the initial state, what was sent to
the application since the last start amounts to the committed commands up to `last_applied`. -/
theorem state_eq_stateAt {rnd : ℕ}
    (h : (cfg.machine A.answer).Run (RaftDriver.Replays A cmd) (cfg.boot rnd) d) :
    A.state d.applied = A.stateAt cmd d.core.lastApplied :=
  (tracks_of_run h).state

/-- An application that keeps every byte it has received. -/
def journal : Application Bytes := ⟨[], (· ++ ·), id, id, fun _ => rfl⟩

/-- A committed log whose command at an index is the index. -/
def numbers (i : ℕ) : Bytes := [UInt8.ofNat i]

/-- One node of three that takes a snapshot after every second command. -/
def pairs : DriverConfig := ⟨1, [1, 2, 3], some 1, (1, 2), 2⟩

/-- A command, a restart that replays it, and a snapshot from the leader. -/
def restartsAndInstalls : List DriverInput :=
  [.event (.message (.appendEntries ⟨1, 2, 0, 0, [⟨1, [1]⟩], 1⟩)) 1,
    .crash .tick 1 0 1,
    .event (.message (.appendEntries ⟨1, 2, 1, 1, [], 1⟩)) 1,
    .event (.message (.installSnapshot ⟨1, 2, 5, 1, [1, 2, 3, 4, 5]⟩)) 1]

theorem state_eq_stateAt_restartsAndInstalls :
    ∃ d, (pairs.machine journal.answer).Run (RaftDriver.Replays journal numbers) (pairs.boot 1) d ∧
      d.core.lastApplied = 5 ∧ journal.state d.applied = [1, 2, 3, 4, 5] := by
  obtain ⟨d, hd, hla⟩ := (pairs.machine journal.answer).exists_run_of_exec
    (RaftDriver.Replays journal numbers) (pairs.boot 1) restartsAndInstalls
    (fun d => d.core.lastApplied = 5) (by decide +kernel) (by decide +kernel)
  refine ⟨d, hd, hla, (state_eq_stateAt hd).trans ?_⟩
  rw [hla]
  rfl

/-- Two commands, a snapshot of both and a restart at the head of the loop. -/
def restartsFromSnapshot : List DriverInput :=
  [.event (.message (.appendEntries ⟨1, 2, 0, 0, [⟨1, [1]⟩, ⟨1, [2]⟩], 2⟩)) 1,
    .crash .tick 1 0 1]

/-- The stored snapshot holds the state of its index, and after the restart the core is there;
the application has received nothing. -/
theorem nothing_received_of_restartsFromSnapshot :
    ∃ d, (pairs.machine journal.answer).Run (RaftDriver.Fed journal numbers) (pairs.boot 1) d ∧
      d.storage.snapshot = some ⟨2, 1, [1, 2]⟩ ∧ journal.Holds numbers ⟨2, 1, [1, 2]⟩ ∧
      d.core.lastApplied = 2 ∧ journal.state d.applied = [] ∧
      journal.stateAt numbers d.core.lastApplied = [1, 2] := by
  obtain ⟨d, hd, hs, hla, happ⟩ := (pairs.machine journal.answer).exists_run_of_exec
    (RaftDriver.Fed journal numbers) (pairs.boot 1) restartsFromSnapshot
    (fun d => d.storage.snapshot = some ⟨2, 1, [1, 2]⟩ ∧ d.core.lastApplied = 2 ∧
      journal.state d.applied = [])
    (by decide +kernel) (by decide +kernel)
  refine ⟨d, hd, hs, rfl, hla, happ, ?_⟩
  rw [hla]
  rfl

/-- A stored snapshot has the data of its index : in every run as above, on every event that
reaches the threshold with the last command it delivers, the state in the snapshot is that of
the committed commands up to its index. -/
theorem stored_snapshot_aligned {rnd₀ rnd : ℕ} {event : RaftDriver.Event} {snapshot : Snapshot}
    (h : (cfg.machine A.answer).Run (RaftDriver.Replays A cmd) (cfg.boot rnd₀) d)
    (ha : d.Faithful A cmd rnd event) (hs : d.Spaced rnd event)
    (hm : .store (.storeSnapshot snapshot) ∈ (d.handleEvent A.answer rnd event).1) :
    snapshot.data = A.encode (A.stateAt cmd snapshot.lastIncludedIndex) :=
  (RaftDriver.meets_handleEvent (tracks_of_run h) ha).effects _ hm hs

/-- The second command, after one that is applied already. -/
def secondCommand : RaftDriver.Event :=
  .message (.appendEntries ⟨1, 2, 1, 1, [⟨1, [2]⟩], 2⟩)

theorem stored_snapshot_aligned_secondCommand :
    ∃ d, (pairs.machine journal.answer).Run (RaftDriver.Replays journal numbers) (pairs.boot 1) d ∧
      .store (.storeSnapshot ⟨2, 1, [1, 2]⟩) ∈ (d.handleEvent journal.answer 1 secondCommand).1 ∧
      [1, 2] = journal.encode (journal.stateAt numbers 2) := by
  obtain ⟨d, hd, ha, hs, hm⟩ := (pairs.machine journal.answer).exists_run_of_exec
    (RaftDriver.Replays journal numbers) (pairs.boot 1)
    [.event (.message (.appendEntries ⟨1, 2, 0, 0, [⟨1, [1]⟩], 1⟩)) 1]
    (fun d => d.Faithful journal numbers 1 secondCommand ∧ d.Spaced 1 secondCommand ∧
      .store (.storeSnapshot ⟨2, 1, [1, 2]⟩) ∈ (d.handleEvent journal.answer 1 secondCommand).1)
    (by decide +kernel) (by decide +kernel)
  exact ⟨d, hd, hm, stored_snapshot_aligned hd ha hs hm⟩

/-- Three committed commands at once. -/
def threeCommands : RaftDriver.Event :=
  .message (.appendEntries ⟨1, 2, 0, 0, [⟨1, [1]⟩, ⟨1, [2]⟩, ⟨1, [3]⟩], 3⟩)

/-- The threshold is reached with the second command, and the snapshot of the two is stored
under index `3`. -/
theorem misaligned_snapshot_of_threeCommands :
    (pairs.boot 1).Faithful journal numbers 1 threeCommands ∧
      .store (.storeSnapshot ⟨3, 1, [1, 2]⟩) ∈
        ((pairs.boot 1).handleEvent journal.answer 1 threeCommands).1 ∧
      ∃ d, (pairs.machine journal.answer).Run (RaftDriver.Fed journal numbers) (pairs.boot 1) d ∧
        d.storage.snapshot = some ⟨3, 1, [1, 2]⟩ ∧
        [1, 2] ≠ journal.encode (journal.stateAt numbers 3) := by
  refine ⟨by decide +kernel, by decide +kernel, ?_⟩
  obtain ⟨d, hd, hs⟩ := (pairs.machine journal.answer).exists_run_of_exec
    (RaftDriver.Fed journal numbers) (pairs.boot 1) [.event threeCommands 1]
    (fun d => d.storage.snapshot = some ⟨3, 1, [1, 2]⟩) (by decide +kernel) (by decide +kernel)
  exact ⟨d, hd, hs, by decide⟩

end Application

end FerrisFerry
