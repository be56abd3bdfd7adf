import FerrisFerry.Clients

/-!
# Nobody is forgotten

`RaftDriver.Attended` relates the two maps of waiting clients to the core between two events :
a node that does not lead keeps nobody waiting, whoever waits for a read waits for a barrier
of the core, and whoever waits for a proposal waits for an entry that is in the log and not
applied yet.

A `Session` is a driver with the clients that have come to it and the channels that have been
answered. `Session.clients_attended` : as long as no message contradicts what is committed and
no snapshot of a leader's own term reaches it, the invariant holds at every loop head, and
everybody who came has been answered once or is still waiting.
-/

namespace FerrisFerry

theorem eq_empty_of_notMem {m : AList fun _ : ℕ => Channel} (h : ∀ k, k ∉ m) : m = ∅ := by
  refine AList.ext (List.eq_nil_iff_forall_not_mem.mpr fun e he => ?_)
  exact h e.1 (AList.mem_keys.mpr (List.mem_keys_of_mem he))

namespace RaftDriver

variable {app : List AppliedEntry → Bytes} {d d₁ d' : RaftDriver} {event : Event} {rnd : ℕ}
  {after : RaftCore} {actions : List Action} {effects : List Effect}

/-- The clients of a driver between two events. -/
structure Attended (d : RaftDriver) : Prop where
  level : d.core.Level
  follower : d.core.state ≠ .leader → d.pendingProposals = ∅ ∧ d.pendingReads = ∅
  reads : ∀ id, id ∈ d.pendingReads ↔ id ∈ d.core.readBarriers
  ids : ∀ id ∈ d.pendingReads, id ≤ d.core.nextReadBarrierId
  proposals : ∀ i ∈ d.pendingProposals, d.core.lastApplied < i ∧ i ≤ d.core.lastLogIndex

namespace Attended

theorem fresh (h : d.Attended) :
    d.core.lastLogIndex + 1 ∉ d.pendingProposals ∧
      d.core.nextReadBarrierId + 1 ∉ d.pendingReads := by
  constructor
  · intro hm
    have := (h.proposals _ hm).2
    omega
  · intro hm
    have := h.ids _ hm
    omega

/-- Whoever has come or was there before an event is answered in it or waits after it. -/
theorem answers (h : d.Attended) (he : d.handleEvent app rnd event = (effects, some d')) :
    (event.channel.toList ++ d.waiting).Perm
      (effects.filterMap Effect.answered ++ d'.waiting) := by
  obtain ⟨after, actions, served, rest, d₁, hc, hs, hd, rfl⟩ := handleEvent_serves he
  have hin := waiting_intake (RaftCore.call_outcome hc) (fun _ => h.fresh.1) fun _ => h.fresh.2
  have hout := waiting_conclude hd
  have hserved := hs.answers
  rw [List.filterMap_append, List.append_assoc]
  by_cases hl : d.core.state = .leader
  · rw [if_pos hl] at hin hout
    exact hin.symm.trans (hserved.trans (hout.append_left _))
  · rw [if_neg hl] at hin hout
    have hgo := (hin.symm.trans hserved).append_left event.channel.toList
    exact (hgo.trans (List.perm_append_comm_assoc _ _ _)).trans (hout.append_left _)

/-- The core as an event leaves it, whoever has been answered meanwhile. -/
theorem level_of_serves (h : d.Attended) (ho : d.core.Outcome rnd event.request after actions)
    (hok : ¬d.core.Contradicted event.request)
    (hs : (d.intake event after actions).Serves actions effects d₁) : d₁.core.Level := by
  have hcore := hs.core
  rw [core_intake] at hcore
  exact hcore.level (ho.level h.level (RaftCore.not_shortens_of_not_contradicted hok))

/-- While the node leads, an entry that a client waits for is in the log and not applied. -/
theorem proposals_of_serves (h : d.Attended) (ho : d.core.Outcome rnd event.request after actions)
    (hown : ¬d.core.OwnSnapshot event.request)
    (hs : (d.intake event after actions).Serves actions effects d₁)
    (hstay : d.core.state = .leader → after.state = .leader) :
    ∀ i ∈ d₁.pendingProposals, d₁.core.lastApplied < i ∧ i ≤ d₁.core.lastLogIndex := by
  intro i hi
  obtain ⟨hi, hnot⟩ := hs.mem_proposals.mp hi
  have hcore := hs.core
  rw [core_intake] at hcore
  have hla : d₁.core.lastApplied = after.lastApplied := by rw [hcore.frame]
  rw [hla, hcore.last]
  have hl : d.core.state = .leader := by
    by_contra hl
    rcases (mem_intake_proposals ho).mp hi with hi | ⟨hl', -⟩
    · rw [(h.follower hl).1] at hi
      exact AList.notMem_empty i hi
    · exact hl hl'
  obtain ⟨hext, happ⟩ := ho.leader_stays hl (hstay hl) hown h.level.toCaughtUp
  have hlt : d.core.lastApplied < i → after.lastApplied < i := fun hlt => by
    by_contra hle
    obtain ⟨command, hm⟩ := happ i hlt (Nat.not_lt.mp hle)
    exact hnot command hm
  rcases (mem_intake_proposals ho).mp hi with hi | ⟨-, rfl, command, hreq⟩
  · obtain ⟨hlo, hhi⟩ := h.proposals i hi
    exact ⟨hlt hlo, (hext i hhi).1⟩
  · have hcommit := h.level.commit
    have happlied := h.level.applied
    refine ⟨hlt (by omega), ?_⟩
    rw [hreq] at ho
    cases ho with
    | refuse hl' => exact absurd hl hl'
    | append =>
      change _ ≤ d.core.lastIncludedIndex + (d.core.log ++ [_]).length
      rw [List.length_append]
      exact le_rfl

theorem ids_of_serves (h : d.Attended) (ho : d.core.Outcome rnd event.request after actions)
    (hs : (d.intake event after actions).Serves actions effects d₁) :
    ∀ id ∈ d₁.pendingReads, id ≤ d₁.core.nextReadBarrierId := by
  intro id hid
  have hcore := hs.core
  rw [core_intake] at hcore
  rw [show d₁.core.nextReadBarrierId = after.nextReadBarrierId by rw [hcore.frame]]
  obtain ⟨hle, hnew⟩ := ho.nextReadBarrierId
  rcases (mem_intake_reads ho).mp (hs.mem_reads.mp hid).1 with hid | ⟨hl, rfl, hreq⟩
  · exact (h.ids id hid).trans hle
  · exact (hnew hl hreq).ge

/-- A node that does not lead has nobody to serve. -/
theorem empty_of_serves (h : d.Attended) (ho : d.core.Outcome rnd event.request after actions)
    (hs : (d.intake event after actions).Serves actions effects d₁)
    (hl : d.core.state ≠ .leader) : d₁.pendingProposals = ∅ ∧ d₁.pendingReads = ∅ := by
  obtain ⟨hp, hr⟩ := h.follower hl
  constructor
  · refine eq_empty_of_notMem fun i hi => ?_
    rcases (mem_intake_proposals ho).mp (hs.mem_proposals.mp hi).1 with hi | ⟨hl', -⟩
    · exact AList.notMem_empty i (hp ▸ hi)
    · exact hl hl'
  · refine eq_empty_of_notMem fun id hid => ?_
    rcases (mem_intake_reads ho).mp (hs.mem_reads.mp hid).1 with hid | ⟨hl', -⟩
    · exact AList.notMem_empty id (hr ▸ hid)
    · exact hl hl'

/-- Every event keeps the clients attended. -/
theorem handleEvent (h : d.Attended) (hok : ¬d.core.Contradicted event.request)
    (hown : ¬d.core.OwnSnapshot event.request)
    (he : d.handleEvent app rnd event = (effects, some d')) : d'.Attended := by
  obtain ⟨after, actions, served, rest, d₁, hc, hs, hd, -⟩ := handleEvent_serves he
  have ho := RaftCore.call_outcome hc
  have hcore := hs.core
  rw [core_intake] at hcore
  have hst : d₁.core.state = after.state := by rw [hcore.frame]
  have hrb : d₁.core.readBarriers = after.readBarriers := by rw [hcore.frame]
  have hlevel := h.level_of_serves ho hok hs
  rcases d.conclude_cases event d₁ with ⟨hc', hmsg⟩ | ⟨hl, hl', hch, hc'⟩
  · obtain rfl := Option.some.inj (Prod.mk.inj (hd.symm.trans hc')).2
    have hstay := leads_of_concluded ho hst hmsg
    have hfol : d'.core.state ≠ .leader → d'.pendingProposals = ∅ ∧ d'.pendingReads = ∅ :=
      fun hl' => h.empty_of_serves ho hs fun hl => hl' (hst.trans (hstay hl))
    refine ⟨hlevel, hfol, fun id => ?_, h.ids_of_serves ho hs,
      h.proposals_of_serves ho hown hs hstay⟩
    rw [hrb]
    cases ho.barriersAfter with
    | dropped hs' hr =>
      refine iff_of_false ?_ (hr id)
      rw [(hfol (hst ▸ hs')).2]
      exact AList.notMem_empty id
    | kept _ hr => rw [hr, hs.mem_reads, mem_intake_reads ho, h.reads]
  · -- a leader has stepped down
    rw [hd, drainPending, run, foldl_perform_respond] at hc'
    obtain rfl := Option.some.inj (Prod.mk.inj hc').2
    refine ⟨hlevel, fun _ => ⟨rfl, rfl⟩, fun id => ?_,
      fun id hid => absurd hid (AList.notMem_empty id),
      fun i hi => absurd hi (AList.notMem_empty i)⟩
    refine iff_of_false (AList.notMem_empty id) ?_
    change id ∉ d₁.core.readBarriers
    rw [hrb]
    cases ho.barriersAfter with
    | dropped _ hr => exact hr id
    | kept hs' => exact absurd (hst.trans (hs' hl)) hl'

end Attended

end RaftDriver

/-! ## Sessions -/

/-- A driver starts with a core from one of the constructors and with nobody waiting. -/
theorem DriverConfig.started_of_new (cfg : DriverConfig) {storage : Storage} {rnd : ℕ}
    {d : RaftDriver} (h : cfg.new storage rnd = some d) :
    ∃ core, core.Started ∧ d = cfg.driver core storage := by
  unfold DriverConfig.new at h
  cases hsnap : storage.snapshot with
  | some snapshot =>
    simp only [hsnap, bind, Option.bind_eq_some_iff] at h
    obtain ⟨metadata, -, entries, -, hd⟩ := h
    exact ⟨_, .restoreWithSnapshot .., (Option.some.inj hd).symm⟩
  | none =>
    rw [hsnap] at h
    cases hm : storage.metadata with
    | none =>
      rw [hm] at h
      exact ⟨_, .new .., (Option.some.inj h).symm⟩
    | some metadata =>
      rw [hm] at h
      exact ⟨_, .restore .., (Option.some.inj h).symm⟩

/-- The entry that was made for a proposal. -/
structure Ticket where
  channel : Channel
  index : ℕ
  term : ℕ
  command : Bytes
deriving DecidableEq

/-- The entry an event makes for a client : a leader appends the proposal to its log. -/
def RaftDriver.ticket (d : RaftDriver) : RaftDriver.Event → Option Ticket
  | .propose command respond =>
    if d.core.state = .leader then
      some ⟨respond, d.core.lastLogIndex + 1, d.core.currentTerm, command⟩
    else none
  | .tick | .read _ | .message _ => none

/-- A driver with the history of its clients, newest first. -/
structure Session where
  driver : RaftDriver
  /-- What has come, proposals and read requests among it. -/
  events : List RaftDriver.Event
  /-- The entries that were made for proposals. -/
  tickets : List Ticket
  /-- The channels that have been used. -/
  answered : List Channel

namespace Session

/-- The channels of everybody who has come. -/
def channels (s : Session) : List Channel :=
  s.events.filterMap RaftDriver.Event.channel

def start (d : RaftDriver) : Session :=
  ⟨d, [], [], []⟩

/-- An event, and what it means to the clients. Every request has a channel of its own. -/
def machine (app : List AppliedEntry → Bytes) : Machine Session (RaftDriver.Event × ℕ) where
  step s input :=
    if ∃ ch ∈ input.1.channel, ch ∈ s.channels then none
    else
      match s.driver.handleEvent app input.2 input.1 with
      | (_, none) => none
      | (effects, some d) => some
        { driver := d
          events := input.1 :: s.events
          tickets := (s.driver.ticket input.1).toList ++ s.tickets
          answered := effects.filterMap Effect.answered ++ s.answered }

variable {app : List AppliedEntry → Bytes} {s s' : Session} {event : RaftDriver.Event} {rnd : ℕ}

theorem step_cases (h : (machine app).step s (event, rnd) = some s') :
    (∀ ch ∈ event.channel, ch ∉ s.channels) ∧ ∃ effects,
      s.driver.handleEvent app rnd event = (effects, some s'.driver) ∧
      s'.channels = event.channel.toList ++ s.channels ∧ s'.events = event :: s.events ∧
      s'.tickets = (s.driver.ticket event).toList ++ s.tickets ∧
      s'.answered = effects.filterMap Effect.answered ++ s.answered := by
  simp only [machine] at h
  split_ifs at h with hch
  refine ⟨fun ch hm hold => hch ⟨ch, hm, hold⟩, ?_⟩
  split at h
  next => cases h
  next effects d he =>
    obtain rfl := Option.some.inj h
    refine ⟨effects, he, ?_, rfl, rfl, rfl⟩
    cases hc : event.channel with
    | none => exact List.filterMap_cons_none hc
    | some ch => exact List.filterMap_cons_some hc

/-- Everybody who has come has been answered once or waits, and the maps are in step with
the core. -/
structure Attended (s : Session) : Prop where
  driver : s.driver.Attended
  nodup : s.channels.Nodup
  perm : s.channels.Perm (s.answered ++ s.driver.waiting)

theorem Attended.step (h : s.Attended) (hok : ¬s.driver.core.Contradicted event.request)
    (hown : ¬s.driver.core.OwnSnapshot event.request)
    (hs : (machine app).step s (event, rnd) = some s') : s'.Attended := by
  obtain ⟨hfresh, effects, he, hch, -, -, hans⟩ := step_cases hs
  refine ⟨h.driver.handleEvent hok hown he, ?_, ?_⟩
  · rw [hch]
    cases hc : event.channel with
    | none => exact h.nodup
    | some ch => exact List.nodup_cons.mpr ⟨hfresh ch hc, h.nodup⟩
  · rw [hch, hans]
    have hall := (h.perm.append_left event.channel.toList).trans
      (List.perm_append_comm_assoc _ _ _)
    have hnew := hall.trans ((h.driver.answers he).append_left s.answered)
    rw [List.append_assoc]
    exact hnew.trans (List.perm_append_comm_assoc _ _ _)

theorem attended_start {cfg : DriverConfig} {storage : Storage} {d : RaftDriver}
    (h : cfg.new storage rnd = some d) : (start d).Attended := by
  obtain ⟨core, hc, rfl⟩ := cfg.started_of_new h
  have hr : core.readBarriers = ∅ := by cases hc <;> rfl
  have hnone : ∀ k, k ∉ (∅ : AList fun _ : ℕ => Channel) := AList.notMem_empty
  refine ⟨⟨hc.level, fun _ => ⟨rfl, rfl⟩, fun id => iff_of_false (hnone id) ?_,
    fun id hid => absurd hid (hnone id), fun i hi => absurd hi (hnone i)⟩, List.nodup_nil,
    List.Perm.refl _⟩
  exact hr ▸ AList.notMem_empty id

/-- A step that contradicts nothing committed and brings no leader a snapshot of its own
term. -/
def Clean (s : Session) (input : RaftDriver.Event × ℕ) : Prop :=
  ¬s.driver.core.Contradicted input.1.request ∧ ¬s.driver.core.OwnSnapshot input.1.request

instance (s : Session) (input : RaftDriver.Event × ℕ) : Decidable (s.Clean input) :=
  inferInstanceAs (Decidable (_ ∧ _))

/-- The bookkeeping of the clients : at every loop head of every clean run, whatever the
storage the driver was started on, a node that does not lead keeps nobody waiting, the
pending reads are the barriers of the core, the pending proposals of a leader are in its log
and not applied, and everybody who has come has been answered exactly once or waits. -/
theorem clients_attended {cfg : DriverConfig} {storage : Storage} {d₀ : RaftDriver}
    (h₀ : cfg.new storage rnd = some d₀) (h : (machine app).Run Clean (start d₀) s) :
    (s.driver.core.state ≠ .leader →
      s.driver.pendingProposals = ∅ ∧ s.driver.pendingReads = ∅) ∧
    (∀ id, id ∈ s.driver.pendingReads ↔ id ∈ s.driver.core.readBarriers) ∧
    (s.driver.core.state = .leader → ∀ i ∈ s.driver.pendingProposals,
      s.driver.core.lastApplied < i ∧ i ≤ s.driver.core.lastLogIndex) ∧
    s.channels.Nodup ∧ s.channels.Perm (s.answered ++ s.driver.waiting) := by
  have hs : s.Attended := h.invariant (attended_start h₀) fun s input s' hs hok hstep =>
    hs.step hok.1 hok.2 hstep
  exact ⟨hs.driver.follower, hs.driver.reads, fun _ => hs.driver.proposals, hs.nodup, hs.perm⟩

/-- Node 1 of three nodes, with snapshots every hundred commands. -/
def rare : DriverConfig := ⟨1, [1, 2, 3], some 1, (1, 2), 100⟩

/-- An election, a proposal and a read that are answered by the same success, and a proposal
that is not answered yet. -/
def busyMorning : List (RaftDriver.Event × ℕ) :=
  [(.tick, 1), (.message (.requestVoteResponse ⟨2, 1, true⟩), 1), (.propose [7] 5, 1),
    (.read 6, 1), (.message (.appendEntriesResponse ⟨2, 1, 2, true, none, none⟩), 1),
    (.propose [8] 9, 1)]

theorem clients_attended_busyMorning : ∃ s,
    (machine fun _ => []).Run Clean (start (rare.boot 1)) s ∧ s.channels = [9, 6, 5] ∧
      s.answered = [5, 6] ∧ s.channels.Perm ([5, 6] ++ s.driver.waiting) := by
  obtain ⟨s, hs, hch, hans⟩ := (machine fun _ => []).exists_run_of_exec Clean
    (start (rare.boot 1)) busyMorning (fun s => s.channels = [9, 6, 5] ∧ s.answered = [5, 6])
    (by decide +kernel) (by decide +kernel)
  have h₀ : rare.new Storage.empty 1 = some (rare.boot 1) := rfl
  refine ⟨s, hs, hch, hans, ?_⟩
  rw [← hans]
  exact (clients_attended h₀ hs).2.2.2.2

end Session

end FerrisFerry
