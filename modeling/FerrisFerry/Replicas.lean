import FerrisFerry.Application
import FerrisFerry.Completeness
import FerrisFerry.FileDriver
import FerrisFerry.Refinement

/-!
# One log, one state

What the fleet is for : every application goes through the states of one sequence of commands.
`Fleet.Agrees` says so of a sequence that has every command the cluster has settled. The
applications are where it leads at their `last_applied`, and every snapshot, in a storage or in
flight, holds the state of its index. `Fleet.one_log` : there is such a sequence at every
point of an orderly run in which the threshold is reached by the last command of an event and
no restart finds a snapshot.

The proof fixes the sequence at the end of the run. What is settled stays settled, so it is
also right for every earlier state, and the steps can be taken one by one.
-/

namespace FerrisFerry

/-! ## Snapshots that are sent -/

namespace RaftDriver

variable {app : List AppliedEntry → Bytes} {d : RaftDriver} {event : Event} {rnd : ℕ}

/-- A snapshot that is sent is the stored one. -/
theorem Durable.snapshot_of_sent (h : d.Durable) {target : NodeId} {req : InstallSnapshotRPC}
    (hm : .send target (.installSnapshot req) ∈ (d.handleEvent app rnd event).1) :
    d.storage.snapshot = some ⟨req.lastIncludedIndex, req.lastIncludedTerm, req.data⟩ := by
  cases hcall : d.core.call rnd event.request with
  | none =>
    rw [handleEvent_of_panic hcall] at hm
    cases hm
  | some r =>
  obtain ⟨after, actions⟩ := r
  have ho := RaftCore.call_outcome hcall
  have hd₀ := d.alike_intake event after actions
  have hsends : ((d.intake event after actions).handleActions app actions).Meets
      (Sends d.id d.storage.image actions) fun d' => d'.id = d.id :=
    meets_sends (by rw [hd₀]) (fun _ => by rw [hd₀]; rfl)
      fun _ _ _ _ ha => ho.not_reaches_of_snapshot ha
  rw [handleEvent_of_call hcall] at hm
  obtain ⟨a, ha, hout⟩ := (hsends.andThen (Q := fun _ => True) fun d' _ =>
    ⟨fun e he => sends_of_ne (not_send_conclude d event d' e he), fun _ _ => trivial⟩).effects _ hm
    target (.installSnapshot req) rfl
  cases a with
  | sendMessage dst msg =>
    cases hout
    cases ho.emits ha with
    | leading hb =>
      rcases RaftCore.buildAppendEntriesForPeer_cases hb with h | ⟨_, _, _, h, _⟩ <;> cases h
  | sendInstallSnapshot dst t i l =>
    obtain ⟨-, rfl, rfl⟩ := ho.sendInstallSnapshot ha
    have hbase : d.storage.image.base = after.base := by
      cases ho.baseMove event.request_ne_snapshot with
      | keep hb => exact h.log.2.trans hb.symm
      | @install req reply hr hlt hb hacts =>
        have hmem :
            .installSnapshot req.lastIncludedIndex req.lastIncludedTerm req.data ∈ actions := by
          rw [hacts]
          exact List.mem_append_right _ List.mem_cons_self
        exact absurd trivial (ho.not_reaches_of_snapshot ha _ hmem)
    cases hs : d.storage.snapshot with
    | none =>
      rw [outgoing, Storage.image, Storage.retrieveSnapshotBytes, hs] at hout
      cases hout
    | some snapshot =>
      rw [outgoing, Storage.image, Storage.retrieveSnapshotBytes, hs] at hout
      cases hout
      rw [Mirror.base, Storage.image, hs] at hbase
      cases snapshot
      simpa [RaftCore.base] using hbase
  | _ => cases hout

end RaftDriver

/-- The snapshot after some effects was there before, or is one of the effects. -/
theorem Storage.snapshot_of_replay {s : Storage} {effects : List Effect} {snapshot : Snapshot}
    (h : (s.replay effects).snapshot = some snapshot) :
    s.snapshot = some snapshot ∨ .store (.storeSnapshot snapshot) ∈ effects := by
  induction effects using List.reverseRecOn with
  | nil => exact Or.inl h
  | append_singleton effects e ih =>
    rw [Storage.replay_append] at h
    have keep : (s.replay effects).snapshot = some snapshot →
        s.snapshot = some snapshot ∨ .store (.storeSnapshot snapshot) ∈ effects ++ [e] :=
      fun h => (ih h).imp_right fun h => List.mem_append_left _ h
    cases e with
    | store op =>
      cases op with
      | storeSnapshot snapshot' =>
        obtain rfl : snapshot' = snapshot := Option.some.inj h
        exact Or.inr (List.mem_append_right _ List.mem_cons_self)
      | _ => exact keep h
    | _ => exact keep h

/-! ## The fleet and one sequence of commands -/

namespace Fleet

variable {σ : Type*} {A : Application σ} {cmd : ℕ → Bytes} {cfg : FleetConfig} {f f' : Fleet}
  {c c' : Cluster}

/-- Every application is where the commands lead, and every snapshot holds the state of its
index. -/
structure Agrees (A : Application σ) (cmd : ℕ → Bytes) (f : Fleet) : Prop where
  tracks : ∀ n, (f.driver n).Tracks A cmd (f.driver n).core.lastApplied
  stored : ∀ n, ∀ snapshot ∈ (f.driver n).storage.snapshot, A.Holds cmd snapshot
  sent : ∀ target req, (target, .installSnapshot req) ∈ f.net →
    A.Holds cmd ⟨req.lastIncludedIndex, req.lastIncludedTerm, req.data⟩

/-- The commands have everything that is settled. -/
def Settles (cfg : Config) (c : Cluster) (cmd : ℕ → Bytes) : Prop :=
  ∀ i command, c.Settled cfg i command → command = cmd i

/-- The steps that keep the applications together : orderly ones, in which an event reaches the
threshold with the last command it delivers and no restart finds a snapshot. -/
def Steady (A : Application σ) (f : Fleet) (input : NodeId × DriverInput) : Prop :=
  f.Orderly A.answer input ∧
    match input with
    | (n, .event event rnd) => (f.driver n).Spaced rnd event
    | (n, .crash event rnd done _) =>
      ((f.driver n).crashStorage A.answer rnd event done).snapshot = none

instance (A : Application σ) (f : Fleet) :
    (input : NodeId × DriverInput) → Decidable (f.Steady A input)
  | (n, .event event rnd) => inferInstanceAs (Decidable
    (f.Orderly A.answer (n, .event event rnd) ∧ (f.driver n).Spaced rnd event))
  | (n, .crash event rnd done restartRnd) => inferInstanceAs (Decidable
    (f.Orderly A.answer (n, .crash event rnd done restartRnd) ∧
      ((f.driver n).crashStorage A.answer rnd event done).snapshot = none))

/-- Replacing the driver of one node. -/
theorem Agrees.put (h : f.Agrees A cmd) {n : NodeId} {d' : RaftDriver} {effects : List Effect}
    (ht : d'.Tracks A cmd d'.core.lastApplied)
    (hs : ∀ snapshot ∈ d'.storage.snapshot, A.Holds cmd snapshot)
    (he : ∀ target req, .send target (.installSnapshot req) ∈ effects →
      A.Holds cmd ⟨req.lastIncludedIndex, req.lastIncludedTerm, req.data⟩) :
    (f.put n d' effects).Agrees A cmd := by
  refine ⟨fun m => ?_, fun m => ?_, fun target req hm => ?_⟩
  · rcases eq_or_ne m n with rfl | hm
    · rw [put_driver_self]
      exact ht
    · rw [put_driver_of_ne f hm]
      exact h.tracks m
  · rcases eq_or_ne m n with rfl | hm
    · rw [put_driver_self]
      exact hs
    · rw [put_driver_of_ne f hm]
      exact h.stored m
  · rcases List.mem_append.mp hm with hm | hm
    · exact he target req (RaftDriver.mem_sent.mp hm)
    · exact h.sent target req hm

/-- What the core hands out in an event is committed. -/
theorem Agrees.faithful (h : f.Agrees A cmd) {n : NodeId} {event : RaftDriver.Event} {rnd : ℕ}
    (hd : f.Deliverable n event) (hr : cfg.toConfig.machine.Run Cluster.Sound cfg.toConfig.init c')
    (hcmd : Settles cfg.toConfig c' cmd)
    (hcall : ∀ after actions, (f.driver n).core.call rnd event.request = some (after, actions) →
      c.newCall n event.request after actions ∈ c'.trace) :
    (f.driver n).Faithful A cmd rnd event := by
  rintro ⟨after, actions⟩ hmem a ha
  have ho := RaftCore.call_outcome hmem
  have hk := hcall after actions hmem
  cases a with
  | applyToStateMachine i command => exact hcmd i command (Cluster.settled_run hr _ hk i command ha)
  | installSnapshot i t data =>
    cases ho.emits ha with
    | leading hb => exact (RaftCore.leading_of_build hb).elim
    | @install req hreq =>
      cases event with
      | message msg =>
        cases hreq
        exact h.sent n req hd
      | _ => cases hreq
  | _ => trivial

/-- One step keeps the applications together. -/
theorem Agrees.event (h : f.Agrees A cmd) (hR : f.Refines c) {n : NodeId} {event : RaftDriver.Event}
    {rnd : ℕ} {d' : RaftDriver} (hf : (f.driver n).Faithful A cmd rnd event)
    (hs : (f.driver n).Spaced rnd event)
    (hd' : ((f.driver n).handleEvent A.answer rnd event).2 = some d') :
    (f.put n d' ((f.driver n).handleEvent A.answer rnd event).1).Agrees A cmd := by
  have hm := RaftDriver.meets_handleEvent (h.tracks n) hf
  refine h.put (hm.after d' hd') (fun snapshot hsnap => ?_) fun target req he => ?_
  · rw [(RaftDriver.performs_handleEvent _ rnd event d' hd').1] at hsnap
    rcases Storage.snapshot_of_replay hsnap with hold | hnew
    · exact h.stored n snapshot hold
    · exact hm.effects _ hnew hs
  · exact h.stored n _ ((hR.durable n).snapshot_of_sent he)

theorem Agrees.crash (h : f.Agrees A cmd) (hR : f.Refines c) {n : NodeId}
    {event : RaftDriver.Event} {rnd done restartRnd : ℕ} {d' : RaftDriver}
    (hs : ((f.driver n).crashStorage A.answer rnd event done).snapshot = none)
    (hd' : (cfg.node n).new ((f.driver n).crashStorage A.answer rnd event done) restartRnd =
      some d') :
    (f.put n d' (((f.driver n).handleEvent A.answer rnd event).1.take done)).Agrees A cmd := by
  refine h.put (Application.tracks_of_new hd' (by simp [hs])) ?_ fun target req he => ?_
  · rw [DriverConfig.storage_of_new hd', hs]
    exact nofun
  · exact h.stored n _ ((hR.durable n).snapshot_of_sent (List.mem_of_mem_take he))

theorem agrees_init (A : Application σ) (cmd : ℕ → Bytes) (cfg : FleetConfig) :
    cfg.init.Agrees A cmd where
  tracks _ := ⟨rfl, rfl, le_rfl⟩
  stored _ _ h := by cases h
  sent _ _ h := by cases h

/-- The cluster follows, and whatever sequence has all it has settled is the one all
applications go by. -/
theorem agrees_run (h : (cfg.machine A.answer).Run (Steady A) cfg.init f) :
    ∃ c, cfg.toConfig.machine.Run Cluster.Sound cfg.toConfig.init c ∧ f.Refines c ∧
      ∀ cmd, Settles cfg.toConfig c cmd → f.Agrees A cmd := by
  refine h.simulate
    (R := fun f c => f.Refines c ∧ ∀ cmd, Settles cfg.toConfig c cmd → f.Agrees A cmd)
    ⟨refines_init cfg, fun cmd _ => agrees_init A cmd cfg⟩ ?_
  rintro f ⟨n, input⟩ f' c - hr ⟨hR, hA⟩ ⟨hok, hsteady⟩ hs
  -- a sequence that is right after the step was right before it
  have back : ∀ c', Cluster.Advances cfg.toConfig n c c' → ∀ cmd, Settles cfg.toConfig c' cmd →
      f.Agrees A cmd := fun c' hadv cmd hcmd =>
    hA cmd fun i command hi => hcmd i command (hi.run hr hadv.run)
  cases input with
  | event event rnd =>
    simp only [FleetConfig.machine] at hs
    split_ifs at hs with hn
    obtain ⟨d', hd', rfl⟩ := Option.map_eq_some_iff.mp hs
    obtain ⟨c', hadv, hR', hcall⟩ := hR.event (Cluster.sound_run hr).1 hn.1 hn.2 hok hd'
    refine ⟨c', hadv.run, hR', fun cmd hcmd => ?_⟩
    have hagree := back c' hadv cmd hcmd
    exact hagree.event hR (hagree.faithful hn.2 (hr.trans hadv.run) hcmd hcall) hsteady hd'
  | crash event rnd done restartRnd =>
    simp only [FleetConfig.machine] at hs
    split_ifs at hs with hn
    obtain ⟨d', hd', rfl⟩ := Option.map_eq_some_iff.mp hs
    obtain ⟨c', hadv, hR'⟩ := hR.crash hr hn.1 hn.2 hok hd'
    exact ⟨c', hadv.run, hR', fun cmd hcmd => (back c' hadv cmd hcmd).crash hR hsteady hd'⟩

/-- There is a sequence with everything that is settled. -/
theorem exists_settles {cfg : Config} {c : Cluster} (hb : Cluster.BaseInv cfg c) :
    ∃ cmd, Settles cfg c cmd := by
  classical
  refine ⟨fun i => if h : ∃ command, c.Settled cfg i command then h.choose else [], ?_⟩
  intro i command hi
  have hex : ∃ command, c.Settled cfg i command := ⟨command, hi⟩
  dsimp only
  rw [dif_pos hex]
  exact hb.settled_unique hi hex.choose_spec

/-- One log, one state : at every point of a steady run there is one sequence of commands such
that what any node has committed is in it, every application is in the state it leads to at the
node's `last_applied`, and every snapshot in a storage or in flight holds the state it leads to
at the index of the snapshot. -/
theorem one_log (h : (cfg.machine A.answer).Run (Steady A) cfg.init f) :
    ∃ cmd : ℕ → Bytes,
      (∀ n i e, i ≤ (f.driver n).core.commitIndex → (f.driver n).core.logEntryAt i = some e →
        cmd i = e.command) ∧
      (∀ n, A.state (f.driver n).applied = A.stateAt cmd (f.driver n).core.lastApplied) ∧
      (∀ n, ∀ snapshot ∈ (f.driver n).storage.snapshot,
        snapshot.data = A.encode (A.stateAt cmd snapshot.lastIncludedIndex)) ∧
      ∀ target req, (target, .installSnapshot req) ∈ f.net →
        req.data = A.encode (A.stateAt cmd req.lastIncludedIndex) := by
  obtain ⟨c, hr, hR, hA⟩ := agrees_run h
  obtain ⟨hb, hs⟩ := Cluster.sound_run hr
  obtain ⟨cmd, hcmd⟩ := exists_settles hb
  have hagree := hA cmd hcmd
  refine ⟨cmd, fun n i e hi he => ?_, fun n => (hagree.tracks n).state, hagree.stored, hagree.sent⟩
  rw [← (hR.shadows n).core] at hi he
  exact (hcmd i e.command (hs.settled hb hi he)).symm

/-- The leader has compacted the command; node 3 restarts with an empty application and node 2
gets the snapshot. -/
def catchesUp : List (NodeId × DriverInput) :=
  compactedBehind ++ [(3, .crash .tick 1 0 1), (1, .event emptyHanded 1),
    (2, .event (.message (.installSnapshot ⟨1, 1, 2, 1, [7]⟩)) 1)]

theorem one_log_catchesUp :
    ∃ f, (FleetConfig.trio.machine Application.journal.answer).Run (Steady Application.journal)
        FleetConfig.trio.init f ∧
      (f.driver 1).applied = [.command [7], .snapshotRequest] ∧
      (f.driver 2).applied = [.snapshot [7]] ∧ (f.driver 3).core.logEntryAt 2 = some ⟨1, [7]⟩ ∧
      ∃ cmd, Application.journal.state (f.driver 1).applied = Application.journal.stateAt cmd 2 ∧
        Application.journal.state (f.driver 2).applied = Application.journal.stateAt cmd 2 ∧
        Application.journal.state (f.driver 3).applied = Application.journal.stateAt cmd 0 := by
  obtain ⟨f, hf, h1, h2, h3, hl1, hl2, hl3⟩ :=
    (FleetConfig.trio.machine Application.journal.answer).exists_run_of_exec
      (Steady Application.journal) FleetConfig.trio.init catchesUp (fun f =>
        (f.driver 1).applied = [.command [7], .snapshotRequest] ∧
        (f.driver 2).applied = [.snapshot [7]] ∧ (f.driver 3).core.logEntryAt 2 = some ⟨1, [7]⟩ ∧
        (f.driver 1).core.lastApplied = 2 ∧ (f.driver 2).core.lastApplied = 2 ∧
        (f.driver 3).core.lastApplied = 0) (by decide +kernel) (by decide +kernel)
  obtain ⟨cmd, -, hstate, -⟩ := one_log hf
  exact ⟨f, hf, h1, h2, h3, cmd, (hstate 1).trans (by rw [hl1]), (hstate 2).trans (by rw [hl2]),
    (hstate 3).trans (by rw [hl3])⟩

end Fleet

end FerrisFerry
