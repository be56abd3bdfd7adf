import FerrisFerry.Agreement
import FerrisFerry.Stages

/-!
# A fleet of drivers is a cluster of cores

A run of a fleet whose steps are orderly (`Fleet.Orderly`) is matched by a sound run of the
cluster : at every head of the event loops the cores are the same, the storage of every node
amounts to its disk, and every message in flight is one of the cluster (`Fleet.Refines`). An
event is the call it makes, with a snapshot of the node for each one the driver takes; a
restart is a crash behind as much of the call as the storage shows.

So what holds of every sound run of cores holds of the drivers (`Fleet.refines_cluster`).
-/

namespace FerrisFerry

namespace Cluster

/-- Whether a call is sound depends on the core that is called. -/
theorem Sound.congr {c c' : Cluster} {n : NodeId} {request : Request} {rnd : ℕ}
    (hcore : c'.core n = c.core n) (h : c.Sound (.call n request rnd)) :
    c'.Sound (.call n request rnd) := by
  cases request with
  | message msg =>
    cases msg with
    | requestVoteResponse | appendEntries | appendEntriesResponse =>
      simpa only [Sound, hcore] using h
    | _ => trivial
  | _ => trivial

/-- A snapshot point at index `0` has term `0`. -/
theorem TreeInv.disk_root {c : Cluster} (hi : TreeInv c) {n : NodeId}
    (h : (c.disk n).lastIncludedIndex = 0) : (c.disk n).lastIncludedTerm = 0 := by
  have hbase := (hi.disk n).2
  have hroot := hi.eq_root (hi.base n) (by rw [← hbase]; exact h)
  rw [← hbase] at hroot
  exact congrArg Point.term hroot

end Cluster

/-- A restart in terms of the snapshot point, whether there is a snapshot or not. -/
theorem Config.restart_eq (cfg : Config) (n : NodeId) {disk : Mirror}
    (h : disk.lastIncludedIndex = 0 → disk.lastIncludedTerm = 0) (rnd : ℕ) :
    cfg.restart n disk rnd = RaftCore.restoreWithSnapshot n cfg.nodes (cfg.heartbeatInterval n)
      (cfg.electionRange n) rnd disk.term disk.votedFor disk.log disk.lastIncludedIndex
      disk.lastIncludedTerm := by
  unfold Config.restart
  split_ifs with h0
  · rw [h0, h h0]
    rfl
  · rfl

/-- What `RaftDriver::new` makes of aligned storage is what the cluster restarts with. -/
theorem FleetConfig.core_of_new {cfg : FleetConfig} {n : NodeId} {s : Storage} {rnd : ℕ}
    {d : RaftDriver} (hs : s.Aligned) (h : (cfg.node n).new s rnd = some d)
    (h0 : s.image.lastIncludedIndex = 0 → s.image.lastIncludedTerm = 0) :
    d.core = cfg.toConfig.restart n s.image rnd ∧ d.storage = s ∧ d.id = n := by
  rw [Config.restart_eq cfg.toConfig n h0]
  unfold DriverConfig.new at h
  cases hsnap : s.snapshot with
  | some snapshot =>
    rw [hsnap] at h
    simp only [bind, Option.bind_eq_some_iff, Option.some.injEq] at h
    obtain ⟨metadata, hm, entries, he, rfl⟩ := h
    obtain ⟨frames, hf, rfl⟩ := Option.map_eq_some_iff.mp he
    refine ⟨?_, rfl, rfl⟩
    simp [Storage.image, Storage.frames, hm, hf, hsnap, DriverConfig.driver, FleetConfig.node]
  | none =>
    rw [hsnap] at h
    cases hm : s.metadata with
    | none =>
      rw [hm] at h
      obtain rfl := Option.some.inj h
      have hframes := (hs.fresh hm).1
      refine ⟨?_, rfl, rfl⟩
      simp only [Storage.image, hframes, hm, hsnap]
      rfl
    | some metadata =>
      rw [hm] at h
      obtain rfl := Option.some.inj h
      refine ⟨?_, rfl, rfl⟩
      have hlog : s.image.log = s.restoreLogEntries.getD [] := by
        simp only [Storage.image, Storage.frames, Storage.restoreLogEntries]
        cases s.log <;> rfl
      rw [hlog]
      simp only [Storage.image, hm, hsnap]
      rfl

namespace Fleet

variable {cfg : FleetConfig} {app : List AppliedEntry → Bytes} {f f' : Fleet} {c : Cluster}

/-- The cores and disks of a fleet. -/
def cores (f : Fleet) : Cluster where
  node n := ⟨(f.driver n).core, (f.driver n).storage.image⟩
  trace := []

/-- An event keeps to the protocol, and a snapshot taken in it covers the whole log. -/
def Proper (f : Fleet) (n : NodeId) (event : RaftDriver.Event) (rnd : ℕ) : Prop :=
  f.cores.Sound (.call n event.request rnd) ∧ (f.driver n).Compacts rnd event

/-- The steps a cluster can follow : proper events, and crashes that do not fall between storing
a snapshot and clearing the log, unless the log is empty already. -/
def Orderly (app : List AppliedEntry → Bytes) (f : Fleet) : NodeId × DriverInput → Prop
  | (n, .event event rnd) => f.Proper n event rnd
  | (n, .crash event rnd done _) => (0 < done → f.Proper n event rnd) ∧
    (f.driver n).storage.Recoverable (((f.driver n).handleEvent app rnd event).1.take done)

instance (s : Storage) (effects : List Effect) : Decidable (s.Recoverable effects) :=
  inferInstanceAs (Decidable (torn effects = true → (s.replay effects).log = some []))

instance (f : Fleet) (n : NodeId) (event : RaftDriver.Event) (rnd : ℕ) :
    Decidable (f.Proper n event rnd) :=
  inferInstanceAs (Decidable (f.cores.Sound (.call n event.request rnd) ∧
    (f.driver n).Compacts rnd event))

instance (app : List AppliedEntry → Bytes) (f : Fleet) :
    (input : NodeId × DriverInput) → Decidable (f.Orderly app input)
  | (n, .event event rnd) => inferInstanceAs (Decidable (f.Proper n event rnd))
  | (n, .crash event rnd done _) => inferInstanceAs (Decidable ((0 < done → f.Proper n event rnd) ∧
    (f.driver n).storage.Recoverable (((f.driver n).handleEvent app rnd event).1.take done)))

/-- The fleet shows a cluster : the same cores, the same disks, and no message of its own. -/
structure Refines (f : Fleet) (c : Cluster) : Prop where
  shadows : ∀ n, c.Shadows n (f.driver n)
  durable : ∀ n, (f.driver n).Durable
  id : ∀ n, (f.driver n).id = n
  net : f.net ⊆ c.net

theorem refines_init (cfg : FleetConfig) : cfg.init.Refines cfg.toConfig.init where
  shadows _ := ⟨rfl, rfl⟩
  durable _ := ⟨Storage.aligned_empty, ⟨rfl, rfl⟩, ⟨rfl, rfl⟩, fun h => absurd rfl h⟩
  id _ := rfl
  net := List.nil_subset _

/-- A step of one node that the cluster follows. -/
theorem Refines.put {c' : Cluster} {n : NodeId} {d' : RaftDriver} {effects : List Effect}
    (h : f.Refines c) (hadv : Cluster.Advances cfg.toConfig n c c') (hs : c'.Shadows n d')
    (hd : d'.Durable) (hid : d'.id = n) (hsent : sent effects ⊆ c'.net) :
    (f.put n d' effects).Refines c' := by
  refine ⟨fun m => ?_, fun m => ?_, fun m => ?_, ?_⟩
  · rcases eq_or_ne m n with rfl | hm
    · rw [put_driver_self]
      exact hs
    · rw [put_driver_of_ne f hm]
      refine ⟨?_, ?_⟩
      · rw [Cluster.core, hadv.others m hm]
        exact (h.shadows m).core
      · rw [Cluster.disk, hadv.others m hm]
        exact (h.shadows m).disk
  · rcases eq_or_ne m n with rfl | hm
    · rw [put_driver_self]
      exact hd
    · rw [put_driver_of_ne f hm]
      exact h.durable m
  · rcases eq_or_ne m n with rfl | hm
    · rw [put_driver_self]
      exact hid
    · rw [put_driver_of_ne f hm]
      exact h.id m
  · exact List.append_subset.mpr ⟨hsent, List.Subset.trans h.net hadv.net⟩

/-- Entries and snapshots in flight have a leader, so their term is not `0`. -/
theorem Refines.admits {n : NodeId} {event : RaftDriver.Event} {rnd : ℕ} (h : f.Refines c)
    (hb : Cluster.BaseInv cfg.toConfig c) (hd : f.Deliverable n event)
    (hok : f.cores.Sound (.call n event.request rnd)) : (f.driver n).Admits event := by
  have pos : ∀ m t, c.Led m t → 0 < t := fun m t hl => (hb.tree.past m t hl).1
  cases event with
  | message msg =>
    have hnet : (n, msg) ∈ c.net := h.net hd
    cases msg with
    | appendEntries req =>
      exact fun hheeds _ => ⟨hok hheeds, fun _ => pos _ _ (hb.honest.append n req hnet).1⟩
    | installSnapshot req => exact fun _ _ => pos _ _ (hb.honest.install n req hnet).1
    | _ => trivial
  | _ => trivial

theorem Refines.enabled {n : NodeId} {event : RaftDriver.Event} (h : f.Refines c)
    (hd : f.Deliverable n event) : c.Enabled n event.request := by
  cases event with
  | message msg => exact h.net hd
  | _ => trivial

theorem Refines.sound {n : NodeId} {request : Request} {rnd : ℕ} (h : f.Refines c)
    (hok : f.cores.Sound (.call n request rnd)) : c.Sound (.call n request rnd) := by
  have hcore : c.core n = f.cores.core n := (h.shadows n).core
  exact hok.congr hcore

/-- The cluster follows an event. -/
theorem Refines.event {n : NodeId} {event : RaftDriver.Event} {rnd : ℕ} {d' : RaftDriver}
    (h : f.Refines c) (hb : Cluster.BaseInv cfg.toConfig c) (hn : n ∈ cfg.nodes)
    (hd : f.Deliverable n event) (hok : f.Proper n event rnd)
    (hd' : ((f.driver n).handleEvent app rnd event).2 = some d') :
    ∃ c', Cluster.Advances cfg.toConfig n c c' ∧
      (f.put n d' ((f.driver n).handleEvent app rnd event).1).Refines c' ∧
      ∀ after actions, (f.driver n).core.call rnd event.request = some (after, actions) →
        c.newCall n event.request after actions ∈ c'.trace := by
  have hs := h.shadows n
  have ha := h.admits hb hd hok.1
  obtain ⟨c', hadv, hs', hid, hsent, hcall⟩ := RaftDriver.follows_handleEvent hn hs (h.durable n)
    (h.id n) (h.enabled hd) (h.sound hok.1) ha hok.2 hd'
  have hdur := (RaftDriver.keeps_handleEvent (h.durable n) ha hok.2).after d' hd'
  exact ⟨c', hadv, h.put hadv hs' hdur hid hsent, hcall⟩

/-- The cluster follows a crash. -/
theorem Refines.crash {n : NodeId} {event : RaftDriver.Event} {rnd done restartRnd : ℕ}
    {d' : RaftDriver} (h : f.Refines c)
    (hr : cfg.toConfig.machine.Run Cluster.Sound cfg.toConfig.init c)
    (hn : n ∈ cfg.nodes) (hd : f.Deliverable n event)
    (hok : f.Orderly app (n, .crash event rnd done restartRnd))
    (hd' : (cfg.node n).new ((f.driver n).crashStorage app rnd event done) restartRnd = some d') :
    ∃ c', Cluster.Advances cfg.toConfig n c c' ∧
      (f.put n d' (((f.driver n).handleEvent app rnd event).1.take done)).Refines c' := by
  obtain ⟨hproper, hrec⟩ := hok
  have hb := (Cluster.sound_run hr).1
  have hs := h.shadows n
  -- the disk the cluster stops with
  obtain ⟨c₁, hadv, hdisk, hsent⟩ : ∃ c₁, Cluster.Advances cfg.toConfig n c c₁ ∧
      c₁.disk n = ((f.driver n).crashStorage app rnd event done).image ∧
      sent (((f.driver n).handleEvent app rnd event).1.take done) ⊆ c₁.net := by
    rcases Nat.eq_zero_or_pos done with rfl | hpos
    · exact ⟨c, .refl _ n c, hs.disk, List.nil_subset _⟩
    · have ha := h.admits hb hd (hproper hpos).1
      exact RaftDriver.survives_handleEvent hn hs (h.durable n) (h.id n) (h.enabled hd)
        (h.sound (hproper hpos).1) ha (hproper hpos).2 done hrec
  have hal : ((f.driver n).crashStorage app rnd event done).Aligned :=
    @RaftDriver.Settles.aligned _ _ _ _ _ restartRnd (h.durable n)
      ⟨fun hpos => ⟨h.admits hb hd (hproper hpos).1, (hproper hpos).2⟩, hrec⟩
  have hroot := (Cluster.sound_run (hr.trans hadv.run)).1.tree.disk_root (n := n)
  rw [hdisk] at hroot
  obtain ⟨hcore, hstorage, hid⟩ := FleetConfig.core_of_new hal hd' hroot
  refine ⟨_, hadv.trans (.crash hn restartRnd), h.put (hadv.trans (.crash hn restartRnd)) ⟨?_, ?_⟩
    (DriverConfig.durable_of_new hal hd') hid ?_⟩
  · rw [Cluster.core_setNode_self, hcore, hdisk]
  · rw [Cluster.disk_setNode_self, hstorage, hdisk]
  · exact hsent

/-- The cluster follows every orderly run. -/
theorem refines_run (h : (cfg.machine app).Run (Orderly app) cfg.init f) :
    ∃ c, cfg.toConfig.machine.Run Cluster.Sound cfg.toConfig.init c ∧ f.Refines c := by
  refine h.simulate (refines_init cfg) ?_
  rintro f ⟨n, input⟩ f' c - hr hR hok hs
  cases input with
  | event event rnd =>
    simp only [FleetConfig.machine] at hs
    split_ifs at hs with hn
    obtain ⟨d', hd', rfl⟩ := Option.map_eq_some_iff.mp hs
    obtain ⟨c', hadv, hR', -⟩ := hR.event (Cluster.sound_run hr).1 hn.1 hn.2 hok hd'
    exact ⟨c', hadv.run, hR'⟩
  | crash event rnd done restartRnd =>
    simp only [FleetConfig.machine] at hs
    split_ifs at hs with hn
    obtain ⟨d', hd', rfl⟩ := Option.map_eq_some_iff.mp hs
    obtain ⟨c', hadv, hR'⟩ := hR.crash hr hn.1 hn.2 hok hd'
    exact ⟨c', hadv.run, hR'⟩

/-- Refinement : in every run of a fleet whose steps are orderly, the drivers are where a sound
run of the cluster takes the cores. Every core is the same, every storage amounts to the disk,
and every message in flight is in flight there. -/
theorem refines_cluster (h : (cfg.machine app).Run (Orderly app) cfg.init f) :
    ∃ c, cfg.toConfig.machine.Run Cluster.Sound cfg.toConfig.init c ∧
      (∀ n, c.core n = (f.driver n).core ∧ c.disk n = (f.driver n).storage.image) ∧
      f.net ⊆ c.net := by
  obtain ⟨c, hc, hR⟩ := refines_run h
  exact ⟨c, hc, fun n => ⟨(hR.shadows n).core, (hR.shadows n).disk⟩, hR.net⟩

/-- The leader has compacted a command and stops inside a heartbeat, behind its first message. -/
def stopsInHeartbeat : List (NodeId × DriverInput) :=
  compactedBehind ++ [(1, .crash .tick 1 1 1)]

theorem refines_cluster_stopsInHeartbeat :
    ∃ f,
      (FleetConfig.trio.machine fun _ => [5]).Run (Orderly fun _ => [5]) FleetConfig.trio.init f ∧
      (f.driver 1).storage.snapshot = some ⟨2, 1, [5]⟩ ∧ (f.driver 1).core.state = .follower ∧
      (2, .installSnapshot ⟨1, 1, 2, 1, [5]⟩) ∈ f.net ∧
      ∃ c, Config.trio.machine.Run Cluster.Sound Config.trio.init c ∧
        c.core 1 = (f.driver 1).core ∧ (c.disk 1).lastIncludedIndex = 2 ∧
        (2, .installSnapshot ⟨1, 1, 2, 1, [5]⟩) ∈ c.net := by
  obtain ⟨f, hf, hsnap, hstate, hnet⟩ := (FleetConfig.trio.machine fun _ => [5]).exists_run_of_exec
    (Orderly fun _ => [5]) FleetConfig.trio.init stopsInHeartbeat (fun f =>
      (f.driver 1).storage.snapshot = some ⟨2, 1, [5]⟩ ∧ (f.driver 1).core.state = .follower ∧
      (2, .installSnapshot ⟨1, 1, 2, 1, [5]⟩) ∈ f.net) (by decide +kernel) (by decide +kernel)
  obtain ⟨c, hc, hnode, hsub⟩ := refines_cluster hf
  refine ⟨f, hf, hsnap, hstate, hnet, c, hc, (hnode 1).1, ?_, hsub hnet⟩
  rw [(hnode 1).2, Storage.image, hsnap]
  rfl

end Fleet

end FerrisFerry
