import FerrisFerry.Durability
import FerrisFerry.Fleet
import FerrisFerry.Safety

/-!
# An event as calls of the core

What a driver does in one event, seen from the cluster of cores : a call, and one more for
every snapshot taken at the threshold (`RaftDriver.simulated_handleActions`). A driver that
stops inside an event has done the term check of the call, or all of its writes, or none
(`RaftCore.Outcome.stages`); the cluster stops there too, with the same disk
(`RaftDriver.survives_handleEvent`).

What the effects have sent by then is among the messages of the call.
-/

namespace FerrisFerry

/-- The term a request comes with. -/
def Request.term : Request → ℕ
  | .message msg => msg.term
  | _ => 0

namespace RaftCore

variable {core core' : RaftCore} {rnd : ℕ} {request : Request} {actions : List Action}

/-! ## The writes of a call -/

/-- The write of a call behind its term check : a vote, or a write of the log. -/
inductive LastWrite (core : RaftCore) (request : Request) : List Action → Prop
  | vote {t : ℕ} {v : Option NodeId} : LastWrite core request [.persistMetadata t v]
  | log {writes : List Action} (h : core.LogWrite request (core.termActions request.term) writes) :
    LastWrite core request writes

/-- The term check, at most one more write, and actions that write nothing. -/
def Staged (core : RaftCore) (request : Request) (actions : List Action) : Prop :=
  ∃ writes rest, actions = core.termActions request.term ++ (writes ++ rest) ∧
    core.LastWrite request writes ∧ ∀ a ∈ rest, ¬a.Writes

theorem staged_of_rest {rest : List Action} (ha : actions = core.termActions request.term ++ rest)
    (hr : ∀ a ∈ rest, ¬a.Writes) : core.Staged request actions :=
  ⟨[], rest, ha, .log .none, hr⟩

/-- The same for a request that does not raise the term. -/
theorem staged_of_le (ht : request.term ≤ core.currentTerm) (writes : List Action)
    {rest : List Action} (ha : actions = writes ++ rest) (hw : core.LastWrite request writes)
    (hr : ∀ a ∈ rest, ¬a.Writes) : core.Staged request actions := by
  refine ⟨writes, rest, ?_, hw, hr⟩
  rw [termActions_of_le ht]
  exact ha

/-- Every call goes through these stages. -/
theorem Outcome.stages (h : core.Outcome rnd request core' actions)
    (hg : core.GroundedEntries request) : core.Staged request actions := by
  cases h with
  | wait | refuse | barrier | compact =>
    exact staged_of_le (Nat.zero_le _) [] rfl (.log .none) fun _ h => absurd h List.not_mem_nil
  | collectVote ht | recordSnapshotResponse ht =>
    exact staged_of_le ht [] rfl (.log .none) fun _ h => absurd h List.not_mem_nil
  | heartbeat hl hs =>
    exact staged_of_le (Nat.zero_le _) [] rfl (.log .none)
      fun a ha => (leading_of_appendEntries hs ha).not_writes
  | stand =>
    refine staged_of_le (Nat.zero_le _) [_] rfl .vote fun a ha => ?_
    obtain ⟨peer, -, rfl⟩ := List.mem_map.mp ha
    exact fun h => h
  | append hl hs =>
    exact staged_of_le (Nat.zero_le _) [_] rfl
      (.log (.entries (by unfold lastLogIndex; omega) le_rfl (Or.inr (Or.inl (by simp [hl])))))
      fun a ha => (leading_of_appendEntries hs ha).not_writes
  | win ht hc hg hq hs =>
    exact staged_of_le ht [_] rfl
      (.log (.entries (by unfold lastLogIndex; omega) le_rfl (Or.inr (Or.inl (by simp [hc])))))
      fun a ha => (leading_of_appendEntries hs ha).not_writes
  | grantVote =>
    refine ⟨[_], [_], rfl, .vote, fun a ha => ?_⟩
    rw [List.mem_singleton.mp ha]
    exact fun h => h
  | acceptAppend ht hl hv ha =>
    obtain ⟨log, rest, rfl, hlog, hrest⟩ := logWrite_of_accepted ht hl hv ha hg
    exact ⟨log, rest, rfl, .log hlog, hrest⟩
  | success hs hr =>
    refine staged_of_rest rfl fun a ha => ?_
    rcases mem_recordSuccess hr ha with ⟨i, command, rfl⟩ | ⟨barrier, rfl⟩ <;> exact fun h => h
  | failure hs hb =>
    refine staged_of_rest rfl fun a ha => ?_
    rw [List.mem_singleton.mp ha]
    exact (leading_of_build hb).not_writes
  | @installSnapshot req ht hi hh =>
    refine ⟨[_], [_], rfl, .log (.snapshot rfl hi (termActions_ne_nil_or core _)), fun a ha => ?_⟩
    rw [List.mem_singleton.mp ha]
    exact fun h => h
  | staleSnapshot ht =>
    refine staged_of_le (Nat.le_of_lt ht) [] rfl (.log .none) fun a ha => ?_
    rw [List.mem_singleton.mp ha]
    exact fun h => h
  | denyVote | rejectAppend | conflictAppend | oldSnapshot | haveSnapshot =>
    refine staged_of_rest rfl fun a ha => ?_
    rw [List.mem_singleton.mp ha]
    exact fun h => h
  | ignoreVote | ignoreSnapshotResponse =>
    exact staged_of_rest (List.append_nil _).symm fun _ h => absurd h List.not_mem_nil

/-- A local snapshot whose point is in the log can be taken over. -/
theorem completeSnapshot_of_prepare {metadata : SnapshotMetadata}
    (hp : core.prepareSnapshot = some metadata) :
    ∃ core', core.completeSnapshot metadata = some core' := by
  obtain ⟨hla, hterm⟩ := prepareSnapshot_eq_some.mp hp
  have hle := (logTermAt_eq_some.mp hterm).2.1
  rw [lastLogIndex] at hle
  have hlen : metadata.lastApplied - core.lastIncludedIndex ≤ core.log.length := by omega
  unfold completeSnapshot
  split
  · exact ⟨_, rfl⟩
  · exact ⟨_, if_pos hlen⟩

end RaftCore

/-! ## Steps of one node -/

namespace Cluster

/-- The cluster goes from `c` to `c'` by sound steps of node `n`. -/
structure Advances (cfg : Config) (n : NodeId) (c c' : Cluster) : Prop where
  run : cfg.machine.Run Sound c c'
  others : ∀ m ≠ n, c'.node m = c.node m
  trace : c.trace ⊆ c'.trace

/-- Node `n` has the core of the driver, and its disk is what the storage amounts to. -/
structure Shadows (c : Cluster) (n : NodeId) (d : RaftDriver) : Prop where
  core : c.core n = d.core
  disk : c.disk n = d.storage.image

variable {cfg : Config} {c c' : Cluster} {n : NodeId} {rnd : ℕ} {request : Request}
  {after : RaftCore} {actions : List Action}

namespace Advances

theorem refl (cfg : Config) (n : NodeId) (c : Cluster) : Advances cfg n c c :=
  ⟨.init, fun _ _ => rfl, List.Subset.refl _⟩

theorem trans {c'' : Cluster} (h : Advances cfg n c c') (h' : Advances cfg n c' c'') :
    Advances cfg n c c'' :=
  ⟨h.run.trans h'.run, fun m hm => (h'.others m hm).trans (h.others m hm),
    List.Subset.trans h.trace h'.trace⟩

theorem net (h : Advances cfg n c c') : c.net ⊆ c'.net := by
  intro x hx
  obtain ⟨k, hk, hmem⟩ := List.mem_flatMap.mp hx
  exact List.mem_flatMap.mpr ⟨k, h.trace hk, hmem⟩

theorem call (hn : n ∈ cfg.nodes) (he : c.Enabled n request) (hok : c.Sound (.call n request rnd))
    (hc : (c.core n).call rnd request = some (after, actions)) :
    Advances cfg n c (c.record n request after actions) := by
  refine ⟨Machine.Run.init.step hok ?_, fun m hm => Function.update_of_ne hm _ _,
    List.subset_cons_self _ _⟩
  simp only [Config.machine, step, if_pos (And.intro hn he), hc, bind, Option.bind_some]

theorem setNode {node : Node} {i : Input} (hok : c.Sound i)
    (hs : cfg.machine.step c i = some (c.setNode n node)) : Advances cfg n c (c.setNode n node) :=
  ⟨Machine.Run.init.step hok hs, fun _ hm => Function.update_of_ne hm _ _, List.Subset.refl _⟩

theorem crash (hn : n ∈ cfg.nodes) (rnd : ℕ) :
    Advances cfg n c (c.setNode n ⟨cfg.restart n (c.disk n) rnd, c.disk n⟩) :=
  setNode (i := .crash n rnd) trivial (if_pos hn)

/-- A node stops after the term check of a message. -/
theorem termCheck (hn : n ∈ cfg.nodes) (he : c.Enabled n request) :
    ∃ c', Advances cfg n c c' ∧
      c'.disk n = (c.disk n).replay ((c.core n).termActions request.term) := by
  cases request with
  | message msg =>
    refine ⟨c.setNode n ⟨cfg.restart n ((c.disk n).replay ((c.core n).termActions msg.term)) 0,
      (c.disk n).replay ((c.core n).termActions msg.term)⟩, ?_, disk_setNode_self _⟩
    refine setNode (i := .crashAfterTermCheck n msg 0) trivial ?_
    have hmem : (n, msg) ∈ c.net := he
    simp only [Config.machine, step, if_pos (And.intro hn hmem), RaftCore.checkMsgTerm_eq]
  | _ => exact ⟨c, refl cfg n c, (by simp [Request.term, RaftCore.termActions, Mirror.replay])⟩

/-- A node takes a snapshot of its own. -/
theorem snapshot (hn : n ∈ cfg.nodes) {metadata : SnapshotMetadata} {core : RaftCore}
    (hp : (c.core n).prepareSnapshot = some metadata)
    (hc : (c.core n).completeSnapshot metadata = some core) (data : Bytes) :
    ∃ c', Advances cfg n c c' ∧ c'.core n = core ∧
      c'.disk n = (c.disk n).storeSnapshot metadata data := by
  have hcall : (c.core n).call 0 (.snapshot data) = some (core, []) := by
    rw [RaftCore.call, hp, Option.bind_eq_bind, Option.bind_some, hc]
    rfl
  have he : c.Enabled n (.snapshot data) := trivial
  have hok : c.Sound (.call n (.snapshot data) 0) := trivial
  refine ⟨_, call hn he hok hcall, core_record_self, ?_⟩
  simp only [disk_record_self, Mirror.afterCall, hp]

end Advances

end Cluster

/-! ## Handling, seen from the cluster -/

/-- A restart after these effects finds no entries behind a snapshot it has to clear. -/
def Storage.Recoverable (s : Storage) (effects : List Effect) : Prop :=
  torn effects = true → (s.replay effects).log = some []

theorem Storage.Recoverable.right {s : Storage} {e₁ e₂ : List Effect}
    (h : s.Recoverable (e₁ ++ e₂)) : (s.replay e₁).Recoverable e₂ := by
  intro ht
  rw [← Storage.replay_append]
  exact h (torn_append ht)

theorem Storage.exec_truncateLog {s : Storage} (h : s.log = some []) : s.exec .truncateLog = s := by
  rw [Storage.exec, ← h]

/-- Where a piece of handling stops, the cluster can stop with the same disk, and it can
follow the driver to the end. -/
structure Handled.Simulated (cfg : Config) (n : NodeId) (h : Handled) (d : RaftDriver) : Prop where
  stop : ∀ c : Cluster, c.Shadows n d → ∀ done, d.storage.Recoverable (h.1.take done) →
    ∃ c', Cluster.Advances cfg n c c' ∧ c'.disk n = (d.storage.replay (h.1.take done)).image
  finish : ∀ c : Cluster, c.Shadows n d → ∀ d', h.2 = some d' →
    ∃ c', Cluster.Advances cfg n c c' ∧ c'.Shadows n d'

theorem Handled.Simulated.andThen {cfg : Config} {n : NodeId} {h : Handled} {d : RaftDriver}
    {f : RaftDriver → Handled} (hs : h.Simulated cfg n d)
    (hp : ∀ d', h.2 = some d' → d'.storage = d.storage.replay h.1)
    (hf : ∀ d', h.2 = some d' → (f d').Simulated cfg n d') : (h.andThen f).Simulated cfg n d := by
  cases h2 : h.2 with
  | none =>
    have heq : h.andThen f = h := by simp only [Handled.andThen, h2]
    rw [heq]
    exact hs
  | some d' =>
    have heq : h.andThen f = (h.1 ++ (f d').1, (f d').2) := by simp only [Handled.andThen, h2]
    have hstorage := hp d' h2
    rw [heq]
    refine ⟨fun c hc done hr => ?_, fun c hc d'' hd'' => ?_⟩
    · rcases Nat.le_total done h.1.length with hle | hle
      · rw [List.take_append_of_le_length hle] at hr ⊢
        exact hs.stop c hc done hr
      · rw [List.take_append, List.take_of_length_le hle] at hr ⊢
        obtain ⟨c₁, h₁, hc₁⟩ := hs.finish c hc d' h2
        obtain ⟨c₂, h₂, hd₂⟩ := (hf d' h2).stop c₁ hc₁ _ (hstorage ▸ hr.right)
        exact ⟨c₂, h₁.trans h₂, by rw [hd₂, Storage.replay_append, hstorage]⟩
    · obtain ⟨c₁, h₁, hc₁⟩ := hs.finish c hc d' h2
      obtain ⟨c₂, h₂, hc₂⟩ := (hf d' h2).finish c₁ hc₁ d'' hd''
      exact ⟨c₂, h₁.trans h₂, hc₂⟩

namespace RaftDriver

variable {cfg : Config} {n : NodeId} {app : List AppliedEntry → Bytes} {d d' : RaftDriver}
  {actions : List Action}

/-- What touches neither the storage nor the core needs no step of the cluster. -/
theorem simulated_of_no_op {h : Handled} (hno : ∀ e ∈ h.1, e.op = none)
    (hd : ∀ d', h.2 = some d' → d'.core = d.core ∧ d'.storage = d.storage) :
    h.Simulated cfg n d := by
  refine ⟨fun c hc done _ => ⟨c, .refl cfg n c, ?_⟩, fun c hc d' h2 => ⟨c, .refl cfg n c, ?_⟩⟩
  · rw [Storage.replay, List.filterMap_eq_nil_iff.mpr fun e he => hno e (List.mem_of_mem_take he)]
    exact hc.disk
  · obtain ⟨hcore, hstorage⟩ := hd d' h2
    exact ⟨hcore ▸ hc.core, hstorage ▸ hc.disk⟩

theorem Answers.simulated {h : Handled} (ha : d.Answers h) : h.Simulated cfg n d := by
  cases ha with
  | panic => exact simulated_of_no_op (by simp) (by simp)
  | some he hd =>
    refine simulated_of_no_op (fun e h => (he e h).op) ?_
    rintro _ ⟨⟩
    rw [hd]
    exact ⟨rfl, rfl⟩

/-- The storage after a snapshot at the threshold that covers the whole log. -/
theorem Durable.image_snapshot (h : d.Durable) (hlast : d.core.lastLogIndex = d.core.lastApplied)
    {metadata : SnapshotMetadata} (hp : d.core.prepareSnapshot = some metadata) :
    ((d.storage.exec (.storeSnapshot (d.snapshotAt app metadata))).exec .truncateLog).image =
      d.storage.image.storeSnapshot metadata (app (d.applied ++ [.snapshotRequest])) := by
  obtain ⟨hla, -⟩ := RaftCore.prepareSnapshot_eq_some.mp hp
  have hbase : d.storage.image.lastIncludedIndex = d.core.lastIncludedIndex :=
    congrArg Point.index h.log.2
  have hnil : d.storage.image.log.drop
      (metadata.lastApplied - d.storage.image.lastIncludedIndex) = [] := by
    rw [List.drop_eq_nil_iff, h.log.1, hbase, hla, ← hlast, RaftCore.lastLogIndex]
    omega
  rw [Mirror.storeSnapshot, hnil]
  rfl

/-- How the cluster gets behind a snapshot at the threshold. -/
theorem Durable.advances_snapshot (app : List AppliedEntry → Bytes) (h : d.Durable)
    (hn : n ∈ cfg.nodes)
    (hlast : d.core.lastLogIndex = d.core.lastApplied) {c : Cluster} (hc : c.Shadows n d)
    {metadata : SnapshotMetadata} {core : RaftCore} (hp : d.core.prepareSnapshot = some metadata)
    (hcomp : d.core.completeSnapshot metadata = some core) :
    ∃ c', Cluster.Advances cfg n c c' ∧ c'.core n = core ∧ c'.disk n =
      ((d.storage.exec (.storeSnapshot (d.snapshotAt app metadata))).exec .truncateLog).image := by
  rw [h.image_snapshot hlast hp, ← hc.disk]
  exact Cluster.Advances.snapshot hn (hc.core ▸ hp) (hc.core ▸ hcomp) _

/-- The cluster stops inside a snapshot where the driver does. -/
theorem Durable.stop_snapshot (app : List AppliedEntry → Bytes) (h : d.Durable) (hn : n ∈ cfg.nodes)
    (hlast : d.core.lastLogIndex = d.core.lastApplied) {c : Cluster} (hc : c.Shadows n d)
    {metadata : SnapshotMetadata} (hp : d.core.prepareSnapshot = some metadata)
    {effects : List Effect} (he : effects <+: [.apply .snapshotRequest,
      .store (.storeSnapshot (d.snapshotAt app metadata)), .store .truncateLog])
    (hr : d.storage.Recoverable effects) :
    ∃ c', Cluster.Advances cfg n c c' ∧ c'.disk n = (d.storage.replay effects).image := by
  obtain ⟨core, hcomp⟩ := RaftCore.completeSnapshot_of_prepare hp
  obtain ⟨c', hadv, -, hdisk⟩ := h.advances_snapshot app hn hlast hc hp hcomp
  rw [List.prefix_iff_eq_take] at he
  rcases hk : effects.length with _ | _ | _ | k <;> rw [hk] at he <;> subst he
  · exact ⟨c, .refl cfg n c, hc.disk⟩
  · exact ⟨c, .refl cfg n c, hc.disk⟩
  · -- the log behind the snapshot is empty already
    have hlog : (d.storage.exec (.storeSnapshot (d.snapshotAt app metadata))).log = some [] :=
      hr rfl
    exact ⟨c', hadv, hdisk.trans (congrArg Storage.image (Storage.exec_truncateLog hlog))⟩
  · rw [List.take_of_length_le (Nat.le_add_left 3 k)]
    exact ⟨c', hadv, hdisk⟩

/-- A snapshot at the threshold is a snapshot of the node, if it covers the whole log. -/
theorem simulated_takeSnapshot (hn : n ∈ cfg.nodes) (h : d.Durable)
    (hlast : d.core.lastLogIndex = d.core.lastApplied) :
    (d.takeSnapshot app).Simulated cfg n d := by
  rcases takeSnapshot_cases app d with
    heq | ⟨metadata, hp, heq⟩ | ⟨metadata, core, hp, hcomp, heq⟩ <;>
    rw [heq]
  · exact simulated_of_no_op (by simp [Effect.op]) (by simp)
  · refine ⟨fun c hc done hr => h.stop_snapshot app hn hlast hc hp ?_ hr, fun _ _ _ h => by cases h⟩
    exact (List.take_prefix _ _).trans (List.prefix_append _ [_])
  · refine ⟨fun c hc done hr => h.stop_snapshot app hn hlast hc hp (List.take_prefix _ _) hr,
      fun c hc d' hd' => ?_⟩
    obtain rfl := Option.some.inj hd'
    obtain ⟨c', hadv, hcore, hdisk⟩ := h.advances_snapshot app hn hlast hc hp hcomp
    exact ⟨c', hadv, hcore, hdisk⟩

/-- One action after the writes. -/
theorem simulated_handleAction {a : Action} {actions : List Action} (hn : n ∈ cfg.nodes)
    (h : d.Durable) (hw : ¬a.Writes) (hr : d.Ready (a :: actions)) :
    (d.handleAction app a).Simulated cfg n d := by
  by_cases hq : a.Outward
  · exact (answers_of_outward hq d).simulated
  cases a with
  | sendMessage | sendInstallSnapshot | readBarrierReady => exact absurd trivial hq
  | persistMetadata | persistLogEntries | installSnapshot => exact absurd trivial hw
  | applyToStateMachine index command =>
    have hc : command ≠ [] := hq
    rw [handleAction, applyToStateMachine_cons d index hc]
    rw [Ready, delivered_cons hc] at hr
    obtain ⟨hm, hlast⟩ := hr (Nat.succ_pos _)
    have hno := d.no_op_deliver index command
    refine Handled.Simulated.andThen (simulated_of_no_op hno ?_) ?_ ?_
    · rintro _ ⟨⟩
      exact ⟨rfl, rfl⟩
    · rintro _ ⟨⟩
      rw [Storage.replay, List.filterMap_eq_nil_iff.mpr hno]
      rfl
    rintro _ ⟨⟩
    have hd : (d.deliver index command).Durable := ⟨h.aligned, h.vote, h.log, h.active⟩
    split_ifs with ht
    · refine simulated_takeSnapshot hn hd (hlast ?_)
      change d.snapshotThreshold ≤ d.numEntries + 1 at ht
      omega
    · exact simulated_of_no_op (by simp [run]) (by rintro _ ⟨⟩; exact ⟨rfl, rfl⟩)

/-- The actions after the writes are snapshots of the node, one for each that is taken. -/
theorem simulated_handleActions (hn : n ∈ cfg.nodes) (h : d.Durable)
    (hw : ∀ a ∈ actions, ¬a.Writes) (hr : d.Ready actions) :
    (d.handleActions app actions).Simulated cfg n d := by
  induction actions generalizing d with
  | nil =>
    exact simulated_of_no_op (by simp [handleActions, run]) (by rintro _ ⟨⟩; exact ⟨rfl, rfl⟩)
  | cons a actions ih =>
    have ha := hw a List.mem_cons_self
    have hk : (d.handleAction app a).Keeps d.storage _ := keeps_handleAction h ha hr
    refine (simulated_handleAction hn h ha hr).andThen hk.storage fun d' hd' => ?_
    obtain ⟨hd, hready⟩ := hk.after d' hd'
    exact ih hd (fun b hb => hw b (List.mem_cons_of_mem a hb)) hready

/-! ## The writes of an event -/

/-- The driver behind the writes of an event : everything is durable, and what is left of the
actions can be done. -/
structure Written (d : RaftDriver) (event : Event) (after : RaftCore) (actions rest : List Action)
    (d' : RaftDriver) : Prop where
  durable : d'.Durable
  ready : d'.Ready rest
  core : d'.core = after
  image : d'.storage.image = d.storage.image.afterCall d.core event.request actions

theorem afterCall_event (m : Mirror) (core : RaftCore) (event : Event) (actions : List Action) :
    m.afterCall core event.request actions = m.replay actions := by
  cases event <;> rfl

/-- A vote or a write of the log is stored as a whole. -/
theorem keeps_lastWrite {event : Event} {d₀ d₁ : RaftDriver} {writes : List Action} (h : d.Durable)
    (ha : d.Admits event) (hw : d.core.LastWrite event.request writes) (hs : d₀.storage = d.storage)
    (hd₁ : Wrote d₀ (d.core.termActions event.request.term) d₁) :
    (d₁.handleActions app writes).Keeps d₁.storage (Wrote d₁ writes) := by
  have hT := d.core.metadata_of_termActions event.request.term
  cases hw with
  | vote => exact keeps_metas hd₁.aligned fun a ha => ⟨_, _, List.mem_singleton.mp ha⟩
  | log hlw =>
    refine keeps_logWrite hd₁.aligned ?_ hlw fun hne hnone => ?_
    · rw [hd₁.image, hs]
      refine h.log.keep (fun a ha => ?_) rfl rfl
      obtain ⟨t, v, rfl⟩ := hT a ha
      trivial
    · obtain ⟨hm, hnil⟩ := hd₁.metadata hnone
      rcases h.metadata_of_logWrite ha hlw hne with h | h
      · exact h (hs ▸ hm)
      · exact h hnil

/-- The state of the driver behind the term check and the last write. -/
theorem Durable.written {event : Event} {rnd : ℕ} {after : RaftCore} {writes rest : List Action}
    {d₀ d₁ d₂ : RaftDriver} (h : d.Durable) (ha : d.Admits event) (hth : d.Compacts rnd event)
    (hc : d.core.call rnd event.request =
      some (after, d.core.termActions event.request.term ++ (writes ++ rest)))
    (hw : d.core.LastWrite event.request writes) (hrest : ∀ a ∈ rest, ¬a.Writes)
    (hd₀ : { d with core := after }.Alike d₀)
    (hd₁ : Wrote d₀ (d.core.termActions event.request.term) d₁) (hd₂ : Wrote d₁ writes d₂) :
    d.Written event after (d.core.termActions event.request.term ++ (writes ++ rest)) rest d₂ := by
  have ho := RaftCore.call_outcome hc
  have hwrote := hd₁.trans hd₂
  have hcore : d₂.core = after := by rw [hwrote.core, hd₀]
  have himage : d₂.storage.image = d.storage.image.replay
      (d.core.termActions event.request.term ++ (writes ++ rest)) := by
    have hrep : ∀ m : Mirror, ∀ as, m.replay (as ++ rest) = (m.replay as).replay rest :=
      fun m as => List.foldl_append
    rw [hwrote.image, hd₀, ← List.append_assoc, hrep, replay_of_not_writes hrest]
  have hdur : d₂.Durable := by
    refine ⟨hwrote.aligned, ?_, ?_, ?_⟩
    · rw [himage, hcore]
      exact h.vote.replay ho.voteMove
    · rw [himage, hcore, ← afterCall_event _ d.core]
      exact h.log.afterCall ho ha.grounded
    · rw [hcore]
      exact ho.voteMove.active h.active
  have hzero : delivered (d.core.termActions event.request.term) = 0 ∧ delivered writes = 0 := by
    refine ⟨delivered_eq_zero fun i command hm => ?_, delivered_eq_zero fun i command hm => ?_⟩
    · obtain ⟨t, v, h⟩ := d.core.metadata_of_termActions _ _ hm
      cases h
    · cases hw with
      | vote => simp at hm
      | log hlw => cases hlw <;> simp at hm
  refine ⟨hdur, fun hpos => ⟨fun hnone => ?_, fun hle => ?_⟩, hcore,
    by rw [himage, afterCall_event]⟩
  · -- what is applied is in the log, and without metadata there is none
    obtain ⟨a, har, hap⟩ := List.countP_pos_iff.mp hpos
    cases a with
    | applyToStateMachine i command =>
      cases ho.emits (List.mem_append_right _ (List.mem_append_right _ har)) with
      | leading hb => exact (RaftCore.leading_of_build hb).elim
      | apply _ hentry =>
        have hnil := (hdur.fresh hnone).2.2
        rw [hcore] at hnil
        simp [RaftCore.logEntryAt, hnil] at hentry
    | _ => simp at hap
  · rw [hcore]
    rw [hwrote.threshold, hwrote.numEntries, hd₀] at hle
    dsimp only at hle
    refine hth _ hc ?_ ?_ <;> simp only [delivered_append, hzero] <;> omega

/-! ## What is sent -/

/-- Every message among the effects is what an action puts on the network. -/
def Sends (n : NodeId) (disk : Mirror) (actions : List Action) (e : Effect) : Prop :=
  ∀ target message, e = .send target message →
    ∃ a ∈ actions, outgoing n disk a = some (target, message)

theorem sends_of_ne {disk : Mirror} {e : Effect} (h : ∀ target message, e ≠ .send target message) :
    Sends n disk actions e :=
  fun target message he => absurd he (h target message)

/-- A delivered command sends nothing. -/
theorem meets_applyToStateMachine (d : RaftDriver) (index : ℕ) (command : Bytes) :
    (d.applyToStateMachine app index command).Meets
      (fun e => ∀ target message, e ≠ .send target message) fun d' => d'.id = d.id := by
  have hanswers : ∀ e ∈ d.answers index, ∀ target message, e ≠ .send target message := by
    intro e he target message heq
    obtain ⟨channel, -, rfl⟩ := List.mem_map.mp he
    cases heq
  by_cases hc : command = []
  · subst hc
    rw [applyToStateMachine_nil]
    exact ⟨hanswers, by rintro _ ⟨⟩; rfl⟩
  rw [applyToStateMachine_cons d index hc]
  refine Handled.Meets.andThen (P := fun d' => d'.id = d.id) ⟨?_, ?_⟩ fun d' hd' => ?_
  · intro e he
    rcases List.mem_append.mp he with he | he
    · exact hanswers e he
    · rw [List.mem_singleton.mp he]
      exact nofun
  · rintro _ ⟨⟩
    rfl
  split_ifs
  · rcases takeSnapshot_cases app d' with heq | ⟨metadata, -, heq⟩ | ⟨metadata, core, -, -, heq⟩ <;>
      rw [heq] <;> refine ⟨by simp, ?_⟩ <;> rintro _ ⟨⟩
    exact hd'
  · exact ⟨by simp [run], by rintro _ ⟨⟩; exact hd'⟩

/-- The messages of a list of actions that sends no snapshot, or sends the stored one and leaves
it alone. -/
theorem meets_sends {disk : Mirror} (hid : d.id = n)
    (hdisk : (∀ a ∈ actions, ¬a.Reaches) → disk.snapshot = d.storage.retrieveSnapshotBytes)
    (hsnap : ∀ target t i l, .sendInstallSnapshot target t i l ∈ actions →
      ∀ a ∈ actions, ¬a.Reaches) :
    (d.handleActions app actions).Meets (Sends n disk actions) fun d' => d'.id = n := by
  refine (meets_actions (P := fun d => d.id = n ∧
    ((∀ a ∈ actions, ¬a.Reaches) → disk.snapshot = d.storage.retrieveSnapshotBytes))
    ⟨hid, hdisk⟩ ?_).mono (fun _ h => h) fun _ h => h.1
  rintro d ⟨hid, hdisk⟩ a ha
  cases a with
  | sendMessage target message =>
    refine ⟨fun e he target' message' heq => ⟨_, ha, ?_⟩, by rintro _ ⟨⟩; exact ⟨hid, hdisk⟩⟩
    rw [List.mem_singleton.mp he] at heq
    cases heq
    rfl
  | persistMetadata | persistLogEntries =>
    refine ⟨fun e he => sends_of_ne ?_, by rintro _ ⟨⟩; exact ⟨hid, hdisk⟩⟩
    rw [List.mem_singleton.mp he]
    exact nofun
  | installSnapshot i t data =>
    refine ⟨fun e he => sends_of_ne ?_, ?_⟩
    · rintro target message rfl
      simp [handleAction, run] at he
    · rintro _ ⟨⟩
      exact ⟨hid, fun h => absurd trivial (h _ ha)⟩
  | sendInstallSnapshot target t i l =>
    have hstored := hdisk (hsnap target t i l ha)
    unfold handleAction
    cases hr : d.storage.retrieveSnapshotBytes with
    | none => exact .panic_nil
    | some data =>
      refine ⟨fun e he target' message' heq => ⟨_, ha, ?_⟩, by rintro _ ⟨⟩; exact ⟨hid, hdisk⟩⟩
      rw [List.mem_singleton.mp he] at heq
      cases heq
      rw [outgoing, hstored, hr, hid]
      rfl
  | applyToStateMachine index command =>
    refine (meets_applyToStateMachine d index command).mono (fun e he => sends_of_ne he) ?_
    exact fun d' hd' => ⟨hd'.trans hid, fun h => absurd trivial (h _ ha)⟩
  | readBarrierReady id =>
    refine ⟨fun e he => sends_of_ne ?_, ?_⟩
    · rintro target message rfl
      simp [handleAction, run] at he
    · rintro _ ⟨⟩
      rw [foldl_perform_respond]
      exact ⟨hid, hdisk⟩

theorem mem_sent {effects : List Effect} {target : NodeId} {message : Message} :
    (target, message) ∈ Fleet.sent effects ↔ .send target message ∈ effects := by
  rw [Fleet.sent, List.mem_filterMap]
  constructor
  · rintro ⟨e, he, h⟩
    cases e with
    | send =>
      cases h
      exact he
    | _ => cases h
  · exact fun h => ⟨_, h, rfl⟩

/-- Whoever is told that nothing came of a request is a client. -/
theorem not_send_conclude (d : RaftDriver) (event : Event) (d' : RaftDriver) :
    ∀ e ∈ (d.conclude event d').1, ∀ target message, e ≠ .send target message := by
  rintro e he target message rfl
  cases event with
  | tick => cases he
  | propose | read =>
    simp only [conclude, run] at he
    split_ifs at he <;> simp at he
  | message =>
    simp only [conclude, drainPending, run] at he
    split_ifs at he
    · obtain ⟨channel, -, h⟩ := List.mem_map.mp he
      cases h
    · cases he

/-! ## An event as a whole -/

theorem sent_append (e₁ e₂ : List Effect) :
    Fleet.sent (e₁ ++ e₂) = Fleet.sent e₁ ++ Fleet.sent e₂ :=
  List.filterMap_append

theorem lastWrite_termActions (core : RaftCore) (request : Request) (t : ℕ) :
    core.LastWrite request (core.termActions t) := by
  unfold RaftCore.termActions
  split_ifs
  · exact .vote
  · exact .log .none

/-- Nothing is sent while the writes are done. -/
theorem sent_lastWrite {core : RaftCore} {request : Request} {writes : List Action}
    (hw : core.LastWrite request writes) (d : RaftDriver) :
    Fleet.sent (d.handleActions app writes).1 = [] := by
  cases hw with
  | vote => rfl
  | log hlw => cases hlw <;> rfl

/-- A write that is interrupted leaves the storage as it was or as it is to be. -/
theorem stop_lastWrite {core : RaftCore} {request : Request} {writes : List Action}
    (hw : core.LastWrite request writes) (d : RaftDriver) (done : ℕ)
    (hr : d.storage.Recoverable ((d.handleActions app writes).1.take done)) :
    d.storage.replay ((d.handleActions app writes).1.take done) = d.storage ∨
      d.storage.replay ((d.handleActions app writes).1.take done) =
        d.storage.replay (d.handleActions app writes).1 := by
  have single : ∀ op : StorageOp,
      d.storage.replay ([Effect.store op].take done) = d.storage ∨
        d.storage.replay ([Effect.store op].take done) = d.storage.replay [.store op] := by
    intro op
    cases done with
    | zero => exact Or.inl rfl
    | succ k => exact Or.inr (by simp)
  cases hw with
  | vote => exact single _
  | log hlw =>
    cases hlw with
    | none => exact Or.inl (by simp [handleActions, run, Storage.replay])
    | entries => exact single _
    | snapshot =>
      rcases done with _ | _ | _ | k
      · exact Or.inl rfl
      · exact Or.inr (Storage.exec_truncateLog (hr rfl)).symm
      · exact Or.inr (Storage.exec_truncateLog (hr rfl)).symm
      · exact Or.inr (congrArg _ (List.take_of_length_le (Nat.le_add_left 3 k)))

/-- Writes leave the id of the driver alone. -/
theorem id_of_writes {writes : List Action} (hw : ∀ a ∈ writes, a.Writes)
    (hd' : (d.handleActions app writes).2 = some d') : d'.id = d.id := by
  have hm : (d.handleActions app writes).Meets (Sends d.id d.storage.image writes)
      fun d' => d'.id = d.id :=
    meets_sends rfl (fun _ => rfl) fun target t i l hmem => (hw _ hmem).elim
  exact hm.after d' hd'

/-- Wherever the effects stop, the cluster can stop with the same disk and with everything
that was sent in flight. -/
def Survives (cfg : Config) (n : NodeId) (c : Cluster) (s : Storage) (effects : List Effect) :
    Prop :=
  ∀ done, s.Recoverable (effects.take done) → ∃ c', Cluster.Advances cfg n c c' ∧
    c'.disk n = (s.replay (effects.take done)).image ∧ Fleet.sent (effects.take done) ⊆ c'.net

theorem Survives.append {c : Cluster} {s : Storage} {e₁ e₂ : List Effect}
    (h₁ : Survives cfg n c s e₁) (hsent : Fleet.sent e₁ = [])
    (h₂ : Survives cfg n c (s.replay e₁) e₂) : Survives cfg n c s (e₁ ++ e₂) := by
  intro done hr
  rcases Nat.le_total done e₁.length with hle | hle
  · rw [List.take_append_of_le_length hle] at hr ⊢
    exact h₁ done hr
  · rw [List.take_append, List.take_of_length_le hle] at hr ⊢
    obtain ⟨c', hadv, hdisk, hnet⟩ := h₂ _ hr.right
    refine ⟨c', hadv, by rw [hdisk, Storage.replay_append], ?_⟩
    rw [sent_append, hsent]
    exact hnet

/-- A write survives if the cluster can stop in front of it and behind it. -/
theorem survives_lastWrite {core : RaftCore} {request : Request} {writes : List Action}
    {c : Cluster} (hw : core.LastWrite request writes)
    (hbefore : ∃ c', Cluster.Advances cfg n c c' ∧ c'.disk n = d.storage.image)
    (hafter : ∃ c', Cluster.Advances cfg n c c' ∧
      c'.disk n = (d.storage.replay (d.handleActions app writes).1).image) :
    Survives cfg n c d.storage (d.handleActions app writes).1 := by
  intro done hr
  have hsent : Fleet.sent ((d.handleActions app writes).1.take done) = [] := by
    have hall : Fleet.sent (d.handleActions app writes).1 = [] := sent_lastWrite hw d
    rw [← List.take_append_drop done (d.handleActions app writes).1, sent_append] at hall
    exact (List.append_eq_nil_iff.mp hall).1
  rw [hsent]
  rcases stop_lastWrite hw d done hr with heq | heq <;> rw [heq]
  · obtain ⟨c', hadv, hdisk⟩ := hbefore
    exact ⟨c', hadv, hdisk, List.nil_subset _⟩
  · obtain ⟨c', hadv, hdisk⟩ := hafter
    exact ⟨c', hadv, hdisk, List.nil_subset _⟩

theorem writes_of_termActions (core : RaftCore) (t : ℕ) : ∀ a ∈ core.termActions t, a.Writes := by
  intro a ha
  obtain ⟨t, v, rfl⟩ := core.metadata_of_termActions _ a ha
  trivial

theorem writes_of_lastWrite {core : RaftCore} {request : Request} {writes : List Action}
    (hw : core.LastWrite request writes) : ∀ a ∈ writes, a.Writes := by
  cases hw with
  | vote => simp [Action.Writes]
  | log hlw => cases hlw <;> simp [Action.Writes]

/-- Writes do not panic. -/
theorem some_of_writes (app : List AppliedEntry → Bytes) {writes : List Action}
    (hw : ∀ a ∈ writes, a.Writes) (d : RaftDriver) :
    ∃ d', (d.handleActions app writes).2 = some d' := by
  induction writes generalizing d with
  | nil => exact ⟨d, rfl⟩
  | cons a writes ih =>
    have key : ∀ effects, d.handleAction app a = d.run effects →
        ∃ d', (d.handleActions app (a :: writes)).2 = some d' := by
      intro effects heq
      obtain ⟨d', hd'⟩ :=
        ih (fun b hb => hw b (List.mem_cons_of_mem a hb)) (effects.foldl perform d)
      refine ⟨d', ?_⟩
      rw [handleActions, heq]
      exact hd'
    have ha := hw a List.mem_cons_self
    cases a with
    | persistMetadata | persistLogEntries | installSnapshot => exact key _ rfl
    | _ => exact ha.elim

section event

variable {c : Cluster} {event : Event} {rnd : ℕ} {after : RaftCore} {rest : List Action}
  (hn : n ∈ cfg.nodes) (hc : c.Shadows n d)

/-- Behind the writes of an event the cluster has made the call. -/
theorem Written.shadows {d₂ : RaftDriver} (hw : d.Written event after actions rest d₂)
    (hc : c.Shadows n d) : (c.record n event.request after actions).Shadows n d₂ := by
  refine ⟨?_, ?_⟩
  · rw [Cluster.core_record_self, hw.core]
  · rw [Cluster.disk_record_self, hc.core, hc.disk, hw.image]

/-- What is left of an event then is snapshots, messages of the call and answers. -/
theorem Written.remainder (app : List AppliedEntry → Bytes) {d₂ : RaftDriver}
    (hw : d.Written event after actions rest d₂) (hn : n ∈ cfg.nodes) (hc : c.Shadows n d)
    (hid : d₂.id = n)
    (hcall : d.core.call rnd event.request = some (after, actions)) (hsub : rest ⊆ actions)
    (hrest : ∀ a ∈ rest, ¬a.Writes) :
    ((d₂.handleActions app rest).andThen (d.conclude event)).Simulated cfg n d₂ ∧
      Fleet.sent ((d₂.handleActions app rest).andThen (d.conclude event)).1 ⊆
        (c.record n event.request after actions).net ∧
      ∀ d', ((d₂.handleActions app rest).andThen (d.conclude event)).2 = some d' → d'.id = n := by
  have ho := RaftCore.call_outcome hcall
  have hk : (d₂.handleActions app rest).Keeps d₂.storage Durable :=
    keeps_handleActions hw.durable hrest hw.ready
  have hm : (d₂.handleActions app rest).Meets (Sends n d₂.storage.image rest) fun d' => d'.id = n :=
    meets_sends hid (fun _ => rfl) fun target t i l ha a har =>
      ho.not_reaches_of_snapshot (hsub ha) a (hsub har)
  have hm' := hm.andThen (Q := fun d' => d'.id = n) fun d' hd' =>
    ⟨fun e he => sends_of_ne (not_send_conclude d event d' e he), fun d'' hd'' => by
      rw [(answers_conclude d event d').alike hd'']
      exact hd'⟩
  refine ⟨(simulated_handleActions hn hw.durable hrest hw.ready).andThen hk.storage
    fun d' _ => (answers_conclude d event d').simulated, ?_, hm'.after⟩
  rintro ⟨target, message⟩ hmem
  rw [mem_sent] at hmem
  obtain ⟨a, har, hout⟩ := hm'.effects _ hmem target message rfl
  refine List.mem_append_left _ (List.mem_filterMap.mpr ⟨a, hsub har, ?_⟩)
  rw [hc.core, hc.disk, ← hw.image]
  exact hout

/-- The course of an event : the term check takes the driver from `d₀` to `d₁`, the last write
to `d₂`, and the rest of the actions follows. -/
structure Course (app : List AppliedEntry → Bytes) (d : RaftDriver) (rnd : ℕ) (event : Event)
    (after : RaftCore) (actions writes rest : List Action) (d₀ d₁ d₂ : RaftDriver) : Prop where
  call : d.core.call rnd event.request = some (after, actions)
  last : d.core.LastWrite event.request writes
  quiet : ∀ a ∈ rest, ¬a.Writes
  sub : rest ⊆ actions
  start : d₀.storage = d.storage
  checked : (d₀.handleActions app (d.core.termActions event.request.term)).2 = some d₁
  checkedStorage : d₁.storage =
    d.storage.replay (d₀.handleActions app (d.core.termActions event.request.term)).1
  checkedImage : d₁.storage.image = d.storage.image.replay (d.core.termActions event.request.term)
  wrote : (d₁.handleActions app writes).2 = some d₂
  wroteStorage : d₂.storage = d₁.storage.replay (d₁.handleActions app writes).1
  written : d.Written event after actions rest d₂
  id : d₂.id = d.id
  handle : d.handleEvent app rnd event =
    ((d₀.handleActions app (d.core.termActions event.request.term)).1 ++
        ((d₁.handleActions app writes).1 ++
          ((d₂.handleActions app rest).andThen (d.conclude event)).1),
      ((d₂.handleActions app rest).andThen (d.conclude event)).2)

/-- Every event that returns from its call takes this course. -/
theorem exists_course (app : List AppliedEntry → Bytes) (h : d.Durable) (ha : d.Admits event)
    (hth : d.Compacts rnd event) (hcall : d.core.call rnd event.request = some (after, actions)) :
    ∃ writes rest d₀ d₁ d₂, d.Course app rnd event after actions writes rest d₀ d₁ d₂ := by
  obtain ⟨writes, rest, rfl, hw, hrest⟩ := (RaftCore.call_outcome hcall).stages ha.grounded
  have hd₀ := d.alike_intake event after (d.core.termActions event.request.term ++ (writes ++ rest))
  have hhandle : d.handleEvent app rnd event = _ := handleEvent_of_call hcall
  generalize d.intake event after (d.core.termActions event.request.term ++ (writes ++ rest)) = d₀
    at hd₀ hhandle
  have hs₀ : d₀.storage = d.storage := by rw [hd₀]
  have hT := writes_of_termActions d.core event.request.term
  have hW := writes_of_lastWrite hw
  obtain ⟨d₁, h₁⟩ := some_of_writes app hT d₀
  obtain ⟨d₂, h₂⟩ := some_of_writes app hW d₁
  have hk₁ : (d₀.handleActions app (d.core.termActions event.request.term)).Keeps d₀.storage
      (Wrote d₀ (d.core.termActions event.request.term)) :=
    keeps_metas (hs₀ ▸ h.aligned) (d.core.metadata_of_termActions _)
  have hw₁ := hk₁.after d₁ h₁
  have hk₂ : (d₁.handleActions app writes).Keeps d₁.storage (Wrote d₁ writes) :=
    keeps_lastWrite h ha hw hs₀ hw₁
  refine ⟨writes, rest, d₀, d₁, d₂, hcall, hw, hrest, ?_, hs₀, h₁, hs₀ ▸ hk₁.storage d₁ h₁, ?_, h₂,
    hk₂.storage d₂ h₂, h.written ha hth hcall hw hrest hd₀ hw₁ (hk₂.after d₂ h₂), ?_, ?_⟩
  · exact fun a har => List.mem_append_right _ (List.mem_append_right _ har)
  · rw [hw₁.image, hs₀]
  · rw [id_of_writes hW h₂, id_of_writes hT h₁, hd₀]
  · simp only [hhandle, handleActions_append, Handled.andThen_assoc]
    rw [Handled.andThen]
    simp only [h₁]
    rw [Handled.andThen]
    simp only [h₂]

variable (h : d.Durable) (hid : d.id = n) (he : c.Enabled n event.request)
  (hok : c.Sound (.call n event.request rnd)) (ha : d.Admits event) (hth : d.Compacts rnd event)

include hn h hid hc he hok ha hth

/-- The driver comes to the end of an event, and so does the cluster. -/
theorem follows_handleEvent {d' : RaftDriver} (hd' : (d.handleEvent app rnd event).2 = some d') :
    ∃ c', Cluster.Advances cfg n c c' ∧ c'.Shadows n d' ∧ d'.id = n ∧
      Fleet.sent (d.handleEvent app rnd event).1 ⊆ c'.net ∧
      ∀ after actions, d.core.call rnd event.request = some (after, actions) →
        c.newCall n event.request after actions ∈ c'.trace := by
  cases hcall : d.core.call rnd event.request with
  | none =>
    rw [handleEvent_of_panic hcall] at hd'
    cases hd'
  | some r =>
  obtain ⟨after, actions⟩ := r
  obtain ⟨writes, rest, d₀, d₁, d₂, k⟩ := exists_course app h ha hth hcall
  obtain ⟨hsim, hsent, hid'⟩ := k.written.remainder app hn hc (k.id.trans hid) hcall k.sub k.quiet
  have hadv := Cluster.Advances.call hn he hok (hc.core ▸ hcall)
  rw [k.handle] at hd' ⊢
  obtain ⟨c', hadv', hc'⟩ := hsim.finish _ (k.written.shadows hc) d' hd'
  refine ⟨c', hadv.trans hadv', hc', hid' d' hd', List.Subset.trans ?_ hadv'.net, ?_⟩
  · rw [sent_append, sent_append, sent_lastWrite (lastWrite_termActions _ event.request _) d₀,
      sent_lastWrite k.last d₁]
    exact hsent
  · rintro _ _ ⟨⟩
    exact hadv'.trace List.mem_cons_self

/-- The driver stops inside an event, and so can the cluster. -/
theorem survives_handleEvent : Survives cfg n c d.storage (d.handleEvent app rnd event).1 := by
  cases hcall : d.core.call rnd event.request with
  | none =>
    rw [handleEvent_of_panic hcall]
    exact fun done _ =>
      ⟨c, .refl cfg n c, by simpa [Storage.replay] using hc.disk, by simp [Fleet.sent]⟩
  | some r =>
  obtain ⟨after, actions⟩ := r
  obtain ⟨writes, rest, d₀, d₁, d₂, k⟩ := exists_course app h ha hth hcall
  obtain ⟨hsim, hsent, -⟩ := k.written.remainder app hn hc (k.id.trans hid) hcall k.sub k.quiet
  have hadv := Cluster.Advances.call hn he hok (hc.core ▸ hcall)
  have hshadows := k.written.shadows hc
  -- in front of the term check, behind it, behind the last write
  have hchecked : ∃ c', Cluster.Advances cfg n c c' ∧ c'.disk n = d₁.storage.image := by
    obtain ⟨c', hadv', hdisk⟩ := Cluster.Advances.termCheck hn he
    exact ⟨c', hadv', by rw [hdisk, hc.core, hc.disk, k.checkedImage]⟩
  rw [k.handle, ← k.start]
  have hT := lastWrite_termActions d.core event.request event.request.term
  refine Survives.append (survives_lastWrite hT ⟨c, .refl cfg n c, by rw [k.start]; exact hc.disk⟩
    (by rw [k.start, ← k.checkedStorage]; exact hchecked)) (sent_lastWrite hT d₀) ?_
  rw [k.start, ← k.checkedStorage]
  refine Survives.append (survives_lastWrite k.last hchecked ⟨_, hadv, ?_⟩)
    (sent_lastWrite k.last d₁) ?_
  · rw [← k.wroteStorage]
    exact hshadows.disk
  · rw [← k.wroteStorage]
    intro done hr
    obtain ⟨c', hadv', hdisk⟩ := hsim.stop _ hshadows done hr
    refine ⟨c', hadv.trans hadv', hdisk, List.Subset.trans ?_ (List.Subset.trans hsent hadv'.net)⟩
    rintro ⟨target, message⟩ hmem
    rw [mem_sent] at hmem ⊢
    exact List.mem_of_mem_take hmem

end event

end RaftDriver

end FerrisFerry
