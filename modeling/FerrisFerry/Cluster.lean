import FerrisFerry.Core
import FerrisFerry.Machine

/-!
# Clusters of cores

Any number of `RaftCore`s over one node list, with the persist actions executed and the
messages in flight. A step is one call of a core (`Request`) or a crash. The actions a
call returns are executed in order : persist actions move the node's durable state
(`Mirror`), messages join the network. A message once sent can be delivered at any later
time, any number of times, or never.

Every call is recorded in the trace, newest first, with the core before and after it, its
actions and the messages it sent. The network is what the trace has sent, so the trace is
the whole history of a run.

A crash falls between two calls (`Input.crash`) or inside the handling of a message, after
the `PersistMetadata` of the term check and before the next action
(`Input.crashAfterTermCheck`). Every other point of an action list is as if the crash
came before or after the whole call, with some messages lost.
-/

namespace FerrisFerry

/-! ## Durable state -/

/-- What the executed persist actions of a node amount to. -/
structure Mirror where
  term : ℕ
  votedFor : Option NodeId
  lastIncludedIndex : ℕ
  lastIncludedTerm : ℕ
  /-- The bytes of the stored snapshot. -/
  snapshot : Option Bytes
  /-- The entries above the snapshot. -/
  log : List LogEntry

namespace Mirror

def empty : Mirror := ⟨0, none, 0, 0, none, []⟩

/-- Execute one action. Only persist actions and snapshot installs touch durable state. -/
def apply (m : Mirror) : Action → Mirror
  | .persistMetadata term votedFor => { m with term := term, votedFor := votedFor }
  | .persistLogEntries startIndex entries =>
    { m with log := m.log.take (startIndex - m.lastIncludedIndex - 1) ++ entries }
  | .installSnapshot lastIncludedIndex lastIncludedTerm data =>
    { m with
      lastIncludedIndex := lastIncludedIndex
      lastIncludedTerm := lastIncludedTerm
      snapshot := some data
      log := [] }
  | _ => m

def replay (m : Mirror) (actions : List Action) : Mirror :=
  actions.foldl apply m

/-- Store a local snapshot and drop the entries it covers. -/
def storeSnapshot (m : Mirror) (metadata : SnapshotMetadata) (data : Bytes) : Mirror :=
  { m with
    lastIncludedIndex := metadata.lastApplied
    lastIncludedTerm := metadata.lastAppliedTerm
    snapshot := some data
    log := m.log.drop (metadata.lastApplied - m.lastIncludedIndex) }

end Mirror

/-! ## Calls -/

/-- One call of a core by its event loop. -/
inductive Request where
  | tick
  | propose (command : Bytes)
  | readBarrier
  /-- `prepare_snapshot` then `complete_snapshot`, with the application's bytes. -/
  | snapshot (data : Bytes)
  | message (msg : Message)
deriving DecidableEq

def RaftCore.call (core : RaftCore) (rnd : ℕ) : Request → Option (RaftCore × List Action)
  | .tick => core.tick rnd
  | .propose command => do
    let (core, actions) ← core.propose command
    some (core, actions.getD [])
  | .readBarrier => some (core.requestReadBarrier.1, [])
  | .snapshot _ => do
    let metadata ← core.prepareSnapshot
    let core ← core.completeSnapshot metadata
    some (core, [])
  | .message msg => core.handleMessage msg rnd

/-- The durable state after the actions of a call. -/
def Mirror.afterCall (m : Mirror) (before : RaftCore) (request : Request)
    (actions : List Action) : Mirror :=
  match request, before.prepareSnapshot with
  | .snapshot data, some metadata => m.storeSnapshot metadata data
  | _, _ => m.replay actions

/-- The message an action puts on the network. A `SendInstallSnapshot` carries the bytes
of the sender's stored snapshot; without one it sends nothing. -/
def outgoing (id : NodeId) (disk : Mirror) : Action → Option (NodeId × Message)
  | .sendMessage target message => some (target, message)
  | .sendInstallSnapshot target term lastIncludedIndex lastIncludedTerm =>
    disk.snapshot.map fun data => (target, .installSnapshot
      { term := term
        leaderId := id
        lastIncludedIndex := lastIncludedIndex
        lastIncludedTerm := lastIncludedTerm
        data := data })
  | _ => none

/-- A recorded call. -/
structure Call where
  node : NodeId
  request : Request
  before : RaftCore
  after : RaftCore
  actions : List Action
  sent : List (NodeId × Message)

/-! ## The cluster -/

/-- What every node is started with, at first and after each crash. -/
structure Config where
  nodes : List NodeId
  heartbeatInterval : NodeId → Option ℕ
  electionRange : NodeId → ℕ × ℕ
  /-- The first election timeout each node draws. -/
  rnd : NodeId → ℕ

structure Node where
  core : RaftCore
  disk : Mirror

structure Cluster where
  node : NodeId → Node
  /-- The calls so far, newest first. -/
  trace : List Call

namespace Cluster

/-- Everything ever sent, with its addressee. -/
def net (c : Cluster) : List (NodeId × Message) :=
  c.trace.flatMap Call.sent

def core (c : Cluster) (n : NodeId) : RaftCore :=
  (c.node n).core

def disk (c : Cluster) (n : NodeId) : Mirror :=
  (c.node n).disk

def setNode (c : Cluster) (n : NodeId) (node : Node) : Cluster :=
  { c with node := Function.update c.node n node }

end Cluster

namespace Config

variable (cfg : Config)

/-- The core `RaftCore::new` makes on first boot. -/
def boot (n : NodeId) : RaftCore :=
  RaftCore.new n cfg.nodes (cfg.heartbeatInterval n) (cfg.electionRange n) (cfg.rnd n)

/-- The core rebuilt from durable state. -/
def restart (n : NodeId) (disk : Mirror) (rnd : ℕ) : RaftCore :=
  if disk.lastIncludedIndex = 0 then
    RaftCore.restore n cfg.nodes (cfg.heartbeatInterval n) (cfg.electionRange n) rnd
      disk.term disk.votedFor disk.log
  else
    RaftCore.restoreWithSnapshot n cfg.nodes (cfg.heartbeatInterval n) (cfg.electionRange n) rnd
      disk.term disk.votedFor disk.log disk.lastIncludedIndex disk.lastIncludedTerm

def init : Cluster where
  node n := ⟨cfg.boot n, Mirror.empty⟩
  trace := []

/-- Three nodes whose timers fire at every tick, for the concrete runs. -/
def trio : Config where
  nodes := [1, 2, 3]
  heartbeatInterval _ := some 1
  electionRange _ := (1, 2)
  rnd _ := 1

section restart

variable (n : NodeId) (disk : Mirror) (rnd : ℕ)

@[simp] theorem restart_id : (cfg.restart n disk rnd).id = n := by
  unfold restart
  split_ifs <;> rfl

@[simp] theorem restart_peers :
    (cfg.restart n disk rnd).peers = cfg.nodes.filter fun x => x ≠ n := by
  unfold restart
  split_ifs <;> rfl

@[simp] theorem restart_state : (cfg.restart n disk rnd).state = .follower := by
  unfold restart
  split_ifs <;> rfl

@[simp] theorem restart_currentTerm : (cfg.restart n disk rnd).currentTerm = disk.term := by
  unfold restart
  split_ifs <;> rfl

@[simp] theorem restart_votedFor : (cfg.restart n disk rnd).votedFor = disk.votedFor := by
  unfold restart
  split_ifs <;> rfl

@[simp] theorem restart_log : (cfg.restart n disk rnd).log = disk.log := by
  unfold restart
  split_ifs <;> rfl

@[simp] theorem restart_lastIncludedIndex :
    (cfg.restart n disk rnd).lastIncludedIndex = disk.lastIncludedIndex := by
  unfold restart
  split_ifs with h
  · exact h.symm
  · rfl

@[simp] theorem restart_commitIndex :
    (cfg.restart n disk rnd).commitIndex = disk.lastIncludedIndex := by
  unfold restart
  split_ifs with h
  · exact h.symm
  · rfl

@[simp] theorem restart_lastApplied :
    (cfg.restart n disk rnd).lastApplied = disk.lastIncludedIndex := by
  unfold restart
  split_ifs with h
  · exact h.symm
  · rfl

@[simp] theorem restart_matchIndex : (cfg.restart n disk rnd).matchIndex = ∅ := by
  unfold restart
  split_ifs <;> rfl

@[simp] theorem restart_readBarriers : (cfg.restart n disk rnd).readBarriers = ∅ := by
  unfold restart
  split_ifs <;> rfl

end restart

end Config

/-- A step of the cluster. -/
inductive Input where
  | call (n : NodeId) (request : Request) (rnd : ℕ)
  | crash (n : NodeId) (rnd : ℕ)
  | crashAfterTermCheck (n : NodeId) (msg : Message) (rnd : ℕ)
deriving DecidableEq

/-- The step is a crash of node `n`. -/
def Input.Crashes (n : NodeId) : Input → Prop
  | .call _ _ _ => False
  | .crash m _ | .crashAfterTermCheck m _ _ => m = n

namespace Cluster

/-- A request can be made : a message has to be on the network. -/
def Enabled (c : Cluster) (n : NodeId) : Request → Prop
  | .message msg => (n, msg) ∈ c.net
  | _ => True

instance (c : Cluster) (n : NodeId) : (r : Request) → Decidable (c.Enabled n r)
  | .message msg => inferInstanceAs (Decidable ((n, msg) ∈ c.net))
  | .tick | .propose _ | .readBarrier | .snapshot _ => inferInstanceAs (Decidable True)

/-- Perform a call that returned. -/
def record (c : Cluster) (n : NodeId) (request : Request) (after : RaftCore)
    (actions : List Action) : Cluster :=
  let disk := (c.disk n).afterCall (c.core n) request actions
  { c.setNode n ⟨after, disk⟩ with
    trace :=
      ⟨n, request, c.core n, after, actions, actions.filterMap (outgoing n disk)⟩ :: c.trace }

def step (cfg : Config) (c : Cluster) : Input → Option Cluster
  | .call n request rnd =>
    if n ∈ cfg.nodes ∧ c.Enabled n request then do
      let (after, actions) ← (c.core n).call rnd request
      some (c.record n request after actions)
    else none
  | .crash n rnd =>
    if n ∈ cfg.nodes then
      some (c.setNode n ⟨cfg.restart n (c.disk n) rnd, c.disk n⟩)
    else none
  | .crashAfterTermCheck n msg rnd =>
    if n ∈ cfg.nodes ∧ (n, msg) ∈ c.net then
      let disk := (c.disk n).replay ((c.core n).checkMsgTerm msg.term rnd).2
      some (c.setNode n ⟨cfg.restart n disk rnd, disk⟩)
    else none

end Cluster

/-- The cluster as a machine. -/
def Config.machine (cfg : Config) : Machine Cluster Input :=
  ⟨Cluster.step cfg⟩

/-! ## One step -/

namespace Cluster

variable {c : Cluster} {n m : NodeId} {request : Request} {after : RaftCore}
  {actions : List Action}

@[simp] theorem core_setNode_self (node : Node) : (c.setNode n node).core n = node.core := by
  simp [core, setNode]

@[simp] theorem disk_setNode_self (node : Node) : (c.setNode n node).disk n = node.disk := by
  simp [disk, setNode]

theorem core_setNode_of_ne (node : Node) (h : m ≠ n) : (c.setNode n node).core m = c.core m := by
  simp [core, setNode, h]

theorem disk_setNode_of_ne (node : Node) (h : m ≠ n) : (c.setNode n node).disk m = c.disk m := by
  simp [disk, setNode, h]

@[simp] theorem net_setNode (node : Node) : (c.setNode n node).net = c.net := rfl

@[simp] theorem trace_setNode (node : Node) : (c.setNode n node).trace = c.trace := rfl

@[simp] theorem core_record_self : (c.record n request after actions).core n = after := by
  simp [core, record, setNode]

@[simp] theorem disk_record_self : (c.record n request after actions).disk n =
    (c.disk n).afterCall (c.core n) request actions := by
  simp [disk, record, setNode]

theorem core_record_of_ne (h : m ≠ n) : (c.record n request after actions).core m = c.core m := by
  simp [core, record, setNode, h]

theorem disk_record_of_ne (h : m ≠ n) : (c.record n request after actions).disk m = c.disk m := by
  simp [disk, record, setNode, h]

/-- A fact about every core after a step of `n` : a new one about `n`, the old ones about the
other nodes. -/
theorem forall_core {c' : Cluster} (hothers : ∀ m ≠ n, c'.core m = c.core m)
    {P : NodeId → RaftCore → Prop} (hself : P n (c'.core n)) (hother : ∀ m ≠ n, P m (c.core m))
    (m : NodeId) : P m (c'.core m) := by
  by_cases hm : m = n
  · subst hm
    exact hself
  · rw [hothers m hm]
    exact hother m hm

/-- The same about every node's disk and core. -/
theorem forall_node {c' : Cluster} (hothers : ∀ m ≠ n, c'.core m = c.core m)
    (hdisks : ∀ m ≠ n, c'.disk m = c.disk m) {P : Mirror → RaftCore → Prop}
    (hself : P (c'.disk n) (c'.core n)) (hother : ∀ m, P (c.disk m) (c.core m)) (m : NodeId) :
    P (c'.disk m) (c'.core m) := by
  by_cases hm : m = n
  · subst hm
    exact hself
  · rw [hothers m hm, hdisks m hm]
    exact hother m

/-- The new record of a call. -/
def newCall (c : Cluster) (n : NodeId) (request : Request) (after : RaftCore)
    (actions : List Action) : Call :=
  ⟨n, request, c.core n, after, actions,
    actions.filterMap (outgoing n ((c.disk n).afterCall (c.core n) request actions))⟩

theorem trace_record : (c.record n request after actions).trace =
    c.newCall n request after actions :: c.trace := rfl

/-- A message a call sends is one of its actions, or a snapshot it sends on. -/
theorem mem_newCall_sent {dst : NodeId} {msg : Message}
    (h : (dst, msg) ∈ (c.newCall n request after actions).sent) :
    .sendMessage dst msg ∈ actions ∨ ∃ t i l data, .sendInstallSnapshot dst t i l ∈ actions ∧
      ((c.disk n).afterCall (c.core n) request actions).snapshot = some data ∧
      msg = .installSnapshot ⟨t, n, i, l, data⟩ := by
  obtain ⟨a, ha, hout⟩ := List.mem_filterMap.mp h
  cases a with
  | sendMessage target message =>
    obtain ⟨rfl, rfl⟩ := Prod.mk.inj (Option.some.inj hout)
    exact Or.inl ha
  | sendInstallSnapshot target t i l =>
    obtain ⟨data, hdata, hd⟩ := Option.map_eq_some_iff.mp hout
    obtain ⟨rfl, rfl⟩ := Prod.mk.inj hd
    exact Or.inr ⟨t, i, l, data, ha, hdata, rfl⟩
  | _ => simp [outgoing] at hout

/-- A message in flight after a call is one of its actions or was in flight before. -/
theorem mem_net_record {dst : NodeId} {msg : Message} (hmsg : ∀ req, msg ≠ .installSnapshot req)
    (h : (dst, msg) ∈ (c.record n request after actions).net) :
    .sendMessage dst msg ∈ actions ∨ (dst, msg) ∈ c.net := by
  rcases List.mem_append.mp h with h | h
  · rcases mem_newCall_sent h with h | ⟨_, _, _, _, _, _, h⟩
    · exact Or.inl h
    · exact absurd h (hmsg _)
  · exact Or.inr h

theorem mem_net_record_of_mem {dst : NodeId} {msg : Message} (h : (dst, msg) ∈ c.net) :
    (dst, msg) ∈ (c.record n request after actions).net :=
  List.mem_append_right _ h

/-! ## Leaders -/

/-- `n` was `Leader` in term `t` after some call of the run. -/
def Led (c : Cluster) (n : NodeId) (t : ℕ) : Prop :=
  ∃ k ∈ c.trace, k.node = n ∧ k.after.state = .leader ∧ k.after.currentTerm = t

/-- No two nodes ever led in one term. -/
def OneLeader (c : Cluster) : Prop :=
  ∀ n m t, c.Led n t → c.Led m t → n = m

theorem led_record {m : NodeId} {t : ℕ} : (c.record n request after actions).Led m t ↔
    n = m ∧ after.state = .leader ∧ after.currentTerm = t ∨ c.Led m t := by
  simp only [Led, trace_record, List.mem_cons, exists_eq_or_imp]
  rfl

theorem OneLeader.of_record (h : (c.record n request after actions).OneLeader) : c.OneLeader :=
  fun _ _ _ hn hm => h _ _ _ (led_record.mpr (Or.inr hn)) (led_record.mpr (Or.inr hm))

end Cluster

end FerrisFerry
