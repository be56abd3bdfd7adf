import FerrisFerry.Machine
import FerrisFerry.Storage

/-!
# The event loop

`RaftDriver` of `raft-event-loop/src/lib.rs` : it feeds events to a core, executes the
actions that come back in order, answers the waiting clients and takes a snapshot when
enough commands have been applied.

Whatever the driver does to the outside is an `Effect` : a storage operation, a message, an
entry on the applied channel, an answer to a client. Handling an event yields its effects in
order and the driver after it, or `none` after the effects that come before a panic
(`Handled`). A crash can fall between any two effects; all that is left then is the storage.

The application is what it answers to a `SnapshotRequest`, given all that has been sent to
it since the start. A `oneshot` channel is the number of the client that waits on it.
-/

namespace FerrisFerry

/-- What is sent to the application. -/
inductive AppliedEntry where
  | command (command : Bytes)
  | snapshot (data : Bytes)
  | snapshotRequest
deriving DecidableEq, Repr

abbrev Channel := ℕ

inductive ProposalError where
  | followerNode (leader : Option NodeId)
  | lostLeadership
deriving DecidableEq, Repr

inductive Effect where
  | store (op : StorageOp)
  | send (target : NodeId) (message : Message)
  | apply (entry : AppliedEntry)
  /-- Answer a client : `Ok(())` if there is no error. -/
  | respond (channel : Channel) (error : Option ProposalError)
deriving DecidableEq

/-- The storage operation an effect is. -/
def Effect.op : Effect → Option StorageOp
  | .store op => some op
  | _ => none

/-- The last storage operation of a list of effects. -/
def lastOp (effects : List Effect) : Option StorageOp :=
  (effects.filterMap Effect.op).getLast?

/-- The effects end behind a `store_snapshot` and before the `truncate_log` that follows it. -/
def torn (effects : List Effect) : Bool :=
  match lastOp effects with
  | some (.storeSnapshot _) => true
  | _ => false

/-- Execute the storage operations of a list of effects. -/
def Storage.replay (s : Storage) (effects : List Effect) : Storage :=
  (effects.filterMap Effect.op).foldl Storage.exec s

structure RaftDriver where
  /-- Id of the underlying node. -/
  id : NodeId
  core : RaftCore
  pendingProposals : AList fun _ : ℕ => Channel
  pendingReads : AList fun _ : ℕ => Channel
  /-- Commands applied since the last snapshot. -/
  numEntries : ℕ
  snapshotThreshold : ℕ
  storage : Storage
  /-- Everything sent to the application since the start. -/
  applied : List AppliedEntry

/-- The effects of a piece of handling, and the driver after it unless it panicked. -/
abbrev Handled := List Effect × Option RaftDriver

/-- Go on with the driver after a piece of handling. -/
def Handled.andThen (h : Handled) (f : RaftDriver → Handled) : Handled :=
  match h.2 with
  | none => h
  | some d => (h.1 ++ (f d).1, (f d).2)

namespace RaftDriver

def perform (d : RaftDriver) : Effect → RaftDriver
  | .store op => { d with storage := d.storage.exec op }
  | .apply entry => { d with applied := d.applied ++ [entry] }
  | .send _ _ | .respond _ _ => d

/-- Do effects that cannot fail. -/
def run (d : RaftDriver) (effects : List Effect) : Handled :=
  (effects, some (effects.foldl perform d))

/-! ## Actions -/

section actions

variable (app : List AppliedEntry → Bytes)

/-- Ask the application for its state, store it under the index of the core and clear the
log file. -/
def takeSnapshot (d : RaftDriver) : Handled :=
  (d.run [.apply .snapshotRequest]).andThen fun d =>
    match d.core.prepareSnapshot with
    | none => ([], none)
    | some metadata =>
      (d.run [.store (.storeSnapshot
        ⟨metadata.lastApplied, metadata.lastAppliedTerm, app d.applied⟩)]).andThen fun d =>
      match d.core.completeSnapshot metadata with
      | none => ([], none)
      | some core =>
        ({ d with core := core }.run [.store .truncateLog]).andThen fun d =>
          { d with numEntries := 0 }.run []

/-- Deliver a committed command. Empty ones are the leader's own and are not delivered. -/
def applyToStateMachine (d : RaftDriver) (index : ℕ) (command : Bytes) : Handled :=
  let answers := (d.pendingProposals.lookup index).toList.map fun channel => .respond channel none
  ({ d with pendingProposals := d.pendingProposals.erase index }.run answers).andThen fun d =>
    if command = [] then d.run []
    else
      (d.run [.apply (.command command)]).andThen fun d =>
        let d := { d with numEntries := d.numEntries + 1 }
        if d.snapshotThreshold ≤ d.numEntries then d.takeSnapshot app else d.run []

def handleAction (d : RaftDriver) : Action → Handled
  | .sendMessage target message => d.run [.send target message]
  | .persistMetadata term votedFor => d.run [.store (.storeMetadata ⟨term, votedFor⟩)]
  | .persistLogEntries startIndex entries =>
    d.run [.store (.storeLogEntries ⟨startIndex, entries⟩)]
  | .installSnapshot lastIncludedIndex lastIncludedTerm data =>
    d.run [.store (.storeSnapshot ⟨lastIncludedIndex, lastIncludedTerm, data⟩),
      .apply (.snapshot data), .store .truncateLog]
  | .sendInstallSnapshot target term lastIncludedIndex lastIncludedTerm =>
    match d.storage.retrieveSnapshotBytes with
    | none => ([], none)
    | some data => d.run [.send target (.installSnapshot
      { term := term
        leaderId := d.id
        lastIncludedIndex := lastIncludedIndex
        lastIncludedTerm := lastIncludedTerm
        data := data })]
  | .applyToStateMachine index command => d.applyToStateMachine app index command
  | .readBarrierReady id =>
    { d with pendingReads := d.pendingReads.erase id }.run
      ((d.pendingReads.lookup id).toList.map fun channel => .respond channel none)

def handleActions (d : RaftDriver) : List Action → Handled
  | [] => d.run []
  | a :: actions => (d.handleAction app a).andThen fun d => d.handleActions actions

end actions

/-! ## Events -/

inductive Event where
  | tick
  | propose (command : Bytes) (respond : Channel)
  | read (respond : Channel)
  | message (msg : Message)

/-- The call of the core an event makes. -/
def Event.request : Event → Request
  | .tick => .tick
  | .propose command _ => .propose command
  | .read _ => .readBarrier
  | .message msg => .message msg

/-- The start index of the first `PersistLogEntries`. -/
def firstPersisted (actions : List Action) : Option ℕ :=
  actions.findSome? fun
    | .persistLogEntries startIndex _ => some startIndex
    | _ => none

/-- Tell everybody who waits that the node no longer leads. -/
def drainPending (d : RaftDriver) : Handled :=
  { d with pendingProposals := ∅, pendingReads := ∅ }.run
    ((d.pendingProposals.entries.map Sigma.snd ++ d.pendingReads.entries.map Sigma.snd).map
      fun channel => .respond channel (some .lostLeadership))

section events

variable (app : List AppliedEntry → Bytes)

/-- One turn of the event loop. -/
def handleEvent (d : RaftDriver) (rnd : ℕ) : Event → Handled
  | .tick =>
    match d.core.tick rnd with
    | none => ([], none)
    | some (core, actions) => { d with core := core }.handleActions app actions
  | .propose command respond =>
    match d.core.propose command with
    | none => ([], none)
    | some (core, some actions) =>
      let d := { d with core := core }
      let d := match firstPersisted actions with
        | some startIndex =>
          { d with pendingProposals := d.pendingProposals.insert startIndex respond }
        | none => d
      d.handleActions app actions
    | some (core, none) =>
      { d with core := core }.run [.respond respond (some (.followerNode core.currentLeader))]
  | .read respond =>
    match d.core.requestReadBarrier with
    | (core, some id) =>
      { d with core := core, pendingReads := d.pendingReads.insert id respond }.run []
    | (core, none) =>
      { d with core := core }.run [.respond respond (some (.followerNode core.currentLeader))]
  | .message msg =>
    match d.core.handleMessage msg rnd with
    | none => ([], none)
    | some (core, actions) =>
      ({ d with core := core }.handleActions app actions).andThen fun d' =>
        if d.core.isLeader ∧ ¬d'.core.isLeader then d'.drainPending else d'.run []

/-- The storage when the driver stops after the first effects of an event. -/
def crashStorage (d : RaftDriver) (rnd : ℕ) (event : Event) (done : ℕ) : Storage :=
  d.storage.replay ((d.handleEvent app rnd event).1.take done)

end events

end RaftDriver

/-! ## Starting and running -/

/-- What a driver is started with, apart from its transport and storage. -/
structure DriverConfig where
  id : NodeId
  nodes : List NodeId
  heartbeatInterval : Option ℕ
  electionRange : ℕ × ℕ
  snapshotThreshold : ℕ

namespace DriverConfig

variable (cfg : DriverConfig)

/-- `RaftDriver::new` around a core. -/
def driver (core : RaftCore) (storage : Storage) : RaftDriver where
  id := cfg.id
  core := core
  pendingProposals := ∅
  pendingReads := ∅
  numEntries := 0
  snapshotThreshold := cfg.snapshotThreshold
  storage := storage
  applied := []

/-- `RaftDriver::new` : a snapshot without metadata or without a log file is a panic. -/
def new (storage : Storage) (rnd : ℕ) : Option RaftDriver :=
  match storage.snapshot with
  | some snapshot => do
    let metadata ← storage.metadata
    let entries ← storage.restoreLogEntries
    some (cfg.driver (RaftCore.restoreWithSnapshot cfg.id cfg.nodes cfg.heartbeatInterval
      cfg.electionRange rnd metadata.term metadata.votedFor entries
      snapshot.lastIncludedIndex snapshot.lastIncludedTerm) storage)
  | none =>
    match storage.metadata with
    | some metadata =>
      some (cfg.driver (RaftCore.restore cfg.id cfg.nodes cfg.heartbeatInterval
        cfg.electionRange rnd metadata.term metadata.votedFor
        (storage.restoreLogEntries.getD [])) storage)
    | none =>
      some (cfg.driver (RaftCore.new cfg.id cfg.nodes cfg.heartbeatInterval cfg.electionRange rnd)
        storage)

/-- The first start, on empty storage. -/
def boot (rnd : ℕ) : RaftDriver :=
  cfg.driver (RaftCore.new cfg.id cfg.nodes cfg.heartbeatInterval cfg.electionRange rnd)
    Storage.empty

end DriverConfig

/-- A step of a driver : an event, or a crash after the first `done` effects of an event and
a restart. With `done = 0` the crash is at the head of the loop. -/
inductive DriverInput where
  | event (event : RaftDriver.Event) (rnd : ℕ)
  | crash (event : RaftDriver.Event) (rnd done restartRnd : ℕ)

/-- A driver with its application as a machine. -/
def DriverConfig.machine (cfg : DriverConfig) (app : List AppliedEntry → Bytes) :
    Machine RaftDriver DriverInput where
  step d
    | .event event rnd => (d.handleEvent app rnd event).2
    | .crash event rnd done restartRnd => cfg.new (d.crashStorage app rnd event done) restartRnd

end FerrisFerry
