import FerrisFerry.LossyQueue
import FerrisFerry.Machine
import FerrisFerry.Types
import FerrisFerry.Wire

/-!
# The sender task of a peer

`TcpTransport::new` spawns for every other node a task that owns the receiving end of a channel
and, when it has one, a stream to the peer. Its loop waits at one of five places : for a message
or the reconnect deadline without a stream, for a connection, for the `send` of a message it had
kept, for a message or the peer's FIN with a stream, and for the `send` of a message it just
received. `Phase` names them; between two of them the task runs without a pause, so one `Event`
takes it from one to the next.

`postcard::to_allocvec` is the parameter `encode`. Instants are not modelled : the deadline may
pass at any time.

Every message is in the channel, in the slot `pending`, or in a `send`, and in this order the
oldest comes last. So the task is a queue that delivers or loses its oldest message
(`step_lossyQueue`), and it loses one only when the message cannot be encoded or when another one
is received over `pending` while there is no stream (`Lost`).
-/

namespace FerrisFerry

/-! ## Messages as bytes -/

section wire

open Wire

def RequestVoteRPC.wire : Wire RequestVoteRPC :=
  (varint.pair (varint.pair (varint.pair varint))).record
    (fun x => ⟨x.1, x.2.1, x.2.2.1, x.2.2.2⟩)
    (fun r => (r.term, r.candidateId, r.lastLogIndex, r.lastLogTerm)) fun _ => rfl

def RequestVoteResponseRPC.wire : Wire RequestVoteResponseRPC :=
  (varint.pair (varint.pair bool)).record (fun x => ⟨x.1, x.2.1, x.2.2⟩)
    (fun r => (r.id, r.term, r.voteGranted)) fun _ => rfl

theorem LogEntry.mk_fields (e : LogEntry) : ⟨e.term, e.command⟩ = e := rfl

def LogEntry.wire : Wire LogEntry :=
  (varint.pair bytes).record (fun x => ⟨x.1, x.2⟩) (fun e => (e.term, e.command)) LogEntry.mk_fields

def AppendEntriesRPC.wire : Wire AppendEntriesRPC :=
  (varint.pair (varint.pair (varint.pair (varint.pair (LogEntry.wire.list.pair varint))))).record
    (fun x => ⟨x.1, x.2.1, x.2.2.1, x.2.2.2.1, x.2.2.2.2.1, x.2.2.2.2.2⟩)
    (fun r => (r.term, r.leaderId, r.prevLogIndex, r.prevLogTerm, r.entries, r.leaderCommit))
    fun _ => rfl

def AppendEntriesResponseRPC.wire : Wire AppendEntriesResponseRPC :=
  (varint.pair (varint.pair (varint.pair (bool.pair (varint.option.pair varint.option))))).record
    (fun x => ⟨x.1, x.2.1, x.2.2.1, x.2.2.2.1, x.2.2.2.2.1, x.2.2.2.2.2⟩)
    (fun r => (r.id, r.term, r.matchIndex, r.success, r.firstConflictingIndex,
      r.firstConflictingTerm)) fun _ => rfl

def InstallSnapshotRPC.wire : Wire InstallSnapshotRPC :=
  (varint.pair (varint.pair (varint.pair (varint.pair bytes)))).record
    (fun x => ⟨x.1, x.2.1, x.2.2.1, x.2.2.2.1, x.2.2.2.2⟩)
    (fun r => (r.term, r.leaderId, r.lastIncludedIndex, r.lastIncludedTerm, r.data)) fun _ => rfl

def InstallSnapshotResponseRPC.wire : Wire InstallSnapshotResponseRPC :=
  (varint.pair (varint.pair varint)).record (fun x => ⟨x.1, x.2.1, x.2.2⟩)
    (fun r => (r.id, r.term, r.lastIncludedIndex)) fun _ => rfl

/-- A message behind the number of its kind. -/
def Message.wire : Wire Message where
  write
    | .requestVote req => 0 :: RequestVoteRPC.wire.write req
    | .requestVoteResponse resp => 1 :: RequestVoteResponseRPC.wire.write resp
    | .appendEntries req => 2 :: AppendEntriesRPC.wire.write req
    | .appendEntriesResponse resp => 3 :: AppendEntriesResponseRPC.wire.write resp
    | .installSnapshot req => 4 :: InstallSnapshotRPC.wire.write req
    | .installSnapshotResponse resp => 5 :: InstallSnapshotResponseRPC.wire.write resp
  read
    | [] => none
    | b :: bs =>
      if b = 0 then (RequestVoteRPC.wire.read bs).map fun r => (.requestVote r.1, r.2)
      else if b = 1 then
        (RequestVoteResponseRPC.wire.read bs).map fun r => (.requestVoteResponse r.1, r.2)
      else if b = 2 then (AppendEntriesRPC.wire.read bs).map fun r => (.appendEntries r.1, r.2)
      else if b = 3 then
        (AppendEntriesResponseRPC.wire.read bs).map fun r => (.appendEntriesResponse r.1, r.2)
      else if b = 4 then (InstallSnapshotRPC.wire.read bs).map fun r => (.installSnapshot r.1, r.2)
      else if b = 5 then
        (InstallSnapshotResponseRPC.wire.read bs).map fun r => (.installSnapshotResponse r.1, r.2)
      else none
  read_write msg rest := by
    cases msg with
    | requestVote req => simp [RequestVoteRPC.wire.read_write]
    | requestVoteResponse resp => simp [RequestVoteResponseRPC.wire.read_write]
    | appendEntries req => simp [AppendEntriesRPC.wire.read_write]
    | appendEntriesResponse resp => simp [AppendEntriesResponseRPC.wire.read_write]
    | installSnapshot req => simp [InstallSnapshotRPC.wire.read_write]
    | installSnapshotResponse resp => simp [InstallSnapshotResponseRPC.wire.read_write]

end wire

namespace TcpTransport

/-- `postcard::to_allocvec`. -/
def postcard (msg : Message) : Option Bytes :=
  some (Message.wire.write msg)

/-! ## The task -/

/-- A message and its place in the sequence of all the messages put into the channel. -/
abbrev Numbered := Message × ℕ

/-- What the task waits for. -/
inductive Phase where
  /-- A message or the deadline, without a stream. -/
  | disconnected
  /-- `TcpStream::connect`. -/
  | connecting
  /-- `s.send` of the message that was pending. -/
  | resending (msg : Numbered)
  /-- A message or the end of the stream. -/
  | connected
  /-- `s.send` of the message just received. -/
  | sending (msg : Numbered)
  /-- The channel was closed and the loop was left. -/
  | stopped
deriving DecidableEq

/-- The time to the next connection attempt in milliseconds. -/
def maxBackoff : ℕ := 100

def minBackoff : ℕ := 10

structure Sender where
  phase : Phase
  /-- The messages in the channel, the oldest first. -/
  rx : List Numbered
  /-- Every sending end of the channel was dropped. -/
  closed : Bool
  pending : Option Numbered
  backoff : ℕ
  /-- Every message ever put into the channel. -/
  enqueued : List Message
  /-- Every message a `send` put on a stream. -/
  sent : List Numbered
deriving DecidableEq

inductive Event where
  /-- `TcpTransport::send` to this peer. -/
  | enqueue (msg : Message)
  /-- The transport is dropped. -/
  | close
  /-- `rx.recv` returns. -/
  | recv
  /-- The deadline passes. -/
  | fire
  /-- The connection attempt ends. -/
  | connect (ok : Bool)
  /-- The `send` in progress ends; one that fails has delivered nothing. -/
  | send (ok : Bool)
  /-- `s.next` returns : the peer closed the stream. -/
  | peerCloses
deriving DecidableEq

namespace Sender

def start : Sender where
  phase := .disconnected
  rx := []
  closed := false
  pending := none
  backoff := minBackoff
  enqueued := []
  sent := []

section step

variable (encode : Message → Option Bytes)

/-- The top of the loop when there is a stream. -/
def resume (s : Sender) : Sender :=
  match s.pending with
  | none => { s with phase := .connected }
  | some msg =>
    match encode msg.1 with
    -- `continue` with `pending` taken : the loop comes back here and goes on to the `select!`
    | none => { s with pending := none, phase := .connected }
    | some _ => { s with pending := none, phase := .resending msg }

/-- A message comes out of the channel, or the channel is closed and empty. -/
def onRecv (s : Sender) : Option Sender :=
  match s.phase, s.rx with
  | .disconnected, msg :: rx => some { s with rx := rx, pending := some msg }
  | .connected, msg :: rx =>
    match encode msg.1 with
    | none => some (resume encode { s with rx := rx })
    | some _ => some { s with rx := rx, phase := .sending msg }
  | .disconnected, [] | .connected, [] =>
    if s.closed then some { s with phase := .stopped } else none
  | _, _ => none

def onConnect (s : Sender) (ok : Bool) : Option Sender :=
  match s.phase, ok with
  | .connecting, true => some (resume encode { s with backoff := minBackoff })
  | .connecting, false =>
    some { s with phase := .disconnected, backoff := min (2 * s.backoff) maxBackoff }
  | _, _ => none

def onSend (s : Sender) (ok : Bool) : Option Sender :=
  match s.phase, ok with
  | .resending msg, true => some { s with phase := .connected, sent := s.sent ++ [msg] }
  | .sending msg, true => some (resume encode { s with sent := s.sent ++ [msg] })
  | .resending msg, false | .sending msg, false =>
    some { s with phase := .disconnected, pending := some msg }
  | _, _ => none

def step (s : Sender) : Event → Option Sender
  | .enqueue msg =>
    if s.closed then none
    else some { s with
      rx := s.rx ++ [(msg, s.enqueued.length)], enqueued := s.enqueued ++ [msg] }
  | .close => some { s with closed := true }
  | .recv => s.onRecv encode
  | .fire => if s.phase = .disconnected then some { s with phase := .connecting } else none
  | .connect ok => s.onConnect encode ok
  | .send ok => s.onSend encode ok
  | .peerCloses => if s.phase = .connected then some { s with phase := .disconnected } else none

end step

/-- There is a stream. -/
def up (s : Sender) : Bool :=
  match s.phase with
  | .resending _ | .connected | .sending _ => true
  | _ => false

/-- The message in a `send`. -/
def inFlight (s : Sender) : Option Numbered :=
  match s.phase with
  | .resending msg | .sending msg => some msg
  | _ => none

/-- The messages the task still has, the oldest first. -/
def held (s : Sender) : List Numbered :=
  s.inFlight.toList ++ s.pending.toList ++ s.rx

def lossyQueue (s : Sender) : LossyQueue Message :=
  ⟨s.enqueued, s.held, s.sent⟩

/-- Why an event may make the task lose a message : it cannot be encoded, or it is pending without
a stream and another one is received. -/
def Lost (encode : Message → Option Bytes) (s : Sender) (event : Event) (msg : Numbered) : Prop :=
  encode msg.1 = none ∨ event = .recv ∧ s.up = false ∧ s.pending = some msg ∧ s.rx ≠ []

structure Sound (s : Sender) : Prop where
  /-- With a stream nothing is pending : the slot is emptied before the task waits. -/
  taken : s.up = true → s.pending = none
  /-- The loop is left when the channel is closed. -/
  closed : s.phase = .stopped → s.closed = true

/-- What one event does. -/
structure Outcome (encode : Message → Option Bytes) (s : Sender) (event : Event) (s' : Sender) :
    Prop where
  sound : s'.Sound
  queue : LossyQueue.Step (s.Lost encode event) s.lossyQueue s'.lossyQueue
  /-- Only dropping the transport closes the channel. -/
  closed : s'.closed = true → s.closed = true ∨ event = .close
  backoff : s'.backoff = s.backoff ∨ s'.backoff = minBackoff ∨
    s'.backoff = min (2 * s.backoff) maxBackoff

/-! ## One event -/

variable {encode : Message → Option Bytes} {s s' : Sender} {event : Event}

theorem sound_of_taken (hp : s.pending = none) (h : s.phase ≠ .stopped) : s.Sound :=
  ⟨fun _ => hp, fun hs => absurd hs h⟩

theorem sound_of_down (hu : s.up = false) (h : s.phase ≠ .stopped) : s.Sound :=
  ⟨fun hs => by simp [hu] at hs, fun hs => absurd hs h⟩

theorem resume_sound (s : Sender) : (s.resume encode).Sound := by
  unfold resume
  split
  · rename_i hp
    exact sound_of_taken hp (by simp)
  · split <;> exact sound_of_taken rfl (by simp)

theorem resume_closed (s : Sender) : (s.resume encode).closed = s.closed := by
  unfold resume
  split
  · rfl
  · split <;> rfl

theorem resume_backoff (s : Sender) : (s.resume encode).backoff = s.backoff := by
  unfold resume
  split
  · rfl
  · split <;> rfl

theorem resume_of_none (h : s.pending = none) :
    s.resume encode = { s with phase := .connected } := by
  rw [resume, h]

/-- What was pending goes into a `send` or is lost. -/
theorem resume_lossyQueue (encode : Message → Option Bytes) (s : Sender) :
    LossyQueue.Step (fun msg => encode msg.1 = none) ⟨s.enqueued, s.pending.toList ++ s.rx, s.sent⟩
      (s.resume encode).lossyQueue := by
  unfold resume
  split
  · rename_i hp
    exact .idle (by simp [lossyQueue, held, inFlight, hp])
  · rename_i msg hp
    split
    · rename_i he
      exact .lose msg he rfl (by simp [lossyQueue, held, inFlight, hp]) rfl
    · exact .idle (by simp [lossyQueue, held, inFlight, hp])

/-- The loop is left with what it held. -/
theorem stop_spec (hf : s.inFlight = none)
    (h : (if s.closed then some { s with phase := .stopped } else none) = some s') :
    s.Outcome encode event s' := by
  split at h
  · rename_i hc
    cases h
    refine ⟨⟨nofun, fun _ => hc⟩, .idle ?_, .inl, .inl rfl⟩
    rw [lossyQueue, lossyQueue, held, held, hf]
    rfl
  · cases h

theorem onRecv_spec (h : s.onRecv encode = some s') (hs : s.Sound) :
    s.Outcome encode .recv s' := by
  unfold onRecv at h
  split at h
  · -- without a stream : the message replaces what was pending
    rename_i msg rx hph hrx
    cases h
    refine ⟨sound_of_down (by simp [up, hph]) (by simp [hph]), ?_, .inl, .inl rfl⟩
    cases hp : s.pending with
    | none => exact .idle (by simp [lossyQueue, held, inFlight, hph, hrx, hp])
    | some old =>
      refine .lose old (.inr ⟨rfl, by simp [up, hph], hp, by simp [hrx]⟩) rfl ?_ rfl
      simp [lossyQueue, held, inFlight, hph, hrx, hp]
  · -- with a stream : the message goes into a `send` or cannot be encoded
    rename_i msg rx hph hrx
    have hp : s.pending = none := hs.taken (by simp [up, hph])
    split at h
    · rename_i he
      rw [resume_of_none (s := { s with rx := rx }) hp] at h
      cases h
      refine ⟨sound_of_taken hp (by simp), .lose msg (.inl he) rfl ?_ rfl, .inl, .inl rfl⟩
      simp [lossyQueue, held, inFlight, hph, hrx, hp]
    · cases h
      refine ⟨sound_of_taken hp (by simp), .idle ?_, .inl, .inl rfl⟩
      simp [lossyQueue, held, inFlight, hph, hrx, hp]
  · rename_i hph _
    exact stop_spec (by simp [inFlight, hph]) h
  · rename_i hph _
    exact stop_spec (by simp [inFlight, hph]) h
  · cases h

theorem onConnect_spec {ok : Bool} (h : s.onConnect encode ok = some s') :
    s.Outcome encode (.connect ok) s' := by
  unfold onConnect at h
  split at h
  · rename_i hph
    cases h
    have hq := resume_lossyQueue encode { s with backoff := minBackoff }
    have heq : s.lossyQueue = ⟨s.enqueued, s.pending.toList ++ s.rx, s.sent⟩ := by
      simp [lossyQueue, held, inFlight, hph]
    refine ⟨resume_sound _, ?_, fun hc => .inl ?_, .inr (.inl (resume_backoff _))⟩
    · rw [heq]
      exact hq.mono fun _ => .inl
    · rwa [resume_closed] at hc
  · rename_i hph
    cases h
    refine ⟨sound_of_down rfl (by simp), .idle ?_, .inl, .inr (.inr rfl)⟩
    simp [lossyQueue, held, inFlight, hph]
  · cases h

/-- A `send` that fails puts its message back into the slot it found empty. -/
theorem keep_spec {msg : Numbered} (hs : s.Sound) (hu : s.up = true) (hf : s.inFlight = some msg) :
    s.Outcome encode event { s with phase := .disconnected, pending := some msg } := by
  refine ⟨sound_of_down rfl (by simp), .idle ?_, .inl, .inl rfl⟩
  rw [lossyQueue, lossyQueue, held, held, hf, hs.taken hu]
  rfl

theorem onSend_spec {ok : Bool} (h : s.onSend encode ok = some s') (hs : s.Sound) :
    s.Outcome encode (.send ok) s' := by
  unfold onSend at h
  split at h
  · rename_i msg hph
    have hp : s.pending = none := hs.taken (by simp [up, hph])
    cases h
    refine ⟨sound_of_taken hp (by simp), .deliver msg rfl ?_ rfl, .inl, .inl rfl⟩
    simp [lossyQueue, held, inFlight, hph]
  · rename_i msg hph
    have hp : s.pending = none := hs.taken (by simp [up, hph])
    rw [resume_of_none (s := { s with sent := s.sent ++ [msg] }) hp] at h
    cases h
    refine ⟨sound_of_taken hp (by simp), .deliver msg rfl ?_ rfl, .inl, .inl rfl⟩
    simp [lossyQueue, held, inFlight, hph]
  · rename_i hph
    cases h
    exact keep_spec hs (by simp [up, hph]) (by simp [inFlight, hph])
  · rename_i hph
    cases h
    exact keep_spec hs (by simp [up, hph]) (by simp [inFlight, hph])
  · cases h

/-- One event is a step of the queue. -/
theorem step_spec (h : s.step encode event = some s') (hs : s.Sound) :
    s.Outcome encode event s' := by
  cases event with
  | enqueue msg =>
    rw [step] at h
    split at h
    · cases h
    · cases h
      refine ⟨⟨hs.taken, hs.closed⟩, .push msg rfl ?_ rfl, .inl, .inl rfl⟩
      simp [lossyQueue, held, inFlight]
  | close =>
    cases h
    exact ⟨⟨hs.taken, fun _ => rfl⟩, .idle rfl, fun _ => .inr rfl, .inl rfl⟩
  | recv => exact onRecv_spec h hs
  | fire =>
    rw [step] at h
    split at h
    · rename_i hph
      cases h
      refine ⟨sound_of_down rfl (by simp), .idle ?_, .inl, .inl rfl⟩
      simp [lossyQueue, held, inFlight, hph]
    · cases h
  | connect ok => exact onConnect_spec h
  | send ok => exact onSend_spec h hs
  | peerCloses =>
    rw [step] at h
    split at h
    · rename_i hph
      cases h
      refine ⟨sound_of_down rfl (by simp), .idle ?_, .inl, .inl rfl⟩
      simp [lossyQueue, held, inFlight, hph]
    · cases h

end Sender

def machine (encode : Message → Option Bytes) : Machine Sender Event where
  step := Sender.step encode

/-! ## Whole runs -/

section run

variable (encode : Message → Option Bytes)

/-- At some point of the run the message was pending without a stream, and a newer one was
received. -/
def Superseded (events : List Event) (msg : Numbered) : Prop :=
  ∃ before after s newer, events = before ++ .recv :: after ∧
    (machine encode).exec Sender.start before = some s ∧ s.up = false ∧ s.pending = some msg ∧
    s.rx.head? = some newer ∧ msg.2 < newer.2

/-- What is known after a run : nothing is out of order, and every message that was put into the
channel is accounted for. -/
structure Accounted (events : List Event) (s : Sender) : Prop where
  sound : s.Sound
  ordered : s.lossyQueue.Ordered
  kept : ∀ msg ∈ s.enqueued.zipIdx, msg ∈ s.sent ∨ msg ∈ s.held ∨ encode msg.1 = none ∨
    Superseded encode events msg
  closed : s.closed = true → .close ∈ events
  backoff : minBackoff ≤ s.backoff ∧ s.backoff ≤ maxBackoff

variable {encode} {events : List Event} {s : Sender} {msg : Numbered}

theorem Superseded.append (h : Superseded encode events msg) (more : List Event) :
    Superseded encode (events ++ more) msg := by
  obtain ⟨before, after, s, newer, rfl, h⟩ := h
  exact ⟨before, after ++ more, s, newer, by simp, h⟩

/-- The message in the slot is older than those in the channel. -/
theorem pending_lt (ho : s.lossyQueue.Ordered) {newer : Numbered} (hp : s.pending = some msg)
    (hn : newer ∈ s.rx) : msg.2 < newer.2 := by
  have hw : s.lossyQueue.waiting.Pairwise fun x y => x.2 < y.2 :=
    (List.pairwise_append.mp ho.increasing).2.1
  refine (List.pairwise_append.mp hw).2.2 msg ?_ newer hn
  simp [hp]

theorem accounted_start : Accounted encode [] Sender.start where
  sound := ⟨fun _ => rfl, nofun⟩
  ordered := LossyQueue.ordered_nil
  kept _ h := absurd h List.not_mem_nil
  closed := nofun
  backoff := by decide

theorem Accounted.step {event : Event} {s' : Sender}
    (hr : (machine encode).exec Sender.start events = some s) (hs : Accounted encode events s)
    (h : s.step encode event = some s') : Accounted encode (events ++ [event]) s' := by
  obtain ⟨hsound, hq, hclosed, hbackoff⟩ := Sender.step_spec h hs.sound
  refine ⟨hsound, hq.ordered hs.ordered, fun msg hmsg => ?_, fun hc => ?_, ?_⟩
  · rcases hq.kept hmsg with hd | hw | hl | ⟨hm, hd, hw⟩
    · exact .inl hd
    · exact .inr (.inl hw)
    · rcases hl with he | ⟨rfl, hu, hp, hrx⟩
      · exact .inr (.inr (.inl he))
      · obtain ⟨newer, rx, hrx⟩ := List.exists_cons_of_ne_nil hrx
        exact .inr (.inr (.inr ⟨events, [], s, newer, rfl, hr, hu, hp, by rw [hrx]; rfl,
          pending_lt hs.ordered hp (by simp [hrx])⟩))
    · rcases hs.kept msg hm with h | h | h | h
      · exact absurd h hd
      · exact absurd h hw
      · exact .inr (.inr (.inl h))
      · exact .inr (.inr (.inr (h.append [event])))
  · rcases hclosed hc with hc | rfl
    · exact List.mem_append_left _ (hs.closed hc)
    · simp
  · have hb := hs.backoff
    unfold minBackoff maxBackoff at hb hbackoff ⊢
    omega

theorem accounted (h : (machine encode).exec Sender.start events = some s) :
    Accounted encode events s :=
  Machine.exec_invariant accounted_start (fun _ _ _ _ hr hs h => hs.step hr h) h

/-- The time to the next connection attempt stays in its window. -/
theorem backoff_mem (h : (machine encode).exec Sender.start events = some s) :
    s.backoff ∈ Set.Icc minBackoff maxBackoff :=
  (accounted h).backoff

/-- In every run the messages sent are a subsequence of the messages enqueued, each sent at most
once and in order, and a message that is neither sent nor still with the task could not be encoded
or was overwritten in the slot by a newer one while there was no stream. The task itself ends only
when the transport is dropped. -/
theorem sent_in_order (h : (machine encode).exec Sender.start events = some s) :
    (s.sent.map Prod.fst).Sublist s.enqueued ∧ s.sent.Sublist s.enqueued.zipIdx ∧
      (s.sent.Pairwise fun x y => x.2 < y.2) ∧
      (∀ msg ∈ s.enqueued.zipIdx, msg ∉ s.sent → msg ∉ s.held →
        encode msg.1 = none ∨ Superseded encode events msg) ∧
      (s.phase = .stopped → .close ∈ events) := by
  have hs := accounted h
  have ho := hs.ordered
  refine ⟨ho.delivered_sublist, (List.sublist_append_left _ _).trans ho,
    (List.pairwise_append.mp ho.increasing).1, fun msg hmsg hsent hheld => ?_,
    fun hst => hs.closed (hs.sound.closed hst)⟩
  rcases hs.kept msg hmsg with h | h | h
  · exact absurd h hsent
  · exact absurd h hheld
  · exact h

end run

/-- Three vote requests to a peer that is down at first. The second replaces the first, its first
`send` fails and the next connection attempt too. -/
def outage : List Event :=
  [.enqueue (.requestVote ⟨1, 1, 0, 0⟩), .recv, .enqueue (.requestVote ⟨2, 1, 0, 0⟩), .recv, .fire,
    .connect true, .send false, .fire, .connect false, .enqueue (.requestVote ⟨3, 1, 0, 0⟩), .fire,
    .connect true, .send true, .recv, .send true, .peerCloses]

theorem sent_in_order_outage : ∃ s, (machine postcard).exec Sender.start outage = some s ∧
    s.sent.map Prod.snd = [1, 2] ∧ s.enqueued.length = 3 ∧
    Superseded postcard outage (.requestVote ⟨1, 1, 0, 0⟩, 0) := by
  have hrun : ((machine postcard).exec Sender.start outage).any (fun s =>
      s.sent = [(.requestVote ⟨2, 1, 0, 0⟩, 1), (.requestVote ⟨3, 1, 0, 0⟩, 2)] ∧ s.held = [] ∧
        s.enqueued = [.requestVote ⟨1, 1, 0, 0⟩, .requestVote ⟨2, 1, 0, 0⟩,
          .requestVote ⟨3, 1, 0, 0⟩]) = true := by
    decide +kernel
  obtain ⟨s, hs, hP⟩ := (Option.any_eq_true _ _).mp hrun
  obtain ⟨hsent, hheld, henq⟩ := of_decide_eq_true hP
  refine ⟨s, hs, by rw [hsent]; rfl, by rw [henq]; rfl, ?_⟩
  obtain ⟨-, -, -, hskip, -⟩ := sent_in_order hs
  have h := hskip (.requestVote ⟨1, 1, 0, 0⟩, 0) (by simp [henq]) (by simp [hsent])
    (by simp [hheld])
  exact h.resolve_left nofun

end TcpTransport

end FerrisFerry
