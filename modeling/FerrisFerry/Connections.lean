import FerrisFerry.Framing
import FerrisFerry.TcpTransport
import Mathlib.Logic.Function.Basic

/-!
# From the sender task to the receiving channel

The other half of `TcpTransport::new` : a listener that starts a task for every stream it accepts,
and the task that takes frames off its stream and puts the messages into the channel that
`TcpTransport::recv` reads. `Link` is one sender task, the streams it has connected one after the
other and their tasks at the peer.

The framing of `LengthDelimitedCodec` is the parameter `F`, `postcard` the parameter `P`. What is
written arrives in pieces of any size, or not at all once the task has found the end of its stream.
A `send` that fails may have written a part of its frame.

Each stream hands on a prefix of what was sent on it, and all of it once all its bytes have
arrived, so every message is received at most once and as it was sent (`Link.received_once`).
There is no order between two streams : what is left of one may be read when the next one is
already there.
-/

namespace FerrisFerry

namespace TcpTransport

/-- A stream and the task that reads it. -/
structure Connection where
  /-- What was written and has not arrived. -/
  wire : Bytes
  /-- The read buffer of `Framed`. -/
  buffer : Bytes
  /-- The task has not left its loop. -/
  reading : Bool
  /-- Every message sent on the stream. -/
  sent : List Message

def Connection.idle : Connection where
  wire := []
  buffer := []
  reading := false
  sent := []

structure Link where
  sender : Sender
  /-- The number of streams so far, and of the last one. -/
  current : ℕ
  connection : ℕ → Connection
  /-- What was put into the receiving channel, with the number of the stream. -/
  received : List (ℕ × Message)

inductive LinkEvent where
  /-- An event of the sender task. A `send` that fails has written so many bytes of the frame. -/
  | task (event : Event) (written : ℕ)
  /-- So many bytes of a stream arrive. -/
  | arrive (i n : ℕ)
  /-- The task finds the end of its stream. -/
  | finish (i : ℕ)

namespace Link

def start : Link where
  sender := .start
  current := 0
  connection _ := .idle
  received := []

def setConnection (l : Link) (i : ℕ) (c : Connection) : Link :=
  { l with connection := Function.update l.connection i c }

/-- A new stream, accepted by the listener. -/
def connect (l : Link) : Link :=
  { l with current := l.current + 1 }.setConnection (l.current + 1)
    { Connection.idle with reading := true }

section step

variable (F : Framing) (P : Codec Message)

/-- What the event of the sender task does to its stream, with the message in a `send` before it.
A frame that is too long is refused before anything is written. -/
def carry (l : Link) (event : Event) (inFlight : Option Numbered) (written : ℕ) : Option Link :=
  let c := l.connection l.current
  match event, inFlight with
  | .connect true, _ => some l.connect
  | .send true, some msg =>
    (F.encode (P.encode msg.1)).map fun frame =>
      l.setConnection l.current { c with wire := c.wire ++ frame, sent := c.sent ++ [msg.1] }
  | .send false, some msg =>
    match F.encode (P.encode msg.1) with
    | none => some l
    | some frame =>
      if written < frame.length then
        some (l.setConnection l.current { c with wire := c.wire ++ frame.take written })
      else none
  | _, _ => some l

/-- The task goes through its loop until `framed.next` waits again. -/
def read (l : Link) (i n : ℕ) : Link :=
  let c := l.connection i
  let bytes := c.buffer ++ c.wire.take n
  let (bodies, left) := F.drain bytes.length bytes
  { l.setConnection i { c with
      wire := c.wire.drop n
      buffer := left.getD []
      reading := left.isSome } with
    -- `continue` on a body that cannot be decoded
    received := l.received ++ (bodies.filterMap P.decode).map fun msg => (i, msg) }

def step (l : Link) : LinkEvent → Option Link
  | .task event written => do
    let sender ← l.sender.step (fun msg => some (P.encode msg)) event
    { l with sender }.carry F P event l.sender.inFlight written
  | .arrive i n =>
    if (l.connection i).reading ∧ n ≤ (l.connection i).wire.length then some (l.read F P i n)
    else none
  | .finish i =>
    if (l.connection i).reading then
      some (l.setConnection i { l.connection i with reading := false })
    else none

end step

def machine (F : Framing) (P : Codec Message) : Machine Link LinkEvent where
  step := Link.step F P

/-- The messages received from a stream. -/
def receivedOn (l : Link) (i : ℕ) : List Message :=
  (l.received.filter fun r => r.1 = i).map Prod.snd

/-- The messages sent, stream by stream. -/
def sentOnAll (l : Link) : List Message :=
  (List.range (l.current + 1)).flatMap fun i => (l.connection i).sent

end Link

/-! ## One event of the sender task -/

namespace Sender

variable {encode : Message → Option Bytes} {s s' : Sender} {event : Event}

theorem resume_sent (s : Sender) : (s.resume encode).sent = s.sent := by
  unfold resume
  split
  · rfl
  · split <;> rfl

theorem resume_enqueued (s : Sender) : (s.resume encode).enqueued = s.enqueued := by
  unfold resume
  split
  · rfl
  · split <;> rfl

/-- What a step does to the two ends : only `enqueue` puts a message into the channel, and only a
`send` that succeeds adds to what was sent. A stream that is up was connected now, or was up and
no `send` on it has failed. -/
theorem step_ends (h : s.step encode event = some s') :
    (s'.enqueued = s.enqueued ∨ ∃ msg, event = .enqueue msg ∧ s'.enqueued = s.enqueued ++ [msg]) ∧
      (s'.sent = s.sent ++ if event = .send true then s.inFlight.toList else []) ∧
      (s'.up = true → event = .connect true ∨ s.up = true ∧ event ≠ .send false) := by
  cases event with
  | enqueue msg =>
    rw [step] at h
    split_ifs at h
    cases h
    exact ⟨Or.inr ⟨msg, rfl, rfl⟩, (List.append_nil _).symm, fun hu => Or.inr ⟨hu, by simp⟩⟩
  | close =>
    cases h
    exact ⟨Or.inl rfl, (List.append_nil _).symm, fun hu => Or.inr ⟨hu, by simp⟩⟩
  | fire | peerCloses =>
    rw [step] at h
    split_ifs at h
    cases h
    exact ⟨Or.inl rfl, (List.append_nil _).symm, fun hu => by simp [up] at hu⟩
  | recv =>
    change s.onRecv encode = some s' at h
    rw [if_neg (by simp), List.append_nil]
    unfold onRecv at h
    split at h
    · cases h
      exact ⟨Or.inl rfl, rfl, fun hu => Or.inr ⟨hu, by simp⟩⟩
    · rename_i hph _
      have hup : s.up = true ∧ Event.recv ≠ .send false := ⟨by simp [up, hph], by simp⟩
      split at h
      all_goals cases h
      · exact ⟨Or.inl (resume_enqueued _), resume_sent _, fun _ => Or.inr hup⟩
      · exact ⟨Or.inl rfl, rfl, fun _ => Or.inr hup⟩
    · split_ifs at h
      cases h
      exact ⟨Or.inl rfl, rfl, fun hu => by simp [up] at hu⟩
    · split_ifs at h
      cases h
      exact ⟨Or.inl rfl, rfl, fun hu => by simp [up] at hu⟩
    · cases h
  | connect ok =>
    change s.onConnect encode ok = some s' at h
    rw [if_neg (by simp), List.append_nil]
    unfold onConnect at h
    split at h
    all_goals cases h
    · exact ⟨Or.inl (resume_enqueued _), resume_sent _, fun _ => Or.inl rfl⟩
    · exact ⟨Or.inl rfl, rfl, fun hu => by simp [up] at hu⟩
  | send ok =>
    change s.onSend encode ok = some s' at h
    unfold onSend at h
    split at h
    all_goals rename_i hph
    all_goals cases h
    · exact ⟨Or.inl rfl, by simp [inFlight, hph], fun _ => Or.inr ⟨by simp [up, hph], by simp⟩⟩
    · exact ⟨Or.inl (resume_enqueued _), by simp [inFlight, hph, resume_sent],
        fun _ => Or.inr ⟨by simp [up, hph], by simp⟩⟩
    all_goals exact ⟨Or.inl rfl, by simp, fun hu => by simp [up] at hu⟩

theorem up_of_inFlight {msg : Numbered} (h : s.inFlight = some msg) : s.up = true := by
  cases hph : s.phase with
  | resending | sending => simp [up, hph]
  | _ => simp [inFlight, hph] at h

end Sender

namespace Link

variable {F : Framing} {P : Codec Message} {l l' : Link} {i : ℕ}

/-! ## One stream -/

/-- What a stream has been through : of what was sent on it, `got` has been handed on, and the
rest is in the buffer and on the way, with `tail` behind it. -/
structure Carries (F : Framing) (P : Codec Message) (c : Connection) (got : List Message)
    (tail : Bytes) : Prop where
  fits : ∀ body ∈ c.sent.map P.encode, (F.encode body).isSome
  part : F.Part tail
  torn : F.decode c.buffer = .torn
  rest : ∃ m ≤ c.sent.length, got = c.sent.take m ∧
    F.stream ((c.sent.drop m).map P.encode) ++ tail = c.buffer ++ c.wire

/-- What holds in every state of a link. -/
structure Conveys (F : Framing) (P : Codec Message) (l : Link) : Prop where
  task : ∃ events, (TcpTransport.machine fun msg => some (P.encode msg)).exec .start events =
    some l.sender
  idle : ∀ i > l.current, l.connection i = .idle
  carries : ∀ i, ∃ tail, Carries F P (l.connection i) (l.receivedOn i) tail
  /-- Nothing is cut on a stream that is up. -/
  whole : l.sender.up = true →
    Carries F P (l.connection l.current) (l.receivedOn l.current) []
  all : l.sentOnAll = l.sender.sent.map Prod.fst

theorem carries_fresh (reading : Bool) :
    Carries F P { Connection.idle with reading := reading } [] [] :=
  ⟨by simp [Connection.idle], Or.inl rfl, F.decode_nil, 0, le_rfl, rfl, rfl⟩

variable {c : Connection} {got : List Message} {tail : Bytes}

/-- A message is sent. -/
theorem Carries.send (h : Carries F P c got []) {msg : Message} {frame : Bytes}
    (he : F.encode (P.encode msg) = some frame) :
    Carries F P { c with wire := c.wire ++ frame, sent := c.sent ++ [msg] } got [] := by
  obtain ⟨m, hm, hgot, hrest⟩ := h.rest
  refine ⟨?_, Or.inl rfl, h.torn, m, ?_, ?_, ?_⟩
  · intro body hbody
    rw [List.map_append, List.mem_append, List.map_singleton, List.mem_singleton] at hbody
    rcases hbody with hold | rfl
    · exact h.fits body hold
    · exact Option.isSome_of_eq_some he
  · exact hm.trans (by simp)
  · rw [List.take_append_of_le_length hm, hgot]
  · rw [List.drop_append_of_le_length hm, List.map_append, Framing.stream_append,
      List.map_singleton, Framing.stream_cons he, ← List.append_assoc c.buffer, ← hrest]
    simp [Framing.stream]

/-- A message is cut. -/
theorem Carries.cut (h : Carries F P c got []) {body frame : Bytes}
    (he : F.encode body = some frame) {n : ℕ} (hn : n < frame.length) :
    Carries F P { c with wire := c.wire ++ frame.take n } got (frame.take n) := by
  obtain ⟨m, hm, hgot, hrest⟩ := h.rest
  refine ⟨h.fits, Or.inr ⟨body, frame, n, he, hn, rfl⟩, h.torn, m, hm, hgot, ?_⟩
  rw [← List.append_assoc, ← hrest, List.append_nil]

theorem filterMap_decode (P : Codec Message) (msgs : List Message) :
    (msgs.map P.encode).filterMap P.decode = msgs := by
  rw [List.filterMap_map, show P.decode ∘ P.encode = some from funext P.decode_encode,
    List.filterMap_some]

/-- Bytes arrive : the task hands on the next messages. -/
theorem Carries.read (h : Carries F P c got tail) (n : ℕ) :
    ∃ bodies left, F.drain (c.buffer ++ c.wire.take n).length (c.buffer ++ c.wire.take n) =
        (bodies, some left) ∧
      Carries F P { c with wire := c.wire.drop n, buffer := left, reading := true }
        (got ++ bodies.filterMap P.decode) tail := by
  obtain ⟨m, hm, rfl, hrest⟩ := h.rest
  have hfits : ∀ body ∈ (c.sent.drop m).map P.encode, (F.encode body).isSome := fun body hbody =>
    h.fits body (List.map_subset _ (List.drop_subset m c.sent) hbody)
  rw [← List.take_append_drop n c.wire, ← List.append_assoc] at hrest
  obtain ⟨k, left, hdrain, hk, htorn, hrest'⟩ :=
    Framing.drain_stream hfits h.part hrest le_rfl
  rw [List.length_map, List.length_drop] at hk
  have hle : m + k ≤ c.sent.length := by omega
  refine ⟨_, left, hdrain, h.fits, h.part, htorn, m + k, hle, ?_, ?_⟩
  · rw [← List.map_take, filterMap_decode, ← List.take_add]
  · rw [← List.map_drop, List.drop_drop] at hrest'
    exact hrest'

/-! ## All streams of a link -/

theorem connection_setConnection (l : Link) (i j : ℕ) (c : Connection) :
    (l.setConnection i c).connection j = if j = i then c else l.connection j :=
  Function.update_apply ..

theorem connection_connect (l : Link) (j : ℕ) : l.connect.connection j =
    if j = l.current + 1 then { Connection.idle with reading := true } else l.connection j :=
  Function.update_apply ..

theorem receivedOn_append (l : Link) (i j : ℕ) (msgs : List Message) :
    { l with received := l.received ++ msgs.map fun msg => (i, msg) }.receivedOn j =
      l.receivedOn j ++ if i = j then msgs else [] := by
  rw [receivedOn, receivedOn, List.filter_append, List.map_append, List.filter_map, List.map_map]
  congr 1
  split_ifs with hij
  · rw [List.filter_eq_self.mpr fun _ _ => by simpa using hij]
    exact List.map_id _
  · rw [List.filter_eq_nil_iff.mpr fun _ _ => by simpa using hij]
    rfl

/-- The messages sent stream by stream where one stream has changed. -/
theorem sentOnAll_setConnection (l : Link) {c : Connection} {msgs : List Message}
    (h : c.sent = (l.connection l.current).sent ++ msgs) :
    (l.setConnection l.current c).sentOnAll = l.sentOnAll ++ msgs := by
  have hold : ∀ i ∈ List.range l.current,
      ((l.setConnection l.current c).connection i).sent = (l.connection i).sent := fun i hi => by
    rw [connection_setConnection, if_neg (List.mem_range.mp hi).ne]
  change (List.range (l.current + 1)).flatMap
    (fun i => ((l.setConnection l.current c).connection i).sent) = _
  rw [sentOnAll, List.range_succ, List.flatMap_append, List.flatMap_append,
    List.flatMap_congr hold]
  simp [connection_setConnection, h]

theorem sentOnAll_connect (l : Link) : l.connect.sentOnAll = l.sentOnAll := by
  have hold : ∀ i ∈ List.range (l.current + 1),
      (l.connect.connection i).sent = (l.connection i).sent := fun i hi => by
    rw [connection_connect, if_neg (List.mem_range.mp hi).ne]
  change (List.range (l.current + 1 + 1)).flatMap (fun i => (l.connect.connection i).sent) = _
  rw [sentOnAll, List.range_succ, List.flatMap_append, List.flatMap_congr hold]
  simp [connection_connect, Connection.idle]

theorem conveys_start (F : Framing) (P : Codec Message) : Conveys F P start where
  task := ⟨[], rfl⟩
  idle _ _ := rfl
  carries _ := ⟨[], carries_fresh false⟩
  whole h := by simp [start, Sender.start, Sender.up] at h
  all := rfl

section task

variable {sender : Sender} {event : Event} (h : Conveys F P l)
  (hs : l.sender.step (fun msg => some (P.encode msg)) event = some sender)

include h hs

theorem Conveys.exec : ∃ events,
    (TcpTransport.machine fun msg => some (P.encode msg)).exec .start events = some sender := by
  obtain ⟨events, he⟩ := h.task
  refine ⟨events ++ [event], ?_⟩
  rw [Machine.exec_append, he]
  simp [Machine.exec, TcpTransport.machine, hs]

/-- The streams are left alone. -/
theorem Conveys.keep (hsent : sender.sent = l.sender.sent)
    (hup : sender.up = true → l.sender.up = true) : Conveys F P { l with sender } :=
  ⟨h.exec hs, h.idle, h.carries, fun hu => h.whole (hup hu), h.all.trans (by rw [hsent])⟩

/-- A new stream. -/
theorem Conveys.connect (hsent : sender.sent = l.sender.sent) :
    Conveys F P ({ l with sender }.connect) := by
  have hnew : l.receivedOn (l.current + 1) = [] := by
    obtain ⟨tail, hc⟩ := h.carries (l.current + 1)
    obtain ⟨m, -, hgot, -⟩ := hc.rest
    rw [hgot, h.idle _ (Nat.lt_succ_self _)]
    exact List.take_nil
  have hfresh : Carries F P ({ l with sender }.connect.connection (l.current + 1))
      (l.receivedOn (l.current + 1)) [] := by
    rw [connection_connect, if_pos rfl, hnew]
    exact carries_fresh true
  refine ⟨h.exec hs, fun i hi => ?_, fun i => ?_, fun _ => hfresh, ?_⟩
  · have hi : l.current + 1 < i := hi
    rw [connection_connect, if_neg hi.ne']
    exact h.idle i (Nat.lt_of_succ_lt hi)
  · by_cases hi : i = l.current + 1
    · exact ⟨[], hi ▸ hfresh⟩
    · rw [connection_connect, if_neg hi]
      exact h.carries i
  · rw [sentOnAll_connect]
    exact h.all.trans (congrArg _ hsent.symm)

/-- A message on the last stream, or what a failed `send` has written of one. -/
theorem Conveys.write {c : Connection} {msgs : List Message} {tail : Bytes}
    (hc : Carries F P c (l.receivedOn l.current) tail) (hwhole : sender.up = true → tail = [])
    (hsent : c.sent = (l.connection l.current).sent ++ msgs)
    (hall : sender.sent.map Prod.fst = l.sender.sent.map Prod.fst ++ msgs) :
    Conveys F P ({ l with sender }.setConnection l.current c) := by
  have hcurrent : Carries F P (({ l with sender }.setConnection l.current c).connection l.current)
      (l.receivedOn l.current) tail := by
    rwa [connection_setConnection, if_pos rfl]
  refine ⟨h.exec hs, fun i hi => ?_, fun i => ?_, fun hu => hwhole hu ▸ hcurrent, ?_⟩
  · have hi : l.current < i := hi
    rw [connection_setConnection, if_neg hi.ne']
    exact h.idle i hi
  · by_cases hi : i = l.current
    · exact ⟨tail, hi ▸ hcurrent⟩
    · rw [connection_setConnection, if_neg hi]
      exact h.carries i
  · have hstreams := sentOnAll_setConnection { l with sender } hsent
    exact hstreams.trans ((congrArg (· ++ msgs) h.all).trans hall.symm)

/-- An event of the sender task. -/
theorem Conveys.carry {written : ℕ}
    (hcarry : { l with sender }.carry F P event l.sender.inFlight written = some l') :
    Conveys F P l' := by
  obtain ⟨-, hsent, hup⟩ := Sender.step_ends hs
  unfold Link.carry at hcarry
  dsimp only at hcarry
  split at hcarry
  · -- a new stream
    cases hcarry
    exact h.connect hs (by simpa using hsent)
  · -- a message is sent
    rename_i msg hflight
    obtain ⟨frame, he, rfl⟩ := Option.map_eq_some_iff.mp hcarry
    have hwhole := h.whole (Sender.up_of_inFlight hflight)
    refine h.write hs (hwhole.send he) (fun _ => rfl) rfl ?_
    rw [hsent, if_pos rfl, hflight, List.map_append]
    rfl
  · -- or cut
    rename_i msg hflight
    have hwhole := h.whole (Sender.up_of_inFlight hflight)
    have hsent : sender.sent = l.sender.sent := by simpa using hsent
    have hdown : sender.up = false := Bool.eq_false_iff.mpr fun hu => by simpa using hup hu
    split at hcarry
    · cases hcarry
      exact h.keep hs hsent fun hu => by simp [hdown] at hu
    · rename_i frame he
      split_ifs at hcarry with hlt
      cases hcarry
      exact h.write hs (hwhole.cut he hlt) (fun hu => by simp [hdown] at hu)
        (List.append_nil _).symm (by rw [hsent, List.append_nil])
  · -- the other events are not about a stream
    rename_i hconnect hsend _
    cases hcarry
    refine h.keep hs ?_ fun hu => ((hup hu).resolve_left hconnect).1
    rw [hsent]
    split_ifs with he
    · rw [Option.eq_none_iff_forall_not_mem.mpr fun msg hmsg => hsend msg he hmsg]
      exact List.append_nil _
    · exact List.append_nil _

end task

/-- Bytes arrive, or the end of a stream. The sender has no part in it. -/
theorem Conveys.other {c : Connection} {msgs : List Message} (h : Conveys F P l)
    (hi : i ≤ l.current) (hsent : c.sent = (l.connection i).sent)
    (hc : ∀ tail, Carries F P (l.connection i) (l.receivedOn i) tail →
      Carries F P c (l.receivedOn i ++ msgs) tail) :
    Conveys F P { l.setConnection i c with
      received := l.received ++ msgs.map fun msg => (i, msg) } := by
  have hcarries : ∀ j tail, Carries F P (l.connection j) (l.receivedOn j) tail →
      Carries F P ((l.setConnection i c).connection j)
        ({ l with received := l.received ++ msgs.map fun msg => (i, msg) }.receivedOn j) tail := by
    intro j tail hj
    rw [connection_setConnection, receivedOn_append]
    by_cases hij : i = j
    · subst hij
      rw [if_pos rfl, if_pos rfl]
      exact hc tail hj
    · rwa [if_neg (Ne.symm hij), if_neg hij, List.append_nil]
  refine ⟨h.task, fun j hj => ?_, fun j => ?_, fun hu => hcarries _ _ (h.whole hu), ?_⟩
  · have hj : l.current < j := hj
    exact (connection_setConnection l i j c).trans ((if_neg (by omega)).trans (h.idle j hj))
  · obtain ⟨tail, hj⟩ := h.carries j
    exact ⟨tail, hcarries j tail hj⟩
  · refine Eq.trans (List.flatMap_congr fun j _ => ?_) h.all
    change ((l.setConnection i c).connection j).sent = _
    rw [connection_setConnection]
    split_ifs with hji
    · rw [hsent, hji]
    · rfl

theorem conveys_step {event : LinkEvent} (h : Conveys F P l)
    (hs : (machine F P).step l event = some l') : Conveys F P l' := by
  have hreading : ∀ i, (l.connection i).reading = true → i ≤ l.current := fun i hr => by
    by_contra hi
    rw [h.idle i (Nat.not_le.mp hi)] at hr
    cases hr
  cases event with
  | task event written =>
    obtain ⟨sender, hsender, hcarry⟩ := Option.bind_eq_some_iff.mp hs
    exact h.carry hsender hcarry
  | arrive i n =>
    change (if _ then some (l.read F P i n) else none) = some l' at hs
    split_ifs at hs with hr
    cases hs
    obtain ⟨_, hc⟩ := h.carries i
    obtain ⟨bodies, left, hdrain, -⟩ := hc.read n
    have hread : l.read F P i n = { l.setConnection i { l.connection i with
        wire := (l.connection i).wire.drop n
        buffer := left
        reading := true } with
        received := l.received ++ (bodies.filterMap P.decode).map fun msg => (i, msg) } := by
      rw [Link.read, hdrain]
      rfl
    rw [hread]
    refine h.other (hreading i hr.1) rfl fun tail hc => ?_
    obtain ⟨bodies', left', hdrain', hcarries⟩ := hc.read n
    cases hdrain.symm.trans hdrain'
    exact hcarries
  | finish i =>
    change (if _ then some _ else none) = some l' at hs
    split_ifs at hs with hr
    cases hs
    have hclosed : ∀ tail, Carries F P (l.connection i) (l.receivedOn i) tail →
        Carries F P { l.connection i with reading := false } (l.receivedOn i ++ []) tail := by
      intro tail hc
      rw [List.append_nil]
      exact ⟨hc.fits, hc.part, hc.torn, hc.rest⟩
    have hsent : ({ l.connection i with reading := false } : Connection).sent =
        (l.connection i).sent := rfl
    have hkeep := h.other (hreading i hr) hsent hclosed
    rwa [List.map_nil, List.append_nil] at hkeep

theorem conveys_run (h : (machine F P).Run (fun _ _ => True) start l) : Conveys F P l :=
  h.invariant (conveys_start F P) fun _ _ _ h _ hs => conveys_step h hs

/-! ## The receiving channel -/

/-- What was received is, up to the order of the streams, what was received stream by stream. -/
theorem received_perm (l : Link) (n : ℕ) :
    ((l.received.filter fun r => r.1 < n).map Prod.snd).Perm
      ((List.range n).flatMap l.receivedOn) := by
  induction n with
  | zero => simp
  | succ n ih =>
    have hsplit := (List.filter_append_perm (fun r : ℕ × Message => r.1 < n)
      (l.received.filter fun r => r.1 < n + 1)).map Prod.snd
    have hbelow : (l.received.filter fun r => r.1 < n + 1).filter (fun r => r.1 < n) =
        l.received.filter fun r => r.1 < n := by
      rw [List.filter_filter]
      refine List.filter_congr fun r _ => ?_
      rw [Bool.eq_iff_iff, Bool.and_eq_true, decide_eq_true_iff, decide_eq_true_iff]
      omega
    have hlast : (l.received.filter fun r => r.1 < n + 1).filter (fun r => !decide (r.1 < n)) =
        l.received.filter fun r => r.1 = n := by
      rw [List.filter_filter]
      refine List.filter_congr fun r _ => ?_
      rw [Bool.eq_iff_iff, Bool.and_eq_true, Bool.not_eq_true', decide_eq_false_iff_not,
        decide_eq_true_iff, decide_eq_true_iff]
      omega
    rw [hbelow, hlast, List.map_append] at hsplit
    rw [List.range_succ, List.flatMap_append, List.flatMap_singleton]
    exact hsplit.symm.trans (ih.append_right _)

theorem sublist_flatMap {f g : ℕ → List Message} (h : ∀ i, (f i).Sublist (g i)) :
    ∀ is : List ℕ, (is.flatMap f).Sublist (is.flatMap g)
  | [] => List.Sublist.refl _
  | i :: is => (h i).append (sublist_flatMap h is)

theorem Conveys.begins (h : Conveys F P l) (i : ℕ) :
    l.receivedOn i <+: (l.connection i).sent := by
  obtain ⟨tail, hc⟩ := h.carries i
  obtain ⟨m, -, hgot, -⟩ := hc.rest
  exact hgot ▸ List.take_prefix m _

/-- Of the messages put into the channel of the task every one is received at most once. -/
theorem Conveys.subperm (h : Conveys F P l) :
    (l.received.map Prod.snd).Subperm l.sender.enqueued := by
  obtain ⟨events, hexec⟩ := h.task
  have hall : l.received.filter (fun r => r.1 < l.current + 1) = l.received := by
    refine List.filter_eq_self.mpr fun r hr => decide_eq_true ?_
    by_contra hlt
    have hon : r.2 ∈ l.receivedOn r.1 :=
      List.mem_map_of_mem (List.mem_filter.mpr ⟨hr, decide_eq_true rfl⟩)
    have hsent := (h.begins r.1).subset hon
    rw [h.idle r.1 (by omega)] at hsent
    cases hsent
  have hperm := l.received_perm (l.current + 1)
  rw [hall] at hperm
  have hsub : ((List.range (l.current + 1)).flatMap l.receivedOn).Sublist l.sentOnAll :=
    sublist_flatMap (fun i => (h.begins i).sublist) _
  rw [h.all] at hsub
  exact hperm.subperm.trans (hsub.trans (accounted hexec).ordered.delivered_sublist).subperm

/-- In every run each stream hands on, in order and unchanged, a prefix of the messages sent on
it, and all of them once all its bytes have arrived. The streams together were sent what the
sender task has sent, so of the messages put into its channel every one is received at most
once. -/
theorem received_once (h : (machine F P).Run (fun _ _ => True) start l) :
    (∀ i, l.receivedOn i <+: (l.connection i).sent ∧
      ((l.connection i).wire = [] → l.receivedOn i = (l.connection i).sent)) ∧
      l.sentOnAll = l.sender.sent.map Prod.fst ∧
      (l.received.map Prod.snd).Subperm l.sender.enqueued := by
  have hl := conveys_run h
  refine ⟨fun i => ⟨hl.begins i, fun hwire => ?_⟩, hl.all, hl.subperm⟩
  obtain ⟨tail, hc⟩ := hl.carries i
  obtain ⟨m, -, hgot, hrest⟩ := hc.rest
  have htorn := hc.torn
  rw [hwire, List.append_nil] at hrest
  rw [← hrest] at htorn
  have hnil := Framing.eq_nil_of_torn (fun body hbody => hc.fits body
    (List.map_subset _ (List.drop_subset m _) hbody)) htorn
  rw [List.map_eq_nil_iff, List.drop_eq_nil_iff] at hnil
  rw [hgot, List.take_of_length_le hnil]

/-- The frames of `LengthDelimitedCodec::new` : four bytes of length, up to 8 MiB. -/
def lengthDelimited : Framing :=
  .lengthDelimited 4 (8 * 1024 * 1024) (by decide) (by decide)

/-- A second message is cut and sent again on a new stream. It arrives before the first one. -/
def overtaken : List LinkEvent :=
  [.task (.enqueue (.requestVote ⟨1, 1, 0, 0⟩)) 0, .task .fire 0, .task (.connect true) 0,
    .task .recv 0, .task (.send true) 0, .arrive 1 3,
    .task (.enqueue (.requestVote ⟨2, 1, 0, 0⟩)) 0, .task .recv 0, .task (.send false) 5,
    .task .fire 0, .task (.connect true) 0, .task (.send true) 0, .arrive 2 9, .arrive 1 9,
    .arrive 1 2, .finish 1]

theorem received_once_overtaken :
    ∃ l, (machine lengthDelimited Message.wire.codec).Run (fun _ _ => True) start l ∧
      l.received = [(2, .requestVote ⟨2, 1, 0, 0⟩), (1, .requestVote ⟨1, 1, 0, 0⟩)] ∧
      (l.received.map Prod.snd).Subperm
        [.requestVote ⟨1, 1, 0, 0⟩, .requestVote ⟨2, 1, 0, 0⟩] := by
  obtain ⟨l, hl, hreceived, henqueued⟩ :=
    (machine lengthDelimited Message.wire.codec).exists_run_of_exec (fun _ _ => True) start
      overtaken (fun l =>
        l.received = [(2, .requestVote ⟨2, 1, 0, 0⟩), (1, .requestVote ⟨1, 1, 0, 0⟩)] ∧
        l.sender.enqueued = [.requestVote ⟨1, 1, 0, 0⟩, .requestVote ⟨2, 1, 0, 0⟩])
      (by decide +kernel) (Machine.execOk_true _ _)
  exact ⟨l, hl, hreceived, henqueued ▸ (received_once hl).2.2⟩

end Link

end TcpTransport

end FerrisFerry
