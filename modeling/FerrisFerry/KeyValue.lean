import FerrisFerry.Arrivals
import FerrisFerry.Wire

/-!
# The key-value server

A node of `raft-kv/src/main.rs` : the task of the event loop, the apply task and the handlers
of the HTTP requests, each a sequence of steps that fall between those of the others. They meet
in the channels : proposals and read requests on their way to the event loop, a `oneshot` for
each answer, and the applied channel, from which the apply task takes one entry after the other
into the store.

`KvNode.Move` says what a step can do to the node and `KvNode.Progress` what it can do to one
handler.

A `String` is its bytes.
-/

namespace FerrisFerry

/-! ## Commands and the store -/

inductive KvCommand where
  | get (key : Bytes)
  | set (key value : Bytes)
  | delete (key : Bytes)
deriving DecidableEq, Repr

/-- The key a command writes to. -/
def KvCommand.target : KvCommand → Option Bytes
  | .get _ => none
  | .set key _ | .delete key => some key

/-- `HashMap<String, String>`. -/
abbrev Store := AList fun _ : Bytes => Bytes

/-- The serialization of commands and of the store. -/
structure KvFormat where
  command : Codec KvCommand
  store : Codec Store

/-- A variant behind its number. -/
def KvCommand.wire : Wire KvCommand where
  write
    | .get key => 0 :: Wire.bytes.write key
    | .set key value => 1 :: (Wire.bytes.pair Wire.bytes).write (key, value)
    | .delete key => 2 :: Wire.bytes.write key
  read
    | [] => none
    | b :: bs =>
      if b = 0 then (Wire.bytes.read bs).map fun r => (.get r.1, r.2)
      else if b = 1 then ((Wire.bytes.pair Wire.bytes).read bs).map fun r => (.set r.1.1 r.1.2, r.2)
      else if b = 2 then (Wire.bytes.read bs).map fun r => (.delete r.1, r.2)
      else none
  read_write c rest := by
    cases c with
    | get key | delete key => simp [Wire.bytes.read_write]
    | set key value => simp [(Wire.bytes.pair Wire.bytes).read_write]

/-- The keys and values that are inserted one after the other. -/
def storeOf (items : List (Bytes × Bytes)) : Store :=
  items.foldl (fun store item => store.insert item.1 item.2) ∅

def items (store : Store) : List (Bytes × Bytes) :=
  (store.entries.map fun e => (e.1, e.2)).reverse

theorem storeOf_items (store : Store) : storeOf (items store) = store := by
  rw [storeOf, items, List.foldl_reverse, List.foldr_map]
  induction store using AList.insertRec with
  | H0 => rfl
  | IH key value store hk ih =>
    rw [AList.entries_insert_of_notMem hk, List.foldr_cons, ih]

namespace KvFormat

/-- postcard, on commands and on the store. -/
def postcard : KvFormat where
  command := KvCommand.wire.codec
  store := ((Wire.bytes.pair Wire.bytes).list.record storeOf items storeOf_items).codec

variable (fmt : KvFormat)

/-- The apply task on an entry. A command that does not deserialize is skipped, a snapshot that
does not is a panic. -/
def receive (store : Store) : AppliedEntry → Option Store
  | .command command =>
    match fmt.command.decode command with
    | none | some (.get _) => some store
    | some (.set key value) => some (store.insert key value)
    | some (.delete key) => some (store.erase key)
  | .snapshot data => fmt.store.decode data
  | .snapshotRequest => some store

/-- The store after everything received since the start. -/
def storeAfter (received : List AppliedEntry) : Option Store :=
  received.foldlM fmt.receive ∅

/-- The answer to a `SnapshotRequest`. -/
def answer (received : List AppliedEntry) : Bytes :=
  ((fmt.storeAfter received).map fmt.store.encode).getD []

/-- An entry of the applied channel writes to a key. -/
def Writes (key : Bytes) : AppliedEntry → Prop
  | .command command => (fmt.command.decode command).bind KvCommand.target = some key
  | .snapshot _ | .snapshotRequest => False

instance (key : Bytes) : (entry : AppliedEntry) → Decidable (fmt.Writes key entry)
  | .command command =>
    inferInstanceAs (Decidable ((fmt.command.decode command).bind KvCommand.target = some key))
  | .snapshot _ | .snapshotRequest => inferInstanceAs (Decidable False)

end KvFormat

/-! ## Handlers -/

inductive KvCall where
  | set (key value : Bytes)
  | get (key : Bytes)
  | delete (key : Bytes)
deriving DecidableEq, Repr

/-- The command a handler proposes; a read proposes none. -/
def KvCall.command : KvCall → Option KvCommand
  | .set key value => some (.set key value)
  | .get _ => none
  | .delete key => some (.delete key)

structure KvRequest where
  /-- The path of the URI. -/
  path : String
  call : KvCall
deriving DecidableEq, Repr

inductive KvError where
  | redirect (url : String)
  | noLeader
  | uncertain
deriving DecidableEq, Repr

/-- `SetResponse` and `DeleteResponse` with `success`, `GetResponse`, or an error. -/
inductive KvResponse where
  | success
  | value (value : Option Bytes)
  | error (error : KvError)
deriving DecidableEq, Repr

def mapProposalError (httpAddrs : AList fun _ : NodeId => String) (path : String) :
    ProposalError → KvError
  | .followerNode (some id) =>
    match httpAddrs.lookup id with
    | some addr => .redirect ("http://" ++ addr ++ path)
    | none => .noLeader
  | .followerNode none => .noLeader
  | .lostLeadership => .uncertain

/-- How far a handler has come. -/
inductive Handler where
  | idle
  | started (request : KvRequest)
  /-- Its proposal or read request is with the event loop. -/
  | waiting (request : KvRequest)
  /-- The answer is in the `oneshot`. -/
  | answered (request : KvRequest) (error : Option ProposalError)
  | returned (request : KvRequest) (response : KvResponse)
deriving DecidableEq

def Handler.request : Handler → Option KvRequest
  | .idle => none
  | .started request | .waiting request | .answered request _ | .returned request _ => some request

/-! ## The node -/

structure KvNode where
  session : Session
  /-- What the event loop has still to do of the event it handles. -/
  todo : List Effect
  /-- The applied channel. -/
  applied : List AppliedEntry
  /-- Everything the event loop has sent on it. -/
  sent : List AppliedEntry
  /-- The entry the apply task has received and not applied yet. -/
  inHand : Option AppliedEntry
  store : Store
  proposals : List (Bytes × Channel)
  reads : List Channel
  handlers : AList fun _ : Channel => Handler

inductive KvInput where
  /-- An HTTP request comes. -/
  | start (channel : Channel) (request : KvRequest)
  /-- A handler sends its proposal or read request. -/
  | submit (channel : Channel)
  /-- A handler goes on with its answer. -/
  | resume (channel : Channel)
  | tick (rnd : ℕ)
  | propose
  | read
  | message (msg : Message) (rnd : ℕ)
  /-- The event loop does the next effect of the event it handles. -/
  | effect
  /-- The apply task receives an entry. -/
  | recv
  /-- The apply task applies the entry it has received. -/
  | apply

namespace KvNode

/-- `RaftNode::CHANNEL_BUFFER`. -/
def channelBuffer : ℕ := 1024

section step

variable (fmt : KvFormat) (httpAddrs : AList fun _ : NodeId => String) (s : KvNode)

/-- The handler of a request, by the channel it waits on. -/
def handler (channel : Channel) : Handler :=
  (s.handlers.lookup channel).getD .idle

def setHandler (channel : Channel) (handler : Handler) : KvNode :=
  { s with handlers := s.handlers.insert channel handler }

theorem setHandler_self (channel : Channel) (handler : Handler) :
    (s.setHandler channel handler).handler channel = handler := by
  simp only [KvNode.handler, setHandler, AList.lookup_insert, Option.getD_some]

theorem setHandler_of_ne {channel channel' : Channel} (h : channel' ≠ channel) (handler : Handler) :
    (s.setHandler channel handler).handler channel' = s.handler channel' := by
  simp only [KvNode.handler, setHandler, AList.lookup_insert_ne h]

/-- `propose` and `read_request` up to the answer. -/
def submit (channel : Channel) (request : KvRequest) : Option KvNode :=
  match request.call.command with
  | some command =>
    if s.proposals.length < channelBuffer then
      some { s.setHandler channel (.waiting request) with
        proposals := s.proposals ++ [(fmt.command.encode command, channel)] }
    else none
  | none =>
    if s.reads.length < channelBuffer then
      some { s.setHandler channel (.waiting request) with reads := s.reads ++ [channel] }
    else none

/-- What a handler returns. A reader that is let through reads the store. -/
def response (request : KvRequest) : Option ProposalError → KvResponse
  | some error => .error (mapProposalError httpAddrs request.path error)
  | none =>
    match request.call with
    | .set _ _ | .delete _ => .success
    | .get key => .value (s.store.lookup key)

/-- One turn of the event loop, up to its first effect. -/
def turn (event : RaftDriver.Event) (rnd : ℕ) : Option KvNode :=
  if s.todo = [] then
    ((Session.machine fmt.answer).step s.session (event, rnd)).map fun session =>
      { s with
        session := session
        todo := (s.session.driver.handleEvent fmt.answer rnd event).1 }
  else none

/-- What has been sent to the apply task and is not applied yet. -/
def underway : List AppliedEntry :=
  s.inHand.toList ++ s.applied

/-- The event loop waits for the answer to a `SnapshotRequest`. -/
def Blocked : Prop :=
  .snapshotRequest ∈ s.underway

instance : Decidable s.Blocked :=
  inferInstanceAs (Decidable (_ ∈ _))

/-- The next effect. A full channel makes the event loop wait; an answer to a handler that has
gone is lost. -/
def perform (effect : Effect) : Option KvNode :=
  match effect with
  | .store _ | .send _ _ => some s
  | .apply entry =>
    if s.applied.length < channelBuffer then
      some { s with applied := s.applied ++ [entry], sent := s.sent ++ [entry] }
    else none
  | .respond channel error =>
    match s.handler channel with
    | .waiting request => some (s.setHandler channel (.answered request error))
    | _ => some s

end step

/-- Any interleaving of the tasks. A turn in which the event loop panics is not taken : nobody
is answered after it. -/
def machine (fmt : KvFormat) (httpAddrs : AList fun _ : NodeId => String) :
    Machine KvNode KvInput where
  step s
    | .start channel request =>
      match s.handler channel with
      | .idle => some (s.setHandler channel (.started request))
      | _ => none
    | .submit channel =>
      match s.handler channel with
      | .started request => s.submit fmt channel request
      | _ => none
    | .resume channel =>
      match s.handler channel with
      | .answered request error =>
        some (s.setHandler channel (.returned request (s.response httpAddrs request error)))
      | _ => none
    | .tick rnd => s.turn fmt .tick rnd
    | .propose =>
      match s.proposals with
      | [] => none
      | (command, channel) :: proposals =>
        { s with proposals := proposals }.turn fmt (.propose command channel) 0
    | .read =>
      match s.reads with
      | [] => none
      | channel :: reads => { s with reads := reads }.turn fmt (.read channel) 0
    | .message msg rnd => s.turn fmt (.message msg) rnd
    | .effect =>
      match s.todo with
      | [] => none
      | effect :: todo => if s.Blocked then none else { s with todo := todo }.perform effect
    | .recv =>
      match s.inHand, s.applied with
      | none, entry :: applied => some { s with inHand := some entry, applied := applied }
      | _, _ => none
    | .apply =>
      match s.inHand with
      | none => none
      | some entry => (fmt.receive s.store entry).map fun store =>
        { s with inHand := none, store := store }

/-- A node as `main` starts it. -/
def boot (driver : RaftDriver) : KvNode where
  session := Session.start driver
  todo := []
  applied := []
  sent := []
  inHand := none
  store := ∅
  proposals := []
  reads := []
  handlers := ∅

/-! ## Steps -/

variable {fmt : KvFormat} {httpAddrs : AList fun _ : NodeId => String} {s s' : KvNode}
  {input : KvInput} {ch : Channel} {e : RaftDriver.Event} {rnd : ℕ}

/-- The event a step of the event loop handles. -/
def event (s : KvNode) : KvInput → Option RaftDriver.Event
  | .tick _ => some .tick
  | .propose => s.proposals.head?.map fun p => .propose p.1 p.2
  | .read => s.reads.head?.map .read
  | .message msg _ => some (.message msg)
  | _ => none

theorem mem_of_event_propose {command : Bytes} (h : s.event input = some (.propose command ch)) :
    (command, ch) ∈ s.proposals := by
  cases input with
  | propose =>
    obtain ⟨p, hp, heq⟩ := Option.map_eq_some_iff.mp h
    obtain ⟨rfl, rfl⟩ := RaftDriver.Event.propose.inj heq
    exact List.mem_of_head? hp
  | read =>
    obtain ⟨p, -, heq⟩ := Option.map_eq_some_iff.mp h
    cases heq
  | _ => cases h

theorem mem_of_event_read (h : s.event input = some (.read ch)) : ch ∈ s.reads := by
  cases input with
  | propose =>
    obtain ⟨p, -, heq⟩ := Option.map_eq_some_iff.mp h
    cases heq
  | read =>
    obtain ⟨p, hp, heq⟩ := Option.map_eq_some_iff.mp h
    obtain rfl := RaftDriver.Event.read.inj heq
    exact List.mem_of_head? hp
  | _ => cases h

/-- What has been sent to the apply task, or is to be in the current turn. -/
def due (s : KvNode) : List AppliedEntry :=
  s.sent ++ s.todo.filterMap Effect.entry

/-- Between two events, whatever is due has been sent. -/
theorem due_of_idle (h : s.todo = []) : s.due = s.sent := by
  rw [due, h]
  exact List.append_nil _

/-- What a step can do. -/
inductive Move (fmt : KvFormat) (httpAddrs : AList fun _ : NodeId => String) (s : KvNode) :
    KvInput → KvNode → Prop
  | start {ch : Channel} {request : KvRequest} (h : s.handler ch = .idle) :
    Move fmt httpAddrs s (.start ch request) (s.setHandler ch (.started request))
  | propose {ch : Channel} {request : KvRequest} {command : KvCommand}
    (h : s.handler ch = .started request) (hc : request.call.command = some command) :
    Move fmt httpAddrs s (.submit ch) { s.setHandler ch (.waiting request) with
      proposals := s.proposals ++ [(fmt.command.encode command, ch)] }
  | readRequest {ch : Channel} {request : KvRequest} (h : s.handler ch = .started request)
    (hc : request.call.command = none) :
    Move fmt httpAddrs s (.submit ch)
      { s.setHandler ch (.waiting request) with reads := s.reads ++ [ch] }
  | resume {ch : Channel} {request : KvRequest} {error : Option ProposalError}
    (h : s.handler ch = .answered request error) :
    Move fmt httpAddrs s (.resume ch)
      (s.setHandler ch (.returned request (s.response httpAddrs request error)))
  | turn {input : KvInput} {e : RaftDriver.Event} {rnd : ℕ} {session : Session}
    {proposals : List (Bytes × Channel)} {reads : List Channel}
    (he : s.event input = some e) (hp : proposals ⊆ s.proposals) (hr : reads ⊆ s.reads)
    (hidle : s.todo = [])
    (hs : (Session.machine fmt.answer).step s.session (e, rnd) = some session) :
    Move fmt httpAddrs s input { s with
      session := session
      todo := (s.session.driver.handleEvent fmt.answer rnd e).1
      proposals := proposals
      reads := reads }
  | outward {effect : Effect} {todo : List Effect} (h : s.todo = effect :: todo)
    (he : effect.entry = none) : Move fmt httpAddrs s .effect { s with todo := todo }
  | respond {ch : Channel} {error : Option ProposalError} {todo : List Effect} {request : KvRequest}
    (h : s.todo = .respond ch error :: todo) (hw : s.handler ch = .waiting request) :
    Move fmt httpAddrs s .effect
      ({ s with todo := todo }.setHandler ch (.answered request error))
  | deliver {entry : AppliedEntry} {todo : List Effect} (h : s.todo = .apply entry :: todo) :
    Move fmt httpAddrs s .effect
      { s with todo := todo, applied := s.applied ++ [entry], sent := s.sent ++ [entry] }
  | recv {entry : AppliedEntry} {applied : List AppliedEntry} (hn : s.inHand = none)
    (h : s.applied = entry :: applied) :
    Move fmt httpAddrs s .recv { s with inHand := some entry, applied := applied }
  | apply {entry : AppliedEntry} {store : Store} (hn : s.inHand = some entry)
    (h : fmt.receive s.store entry = some store) :
    Move fmt httpAddrs s .apply { s with inHand := none, store := store }

theorem move_of_turn {proposals : List (Bytes × Channel)} {reads : List Channel}
    (he : s.event input = some e) (hp : proposals ⊆ s.proposals) (hr : reads ⊆ s.reads)
    (h : { s with proposals := proposals, reads := reads }.turn fmt e rnd = some s') :
    Move fmt httpAddrs s input s' := by
  unfold turn at h
  split_ifs at h with hidle
  obtain ⟨session, hs, rfl⟩ := Option.map_eq_some_iff.mp h
  exact .turn he hp hr hidle hs

theorem move_of_perform {effect : Effect} {todo : List Effect} (he : s.todo = effect :: todo)
    (h : { s with todo := todo }.perform effect = some s') :
    Move fmt httpAddrs s .effect s' := by
  cases effect with
  | store | send =>
    obtain rfl := Option.some.inj h
    exact .outward he rfl
  | apply entry =>
    simp only [perform] at h
    split_ifs at h
    obtain rfl := Option.some.inj h
    exact .deliver he
  | respond channel error =>
    simp only [perform] at h
    split at h
    next request hw =>
      obtain rfl := Option.some.inj h
      exact .respond he hw
    next =>
      obtain rfl := Option.some.inj h
      exact .outward he rfl

theorem move_of_submit {request : KvRequest} (hst : s.handler ch = .started request)
    (h : s.submit fmt ch request = some s') : Move fmt httpAddrs s (.submit ch) s' := by
  unfold submit at h
  split at h
  next command hc =>
    split_ifs at h
    obtain rfl := Option.some.inj h
    exact .propose hst hc
  next hc =>
    split_ifs at h
    obtain rfl := Option.some.inj h
    exact .readRequest hst hc

theorem move_of_step (h : (machine fmt httpAddrs).step s input = some s') :
    Move fmt httpAddrs s input s' := by
  cases input with
  | start channel request =>
    simp only [machine] at h
    split at h
    next hi =>
      obtain rfl := Option.some.inj h
      exact .start hi
    next => cases h
  | submit channel =>
    simp only [machine] at h
    split at h
    next request hst => exact move_of_submit hst h
    next => cases h
  | resume channel =>
    simp only [machine] at h
    split at h
    next request error ha =>
      obtain rfl := Option.some.inj h
      exact .resume ha
    next => cases h
  | tick rnd => exact move_of_turn rfl (List.Subset.refl _) (List.Subset.refl _) h
  | propose =>
    simp only [machine] at h
    split at h
    next => cases h
    next command channel proposals hp =>
      refine move_of_turn (e := .propose command channel) ?_ ?_ (List.Subset.refl _) h
      · rw [event, hp]
        rfl
      · rw [hp]
        exact List.subset_cons_self _ _
  | read =>
    simp only [machine] at h
    split at h
    next => cases h
    next channel reads hr =>
      refine move_of_turn (e := .read channel) ?_ (List.Subset.refl _) ?_ h
      · rw [event, hr]
        rfl
      · rw [hr]
        exact List.subset_cons_self _ _
  | message msg rnd => exact move_of_turn rfl (List.Subset.refl _) (List.Subset.refl _) h
  | effect =>
    simp only [machine] at h
    split at h
    next => cases h
    next effect todo he =>
      split_ifs at h
      exact move_of_perform he h
  | recv =>
    simp only [machine] at h
    split at h
    next entry applied hn ha =>
      obtain rfl := Option.some.inj h
      exact .recv hn ha
    next => cases h
  | apply =>
    simp only [machine] at h
    split at h
    next => cases h
    next entry hn =>
      obtain ⟨store, hst, rfl⟩ := Option.map_eq_some_iff.mp h
      exact .apply hn hst

/-- Only a turn of the event loop touches the driver. -/
theorem Move.turn_or_steady (h : Move fmt httpAddrs s input s') :
    (∃ e rnd, s.event input = some e ∧ s.todo = [] ∧
      (Session.machine fmt.answer).step s.session (e, rnd) = some s'.session ∧
      s'.todo = (s.session.driver.handleEvent fmt.answer rnd e).1 ∧ s'.sent = s.sent) ∨
    (s'.session = s.session ∧ s'.due = s.due ∧ s'.todo ⊆ s.todo ∧ s.sent ⊆ s'.sent) := by
  cases h with
  | turn he _ _ hidle hs => exact Or.inl ⟨_, _, he, hidle, hs, rfl, rfl⟩
  | start | propose | readRequest | resume | recv | apply =>
    exact Or.inr ⟨rfl, rfl, List.Subset.refl _, List.Subset.refl _⟩
  | outward h he =>
    refine Or.inr ⟨rfl, ?_, ?_, List.Subset.refl _⟩
    · rw [due, due, h, List.filterMap_cons_none he]
    · rw [h]
      exact List.subset_cons_self _ _
  | respond h =>
    refine Or.inr ⟨rfl, ?_, ?_, List.Subset.refl _⟩
    · rw [due, due, h]
      rfl
    · rw [h]
      exact List.subset_cons_self _ _
  | deliver h =>
    refine Or.inr ⟨rfl, ?_, ?_, List.subset_append_left _ _⟩
    · rw [due, due, h]
      exact List.append_assoc _ _ _
    · rw [h]
      exact List.subset_cons_self _ _

/-- What a step can do to a handler. -/
inductive Progress (httpAddrs : AList fun _ : NodeId => String) (s : KvNode) (input : KvInput)
    (ch : Channel) : Handler → Handler → Prop
  | stay {handler : Handler} : Progress httpAddrs s input ch handler handler
  | start {request : KvRequest} : Progress httpAddrs s input ch .idle (.started request)
  | submit {request : KvRequest} :
    Progress httpAddrs s input ch (.started request) (.waiting request)
  | respond {request : KvRequest} {error : Option ProposalError} (h : .respond ch error ∈ s.todo) :
    Progress httpAddrs s input ch (.waiting request) (.answered request error)
  | resume {request : KvRequest} {error : Option ProposalError} (h : input = .resume ch) :
    Progress httpAddrs s input ch (.answered request error)
      (.returned request (s.response httpAddrs request error))

theorem progress_setHandler {ch' : Channel} {old new : Handler} (hold : s.handler ch' = old)
    (h : Progress httpAddrs s input ch' old new) :
    Progress httpAddrs s input ch (s.handler ch) ((s.setHandler ch' new).handler ch) := by
  by_cases hc : ch = ch'
  · subst hc
    rw [setHandler_self, hold]
    exact h
  · rw [setHandler_of_ne s hc]
    exact .stay

theorem Move.progress (h : Move fmt httpAddrs s input s') (ch : Channel) :
    Progress httpAddrs s input ch (s.handler ch) (s'.handler ch) := by
  cases h with
  | start h => exact progress_setHandler h .start
  | propose h | readRequest h => exact progress_setHandler h .submit
  | resume h => exact progress_setHandler h (.resume rfl)
  | respond h hw =>
    refine progress_setHandler hw (.respond ?_)
    rw [h]
    exact List.mem_cons_self
  | turn | outward | deliver | recv | apply => exact .stay

/-- What a handler has been asked stays. -/
theorem Progress.request {old new : Handler} (h : Progress httpAddrs s input ch old new)
    {request : KvRequest} (hr : old.request = some request) : new.request = some request := by
  cases h with
  | start => cases hr
  | _ => exact hr

/-- A handler that returns a value has read the store in this step, or earlier. -/
theorem Progress.value {path : String} {key : Bytes} {found : Option Bytes} {old : Handler}
    (h : Progress httpAddrs s input ch old (.returned ⟨path, .get key⟩ (.value found))) :
    old = .returned ⟨path, .get key⟩ (.value found) ∨
      input = .resume ch ∧ old = .answered ⟨path, .get key⟩ none ∧ found = s.store.lookup key := by
  generalize hnew : Handler.returned ⟨path, .get key⟩ (.value found) = new at h
  cases h with
  | stay => exact Or.inl rfl
  | start | submit | respond => cases hnew
  | @resume request error hin =>
    obtain ⟨rfl, hval⟩ := Handler.returned.inj hnew
    cases error with
    | none => exact Or.inr ⟨hin, rfl, KvResponse.value.inj hval⟩
    | some error => cases hval

end KvNode

/-- The handler has been told `Ok`. -/
def Handler.Granted : Handler → Prop
  | .answered _ none | .returned _ .success | .returned _ (.value _) => True
  | _ => False

theorem Handler.Granted.request {handler : Handler} (h : handler.Granted) :
    ∃ request, handler.request = some request := by
  cases handler with
  | idle => exact h.elim
  | _ => exact ⟨_, rfl⟩

/-- Whoever has been told `Ok` after a step was told before, or is told in it. -/
theorem KvNode.Progress.granted {httpAddrs : AList fun _ : NodeId => String} {s : KvNode}
    {input : KvInput} {ch : Channel} {old new : Handler}
    (h : KvNode.Progress httpAddrs s input ch old new) (hg : new.Granted) :
    old.Granted ∨ .respond ch none ∈ s.todo := by
  cases h with
  | stay => exact Or.inl hg
  | start | submit => exact hg.elim
  | @respond request error hm =>
    cases error with
    | none => exact Or.inr hm
    | some error => exact hg.elim
  | @resume request error =>
    cases error with
    | none => exact Or.inl trivial
    | some error => exact hg.elim

end FerrisFerry
