import FerrisFerry.Connections
import FerrisFerry.Refinement

/-!
# A fleet over TCP

The drivers of a fleet with the transport they really have. What a driver sends goes to the
sender task of the addressee, over streams that are cut anywhere, and through the reader tasks
into the one channel that `event_loop` takes its messages from. A node that stops takes its
sender tasks, its reader tasks and its channel with it; what it has written may still arrive.

In every run a message that a driver takes was sent to it, as it was (`TcpFleet.run_fleet`). So
the drivers over TCP do what a fleet can do, where messages arrive at any time, any number of
times or never, and in an orderly run what the cluster does (`TcpFleet.implements_cluster`).
-/

namespace FerrisFerry

open TcpTransport

namespace TcpTransport

/-- An event of the task itself, and not one of those who send to it. -/
def Event.own : Event → Bool
  | .enqueue _ | .close => false
  | .recv | .fire | .connect _ | .send _ | .peerCloses => true

namespace Link

variable (F : Framing) (P : Codec Message)

/-- `TcpTransport::send` to one peer. Nobody hears of a channel that is closed. -/
def push (l : Link) (msg : Message) : Link :=
  (l.step F P (.task (.enqueue msg) 0)).getD l

/-- All reader tasks end. -/
def hangUp (l : Link) : Link :=
  { l with connection := fun i => { l.connection i with reading := false } }

variable {F P} {l l' : Link}

theorem Conveys.hangUp (h : Conveys F P l) : Conveys F P l.hangUp := by
  have hcarries : ∀ {i got tail}, Carries F P (l.connection i) got tail →
      Carries F P (l.hangUp.connection i) got tail := fun hc =>
    ⟨hc.fits, hc.part, hc.torn, hc.rest⟩
  refine ⟨h.task, fun i hi => ?_, fun i => ?_, fun hu => hcarries (h.whole hu), h.all⟩
  · change { l.connection i with reading := false } = Connection.idle
    rw [h.idle i hi]
    rfl
  · obtain ⟨tail, hc⟩ := h.carries i
    exact ⟨tail, hcarries hc⟩

theorem carry_sender {event : Event} {inFlight : Option Numbered} {written : ℕ}
    (h : l.carry F P event inFlight written = some l') : l'.sender = l.sender := by
  unfold carry at h
  dsimp only at h
  split at h
  · cases h
    rfl
  · obtain ⟨frame, -, rfl⟩ := Option.map_eq_some_iff.mp h
    rfl
  · split at h
    · cases h
      rfl
    · split_ifs at h
      cases h
      rfl
  · cases h
    rfl

theorem step_enqueued {event : LinkEvent}
    (hown : ∀ msg written, event ≠ .task (.enqueue msg) written)
    (h : l.step F P event = some l') : l'.sender.enqueued = l.sender.enqueued := by
  cases event with
  | task event written =>
    obtain ⟨sender, hsender, hcarry⟩ := Option.bind_eq_some_iff.mp h
    rw [carry_sender hcarry]
    rcases (Sender.step_ends hsender).1 with hsame | ⟨msg, rfl, -⟩
    · exact hsame
    · exact absurd rfl (hown msg written)
  | arrive i n =>
    change (if _ then some (l.read F P i n) else none) = some l' at h
    split_ifs at h
    cases h
    rfl
  | finish i =>
    change (if _ then some _ else none) = some l' at h
    split_ifs at h
    cases h
    rfl

theorem Conveys.push (h : Conveys F P l) (msg : Message) : Conveys F P (l.push F P msg) := by
  unfold Link.push
  cases hs : l.step F P (.task (.enqueue msg) 0) with
  | none => exact h
  | some l' =>
    have hstep : (machine F P).step l (.task (.enqueue msg) 0) = some l' := hs
    exact conveys_step h hstep

theorem enqueued_push {msg : Message} :
    (l.push F P msg).sender.enqueued ⊆ l.sender.enqueued ++ [msg] := by
  unfold push
  cases hs : l.step F P (.task (.enqueue msg) 0) with
  | none => exact List.subset_append_left _ _
  | some l' =>
    obtain ⟨sender, hsender, hcarry⟩ := Option.bind_eq_some_iff.mp hs
    rw [Option.getD_some, carry_sender hcarry]
    change sender.enqueued ⊆ _
    rcases (Sender.step_ends hsender).1 with hsame | ⟨msg', heq, happend⟩
    · rw [hsame]
      exact List.subset_append_left _ _
    · cases heq
      rw [happend]
      exact List.Subset.refl _

end Link

end TcpTransport

structure TcpFleet where
  driver : NodeId → RaftDriver
  /-- How often a node has been started again. -/
  starts : NodeId → ℕ
  /-- A node since one of its starts, and a peer : the sender task and its streams. -/
  link : NodeId × ℕ × NodeId → Link
  /-- The channel of `TcpTransport::recv`. -/
  inbox : NodeId → List Message

inductive TcpInput where
  | drive (n : NodeId) (input : DriverInput)
  /-- The sender task of a peer does something, or a reader task at the peer. -/
  | link (n : NodeId) (start : ℕ) (peer : NodeId) (event : LinkEvent)

namespace TcpFleet

section step

variable (cfg : FleetConfig) (F : Framing) (P : Codec Message) (s : TcpFleet)

/-- A message taken from the channel is the oldest one in it. -/
def take (n : NodeId) : RaftDriver.Event → Option TcpFleet
  | .message msg =>
    if (s.inbox n).head? = some msg then
      some { s with inbox := Function.update s.inbox n (s.inbox n).tail }
    else none
  | .tick | .propose _ _ | .read _ => some s

def setLink (key : NodeId × ℕ × NodeId) (l : Link) : TcpFleet :=
  { s with link := Function.update s.link key l }

/-- `TcpTransport::send`. There is a sender task for every other node. -/
def transmit (n : NodeId) (out : NodeId × Message) : TcpFleet :=
  if out.1 ∈ cfg.nodes ∧ out.1 ≠ n then
    s.setLink (n, s.starts n, out.1) ((s.link (n, s.starts n, out.1)).push F P out.2)
  else s

def transmitAll (n : NodeId) (outs : List (NodeId × Message)) : TcpFleet :=
  outs.foldl (fun s out => s.transmit cfg F P n out) s

/-- The process ends and is started again. -/
def stop (n : NodeId) : TcpFleet :=
  { s with
    starts := Function.update s.starts n (s.starts n + 1)
    link := fun key => if key.2.2 = n then (s.link key).hangUp else s.link key
    inbox := Function.update s.inbox n [] }

/-- The sender tasks are those of the last start. The reader tasks end with their streams. -/
def Runs (n : NodeId) (start : ℕ) : LinkEvent → Prop
  | .task event _ => event.own = true ∧ start = s.starts n
  | .arrive _ _ | .finish _ => True

instance (n : NodeId) (start : ℕ) : (event : LinkEvent) → Decidable (s.Runs n start event)
  | .task event _ => inferInstanceAs (Decidable (event.own = true ∧ start = s.starts n))
  | .arrive _ _ | .finish _ => inferInstanceAs (Decidable True)

/-- One step of a link, with what it has received put into the channel of the peer. -/
def relay (key : NodeId × ℕ × NodeId) (l : Link) : TcpFleet :=
  let new := (l.received.drop (s.link key).received.length).map Prod.snd
  { s.setLink key l with
    inbox := Function.update s.inbox key.2.2 (s.inbox key.2.2 ++ new) }

def setDriver (n : NodeId) (d : RaftDriver) (driver : NodeId → RaftDriver) : TcpFleet :=
  { s with driver := Function.update driver n d }

end step

def start (cfg : FleetConfig) : TcpFleet where
  driver := cfg.init.driver
  starts _ := 0
  link _ := .start
  inbox _ := []

/-- The tasks of all nodes, one step at a time. -/
def machine (cfg : FleetConfig) (app : List AppliedEntry → Bytes) (F : Framing)
    (P : Codec Message) : Machine TcpFleet TcpInput where
  step s
    | .drive n (.event event rnd) =>
      if n ∈ cfg.nodes then
        (s.take n event).bind fun taken =>
          ((s.driver n).handleEvent app rnd event).2.map fun d =>
            (taken.transmitAll cfg F P n
              (Fleet.sent ((s.driver n).handleEvent app rnd event).1)).setDriver n d s.driver
      else none
    | .drive n (.crash event rnd done restartRnd) =>
      if n ∈ cfg.nodes then
        (s.take n event).bind fun taken =>
          ((cfg.node n).new ((s.driver n).crashStorage app rnd event done) restartRnd).map fun d =>
            ((taken.transmitAll cfg F P n (Fleet.sent
              (((s.driver n).handleEvent app rnd event).1.take done))).stop n).setDriver n d
                s.driver
      else none
    | .link n start peer event =>
      if s.Runs n start event then
        ((s.link (n, start, peer)).step F P event).map (s.relay (n, start, peer))
      else none

/-! ## Messages on their way -/

variable {cfg : FleetConfig} {app : List AppliedEntry → Bytes} {F : Framing} {P : Codec Message}
  {s s' : TcpFleet} {net net' : List (NodeId × Message)} {n : NodeId}

/-- Every link conveys its messages, and they are among those that were sent. -/
structure Relays (F : Framing) (P : Codec Message) (s : TcpFleet)
    (net : List (NodeId × Message)) : Prop where
  conveys : ∀ key, Link.Conveys F P (s.link key)
  enqueued : ∀ key, ∀ msg ∈ (s.link key).sender.enqueued, (key.2.2, msg) ∈ net
  inbox : ∀ n, ∀ msg ∈ s.inbox n, (n, msg) ∈ net

namespace Relays

/-- What is put into a channel. -/
theorem setInbox (h : Relays F P s net) {msgs : List Message}
    (hmsgs : ∀ msg ∈ msgs, (n, msg) ∈ net) (m : NodeId) :
    ∀ msg ∈ Function.update s.inbox n msgs m, (m, msg) ∈ net := by
  rw [Function.update_apply]
  split_ifs with hm
  · rw [hm]
    exact hmsgs
  · exact h.inbox m

theorem mono (h : Relays F P s net) (hsub : net ⊆ net') : Relays F P s net' :=
  ⟨h.conveys, fun key msg hm => hsub (h.enqueued key msg hm),
    fun n msg hm => hsub (h.inbox n msg hm)⟩

theorem setDriver (h : Relays F P s net) (n : NodeId) (d : RaftDriver)
    (driver : NodeId → RaftDriver) : Relays F P (s.setDriver n d driver) net :=
  ⟨h.conveys, h.enqueued, h.inbox⟩

/-- A link that has been sent no more than that. -/
theorem setLink (h : Relays F P s net) (key : NodeId × ℕ × NodeId) {l : Link}
    (hl : Link.Conveys F P l) (hsent : ∀ msg ∈ l.sender.enqueued, (key.2.2, msg) ∈ net) :
    Relays F P (s.setLink key l) net := by
  have hlink : ∀ key', (s.setLink key l).link key' = if key' = key then l else s.link key' :=
    fun _ => Function.update_apply ..
  refine ⟨fun key' => ?_, fun key' => ?_, h.inbox⟩
  · rw [hlink]
    split_ifs
    · exact hl
    · exact h.conveys key'
  · rw [hlink]
    split_ifs with hkey
    · exact hkey ▸ hsent
    · exact h.enqueued key'

/-- A driver takes only what was sent to it. -/
theorem take {event : RaftDriver.Event} (h : Relays F P s net) (ht : s.take n event = some s') :
    Relays F P s' net ∧ ∀ msg, event = .message msg → (n, msg) ∈ net := by
  cases event with
  | message msg =>
    rw [TcpFleet.take] at ht
    split_ifs at ht with hhead
    cases ht
    have hrest : ∀ msg ∈ (s.inbox n).tail, (n, msg) ∈ net := fun msg hmsg =>
      h.inbox n msg (List.mem_of_mem_tail hmsg)
    refine ⟨⟨h.conveys, h.enqueued, h.setInbox hrest⟩, fun msg' heq => ?_⟩
    cases heq
    exact h.inbox n msg (List.mem_of_mem_head? hhead)
  | tick | propose | read =>
    cases ht
    exact ⟨h, fun _ heq => by cases heq⟩

theorem transmit (h : Relays F P s net) {out : NodeId × Message} (hout : out ∈ net) :
    Relays F P (s.transmit cfg F P n out) net := by
  unfold TcpFleet.transmit
  split_ifs
  · have hl := h.conveys (n, s.starts n, out.1)
    have hold := h.enqueued (n, s.starts n, out.1)
    refine h.setLink _ (hl.push out.2) fun msg hmsg => ?_
    rcases List.mem_append.mp (Link.enqueued_push hmsg) with hm | hm
    · exact hold msg hm
    · exact List.mem_singleton.mp hm ▸ hout
  · exact h

theorem transmitAll {outs : List (NodeId × Message)} (h : Relays F P s net) (houts : outs ⊆ net) :
    Relays F P (s.transmitAll cfg F P n outs) net := by
  induction outs generalizing s with
  | nil => exact h
  | cons out outs ih =>
    obtain ⟨hout, houts⟩ := List.cons_subset.mp houts
    exact ih (h.transmit hout) houts

theorem stop (h : Relays F P s net) (n : NodeId) : Relays F P (s.stop n) net := by
  have hlink : ∀ key, (s.stop n).link key =
      if key.2.2 = n then (s.link key).hangUp else s.link key := fun _ => rfl
  refine ⟨fun key => ?_, fun key => ?_, h.setInbox nofun⟩
  · rw [hlink]
    split_ifs
    · exact (h.conveys key).hangUp
    · exact h.conveys key
  · rw [hlink]
    split_ifs
    all_goals exact h.enqueued key

/-- What comes out of a link was put into it. -/
theorem relay (h : Relays F P s net) {key : NodeId × ℕ × NodeId} {event : LinkEvent} {l : Link}
    (hown : ∀ msg written, event ≠ .task (.enqueue msg) written)
    (hl : (s.link key).step F P event = some l) : Relays F P (s.relay key l) net := by
  have hconveys := Link.conveys_step (h.conveys key) hl
  have hsent : ∀ msg ∈ l.sender.enqueued, (key.2.2, msg) ∈ net := by
    rw [Link.step_enqueued hown hl]
    exact h.enqueued key
  have hset := h.setLink key hconveys hsent
  refine ⟨hset.conveys, hset.enqueued, h.setInbox fun msg hmsg => ?_⟩
  rcases List.mem_append.mp hmsg with hold | hnew
  · exact h.inbox _ msg hold
  · obtain ⟨r, hr, rfl⟩ := List.mem_map.mp hnew
    exact hsent _ (hconveys.subperm.subset (List.mem_map_of_mem (List.mem_of_mem_drop hr)))

end Relays

/-! ## What the drivers do -/

/-- The same drivers, with all that was sent in flight. -/
structure Shows (F : Framing) (P : Codec Message) (s : TcpFleet) (f : Fleet) : Prop where
  driver : f.driver = s.driver
  relays : Relays F P s f.net

theorem shows_start (cfg : FleetConfig) (F : Framing) (P : Codec Message) :
    Shows F P (start cfg) cfg.init where
  driver := rfl
  relays := ⟨fun _ => Link.conveys_start F P, fun _ => nofun, fun _ => nofun⟩

/-- The fleet follows the drivers. -/
theorem Shows.drive {f : Fleet} {input : DriverInput} (h : Shows F P s f)
    (hs : (machine cfg app F P).step s (.drive n input) = some s') :
    ∃ f', (cfg.machine app).step f (n, input) = some f' ∧ Shows F P s' f' := by
  obtain ⟨driver, net⟩ := f
  obtain rfl : s.driver = driver := h.driver.symm
  have hdeliver : ∀ {event taken}, s.take n event = some taken →
      Fleet.Deliverable ⟨s.driver, net⟩ n event := by
    intro event taken ht
    cases event with
    | message msg => exact (h.relays.take ht).2 msg rfl
    | tick | propose | read => trivial
  have hput : ∀ {event taken}, s.take n event = some taken → ∀ effects,
      Relays F P (taken.transmitAll cfg F P n (Fleet.sent effects)) (Fleet.sent effects ++ net) :=
    fun ht effects => ((h.relays.take ht).1.mono (List.subset_append_right _ _)).transmitAll
      (List.subset_append_left _ _)
  cases input with
  | event event rnd =>
    simp only [machine] at hs
    split_ifs at hs with hn
    obtain ⟨taken, ht, hs⟩ := Option.bind_eq_some_iff.mp hs
    obtain ⟨d, hd, rfl⟩ := Option.map_eq_some_iff.mp hs
    refine ⟨Fleet.put ⟨s.driver, net⟩ n d ((s.driver n).handleEvent app rnd event).1, ?_, rfl,
      (hput ht _).setDriver n d s.driver⟩
    simp only [FleetConfig.machine, if_pos (And.intro hn (hdeliver ht)), hd, Option.map_some]
  | crash event rnd done restartRnd =>
    simp only [machine] at hs
    split_ifs at hs with hn
    obtain ⟨taken, ht, hs⟩ := Option.bind_eq_some_iff.mp hs
    obtain ⟨d, hd, rfl⟩ := Option.map_eq_some_iff.mp hs
    refine ⟨Fleet.put ⟨s.driver, net⟩ n d (((s.driver n).handleEvent app rnd event).1.take done),
      ?_, rfl, ((hput ht _).stop n).setDriver n d s.driver⟩
    simp only [FleetConfig.machine, if_pos (And.intro hn (hdeliver ht)), hd, Option.map_some]

/-- And stays where it is while messages are on their way. -/
theorem Shows.link {f : Fleet} {start : ℕ} {peer : NodeId} {event : LinkEvent}
    (h : Shows F P s f) (hs : (machine cfg app F P).step s (.link n start peer event) = some s') :
    Shows F P s' f := by
  simp only [machine] at hs
  split_ifs at hs with hruns
  obtain ⟨l, hl, rfl⟩ := Option.map_eq_some_iff.mp hs
  refine ⟨h.driver, h.relays.relay (fun msg written heq => ?_) hl⟩
  subst heq
  exact absurd hruns.1 nofun

/-- The steps of the drivers are orderly. -/
def Orderly (app : List AppliedEntry → Bytes) (s : TcpFleet) : TcpInput → Prop
  | .drive n input => Fleet.Orderly app ⟨s.driver, []⟩ (n, input)
  | .link _ _ _ _ => True

instance (app : List AppliedEntry → Bytes) (s : TcpFleet) :
    (input : TcpInput) → Decidable (s.Orderly app input)
  | .drive n input => inferInstanceAs (Decidable (Fleet.Orderly app ⟨s.driver, []⟩ (n, input)))
  | .link _ _ _ _ => inferInstanceAs (Decidable True)

/-- The fleet follows every orderly run. -/
theorem run_fleet (h : (machine cfg app F P).Run (Orderly app) (start cfg) s) :
    ∃ f, (cfg.machine app).Run (Fleet.Orderly app) cfg.init f ∧ Shows F P s f := by
  refine h.simulate (shows_start cfg F P) ?_
  rintro s input s' f - - hR hok hs
  cases input with
  | drive n input =>
    obtain ⟨f', hstep, hR'⟩ := hR.drive hs
    have hok : Fleet.Orderly app f (n, input) := by
      have hok : Fleet.Orderly app ⟨s.driver, []⟩ (n, input) := hok
      rw [← hR.driver] at hok
      cases input with
      | event | crash => exact hok
    exact ⟨f', .step .init hok hstep, hR'⟩
  | link => exact ⟨f, .init, hR.link hs⟩

/-- In every orderly run of the drivers over TCP, whatever is cut, lost or late on its way and
wherever nodes stop, the drivers are where an orderly run of the fleet takes them and a sound run
of the cluster takes their cores. What waits for a node in its channel was sent to it there. -/
theorem implements_cluster (h : (machine cfg app F P).Run (Orderly app) (start cfg) s) :
    ∃ f c, (cfg.machine app).Run (Fleet.Orderly app) cfg.init f ∧ f.driver = s.driver ∧
      cfg.toConfig.machine.Run Cluster.Sound cfg.toConfig.init c ∧
      (∀ n, c.core n = (s.driver n).core ∧ c.disk n = (s.driver n).storage.image) ∧
      ∀ n, ∀ msg ∈ s.inbox n, (n, msg) ∈ f.net ∧ (n, msg) ∈ c.net := by
  obtain ⟨f, hf, hdriver, hrelays⟩ := run_fleet h
  obtain ⟨c, hc, hR⟩ := Fleet.refines_run hf
  refine ⟨f, c, hf, hdriver, hc, fun n => ?_, fun n msg hmsg => ?_⟩
  · rw [← hdriver]
    exact ⟨(hR.shadows n).core, (hR.shadows n).disk⟩
  · have hsent := hrelays.inbox n msg hmsg
    exact ⟨hsent, hR.net hsent⟩

/-- Node 3 votes and stops while its vote is under way, in two pieces. -/
def stopsAfterVote : List TcpInput :=
  [.drive 1 (.event .tick 1), .link 1 0 3 (.task .recv 0), .link 1 0 3 (.task .fire 0),
    .link 1 0 3 (.task (.connect true) 0), .link 1 0 3 (.task (.send true) 0),
    .link 1 0 3 (.arrive 1 9), .drive 3 (.event (.message (.requestVote ⟨1, 1, 0, 0⟩)) 1),
    .link 3 0 1 (.task .recv 0), .link 3 0 1 (.task .fire 0),
    .link 3 0 1 (.task (.connect true) 0), .link 3 0 1 (.task (.send true) 0),
    .link 3 0 1 (.arrive 1 4), .drive 3 (.crash .tick 1 0 1), .link 3 0 1 (.arrive 1 4),
    .drive 1 (.event (.message (.requestVoteResponse ⟨3, 1, true⟩)) 1)]

theorem implements_cluster_stopsAfterVote :
    ∃ s, (machine FleetConfig.trio (fun _ => [5]) Link.lengthDelimited Message.wire.codec).Run
        (Orderly fun _ => [5]) (start FleetConfig.trio) s ∧
      (s.driver 1).core.state = .leader ∧ s.starts 3 = 1 ∧
      ∃ c, Config.trio.machine.Run Cluster.Sound Config.trio.init c ∧
        c.core 1 = (s.driver 1).core := by
  obtain ⟨s, hs, hstate, hstarts⟩ :=
    (machine FleetConfig.trio (fun _ => [5]) Link.lengthDelimited
      Message.wire.codec).exists_run_of_exec (Orderly fun _ => [5]) (start FleetConfig.trio)
      stopsAfterVote (fun s => (s.driver 1).core.state = .leader ∧ s.starts 3 = 1)
      (by decide +kernel) (by decide +kernel)
  obtain ⟨-, c, -, -, hc, hnode, -⟩ := implements_cluster hs
  exact ⟨s, hs, hstate, hstarts, c, hc, (hnode 1).1⟩

end TcpFleet

end FerrisFerry
