import FerrisFerry.AppendOnly
import FerrisFerry.Delivery
import FerrisFerry.Handling
import FerrisFerry.Leading

/-!
# A fleet of drivers

Drivers that send each other what their effects say. Nothing that was sent is ever taken back :
a message arrives at any time, any number of times or never. A node stops between any two
effects and starts again from its storage.

A core that knows no term in front of a peer's next index falls back to its snapshot, behind
the snapshot and beyond the end of the log alike. Where there is no snapshot yet, it is to
send one only if a peer has claimed an index that the log does not reach. `RaftCore.Informed`
excludes these answers, and then a snapshot is sent only by a node that has it in its storage
(`Fleet.sends_stored_snapshot`).
-/

namespace FerrisFerry

namespace RaftCore

variable {core core' : RaftCore} {rnd : ℕ} {request : Request} {actions : List Action}

/-! ## The reach of the next indices -/

/-- An answer that reaches a node without a snapshot names no index beyond the log of the node.
A success and a snapshot that is in place matter to a leader only, a conflict to whoever has a
next index for the peer. -/
def Informed (core : RaftCore) : Request → Prop
  | .message (.appendEntriesResponse resp) =>
    core.lastIncludedIndex = 0 →
      if resp.success then core.LeadsAt resp.term → resp.matchIndex ≤ core.lastLogIndex
      else resp.id ∈ core.nextIndex →
        ∀ i ∈ resp.firstConflictingIndex, i ≤ core.lastLogIndex + 1
  | .message (.installSnapshotResponse resp) =>
    core.lastIncludedIndex = 0 → core.LeadsAt resp.term →
      resp.lastIncludedIndex ≤ core.lastLogIndex
  | _ => True

instance (core : RaftCore) : (request : Request) → Decidable (core.Informed request)
  | .message (.appendEntriesResponse resp) =>
    inferInstanceAs (Decidable (core.lastIncludedIndex = 0 →
      if resp.success then core.LeadsAt resp.term → resp.matchIndex ≤ core.lastLogIndex
      else resp.id ∈ core.nextIndex →
        ∀ i ∈ resp.firstConflictingIndex, i ≤ core.lastLogIndex + 1))
  | .message (.installSnapshotResponse resp) =>
    inferInstanceAs (Decidable (core.lastIncludedIndex = 0 → core.LeadsAt resp.term →
      resp.lastIncludedIndex ≤ core.lastLogIndex))
  | .message (.requestVote _) | .message (.requestVoteResponse _) | .message (.appendEntries _)
  | .message (.installSnapshot _) | .tick | .propose _ | .readBarrier | .snapshot _ =>
    inferInstanceAs (Decidable True)

/-- A leader without a snapshot expects no peer beyond the end of its log. -/
def Covers (core : RaftCore) : Prop :=
  core.lastIncludedIndex = 0 → core.state = .leader → ∀ peer ∈ core.peers,
    ∀ i, core.nextIndex.lookup peer = some i → i ≤ core.lastLogIndex + 1

/-- A leader that has no snapshot had none before, and its log has not become shorter. -/
theorem Outcome.grows (h : core.Outcome rnd request core' actions) (hl' : core'.state = .leader)
    (h0 : core'.lastIncludedIndex = 0) :
    core.lastIncludedIndex = 0 ∧ core.lastLogIndex ≤ core'.lastLogIndex := by
  by_cases hsnap : ∃ data, request = .snapshot data
  · obtain ⟨data, rfl⟩ := hsnap
    have hext := h.extends_of_leader hl' fun req hr => by cases hr
    refine ⟨?_, (hext _ le_rfl).1⟩
    cases h with
    | compact hp hc =>
      rcases completeSnapshot_spec hp hc with ⟨-, rfl⟩ | ⟨k, hk, -, hap, -, rfl⟩
      · exact h0
      · change core.lastApplied = 0 at h0
        omega
  cases h.baseMove fun data hr => hsnap ⟨data, hr⟩ with
  | @install req _ hr hi hb =>
    have hidx : core'.lastIncludedIndex = req.lastIncludedIndex := congrArg Point.index hb
    omega
  | keep hb =>
    have hi : core'.lastIncludedIndex = core.lastIncludedIndex := congrArg Point.index hb
    refine ⟨hi.symm.trans h0, ?_⟩
    by_cases hreq : ∃ req, request = .message (.installSnapshot req)
    · obtain ⟨req, rfl⟩ := hreq
      cases h with
      | staleSnapshot => exact le_rfl
      | oldSnapshot | haveSnapshot =>
        exact (lastLogIndex_congr hb (termChecked_log core req.term rnd)).ge
      | installSnapshot ht hi' hh =>
        change req.lastIncludedIndex = 0 at h0
        omega
    · exact ((h.extends_of_leader hl' fun req hr => hreq ⟨req, hr⟩) _ le_rfl).1

theorem Covers.keep (hc : core.Covers) (hn : core'.nextIndex = core.nextIndex)
    (hp : core'.peers = core.peers) (hstill : core'.StillLeads core)
    (hgrow : core'.state = .leader → core'.lastIncludedIndex = 0 →
      core.lastIncludedIndex = 0 ∧ core.lastLogIndex ≤ core'.lastLogIndex) : core'.Covers := by
  intro h0 hl peer hpeer i hi
  obtain ⟨h0', hle⟩ := hgrow hl h0
  rw [hp] at hpeer
  rw [hn] at hi
  have := hc h0' (hstill hl).1 peer hpeer i hi
  omega

/-- A peer that is found to hold the log up to an index of it. -/
theorem Covers.recordMatch (hc : core.Covers) {id : NodeId} {index : ℕ}
    (hi : core.lastIncludedIndex = 0 → core.state = .leader → index ≤ core.lastLogIndex)
    (hn : core'.nextIndex = core.nextIndex.insert id (index + 1)) (hp : core'.peers = core.peers)
    (hs : core'.state = core.state) (hb : core'.base = core.base) (hl : core'.log = core.log) :
    core'.Covers := by
  intro h0 hlead peer hpeer i hlookup
  have h0' : core.lastIncludedIndex = 0 := (congrArg Point.index hb).symm.trans h0
  rw [hs] at hlead
  rw [lastLogIndex_congr hb hl]
  rw [hn] at hlookup
  rcases lookup_insert_cases hlookup with ⟨-, rfl⟩ | ⟨-, hlookup⟩
  · have := hi h0' hlead
    omega
  · exact hc h0' hlead peer (hp ▸ hpeer) i hlookup

/-- A conflict moves the next index of the peer to an index of the log or right behind it. -/
theorem Informed.backOff {resp : AppendEntriesResponseRPC} {i : ℕ}
    (hi : core.Informed (.message (.appendEntriesResponse resp))) (hs : resp.success = false)
    (h0 : core.lastIncludedIndex = 0) (h : (core.backOff resp).nextIndex.lookup resp.id = some i) :
    i ≤ core.lastLogIndex + 1 := by
  have hmem : resp.id ∈ core.nextIndex := by
    rw [← AList.mem_replace (b := resp.firstConflictingIndex.getD 0) (a := resp.id)]
    exact AList.lookup_isSome.mp (Option.isSome_of_eq_some h)
  obtain ⟨j, hj⟩ := Option.isSome_iff_exists.mp (AList.lookup_isSome.mpr hmem)
  obtain rfl : resp.firstConflictingIndex.getD 0 = i :=
    Option.some.inj ((lookup_replace_self hj _).symm.trans h)
  have hle := hi h0
  rw [if_neg (by rw [hs]; simp)] at hle
  cases hf : resp.firstConflictingIndex with
  | none => exact Nat.zero_le _
  | some first => exact hle hmem first hf

/-- A new leader expects every peer right behind its new entry. -/
theorem covers_lead (core : RaftCore) (rnd : ℕ) : (core.lead rnd).Covers := by
  intro h0 hl peer hpeer i hlookup
  change (core.peers.foldl (fun m id => m.insert id (core.lastLogIndex + 1 + 1))
    core.nextIndex).lookup peer = some i at hlookup
  rw [lookup_foldl_insert, if_pos (show peer ∈ core.peers from hpeer)] at hlookup
  obtain rfl := Option.some.inj hlookup
  have hlast : (core.lead rnd).lastLogIndex = core.lastLogIndex + 1 := by
    change core.lastIncludedIndex + (core.log ++ [_]).length = core.lastLogIndex + 1
    rw [List.length_append, lastLogIndex]
    rfl
  rw [hlast]

/-- Every call of an informed node keeps the next indices inside the log. -/
theorem Outcome.covers (h : core.Outcome rnd request core' actions) (hc : core.Covers)
    (hi : core.Informed request) : core'.Covers := by
  have hgrow := h.grows
  cases h with
  | wait | heartbeat | refuse | append | collectVote | staleSnapshot =>
    exact hc.keep rfl rfl (fun h => ⟨h, rfl⟩) hgrow
  | stand => exact hc.keep rfl rfl (fun h => by cases h) hgrow
  | barrier =>
    unfold requestReadBarrier at hgrow ⊢
    split_ifs at hgrow ⊢ <;> exact hc.keep rfl rfl (fun h => ⟨h, rfl⟩) hgrow
  | compact hp hcs =>
    rcases completeSnapshot_spec hp hcs with ⟨-, rfl⟩ | ⟨k, -, -, -, -, rfl⟩
    · exact hc
    · exact hc.keep rfl rfl (fun h => ⟨h, rfl⟩) hgrow
  | denyVote | grantVote | ignoreVote | rejectAppend | ignoreSnapshotResponse =>
    exact hc.keep (termChecked_nextIndex core _ rnd) (termChecked_peers core _ rnd)
      (stillLeads_of_termChecked rfl fun h => h) hgrow
  | conflictAppend | oldSnapshot | haveSnapshot =>
    exact hc.keep (termChecked_nextIndex core _ rnd) (termChecked_peers core _ rnd)
      (stillLeads_of_termChecked rfl leader_of_follow) hgrow
  | @acceptAppend req _ _ ht hl hv ha =>
    intro h0 hlead
    have hacc : core.Accepts rnd req _ := ⟨ht, hl, hv, _, ha⟩
    rw [hacc.frame.1] at hlead
    cases hlead
  | @installSnapshot req ht hlt hh =>
    intro h0
    change req.lastIncludedIndex = 0 at h0
    omega
  | win => exact covers_lead _ rnd
  | @success resp _ _ hs hr =>
    have hf := (recordSuccess_spec hr).frame
    by_cases hl : (core.termChecked resp.term rnd).state = .leader
    · have hlead := (leadsAt_iff rnd).mpr hl
      rw [termChecked_of_le hlead.1] at hf
      have hle : core.lastIncludedIndex = 0 → resp.matchIndex ≤ core.lastLogIndex := by
        intro h0
        have hle := hi h0
        rw [if_pos hs] at hle
        exact hle hlead
      rw [hf]
      exact hc.recordMatch (fun h0 _ => hle h0) rfl rfl rfl rfl rfl
    · intro _ hl'
      rw [hf] at hl'
      exact absurd hl' hl
  | @failure resp _ hs hb =>
    intro h0 hl peer hpeer i hlookup
    have hlead :=
      (leadsAt_iff rnd).mpr (show (core.termChecked resp.term rnd).state = .leader from hl)
    rw [termChecked_of_le hlead.1] at h0 hl hpeer hlookup ⊢
    by_cases hid : peer = resp.id
    · exact hi.backOff hs h0 (hid ▸ hlookup)
    · rcases lookup_replace_cases hlookup with ⟨h, -⟩ | hlookup
      · exact absurd h hid
      · exact hc h0 hl peer hpeer i hlookup
  | @recordSnapshotResponse resp ht hl =>
    exact hc.recordMatch (fun h0 _ => hi h0 ⟨ht, hl⟩) rfl rfl rfl rfl rfl

/-- A snapshot goes to a peer that is expected beyond the log, unless there is one. -/
theorem lt_of_build_snapshot {peer dst : NodeId} {t i l : ℕ}
    (h : core.buildAppendEntriesForPeer peer = some (.sendInstallSnapshot dst t i l))
    (h0 : core.lastIncludedIndex = 0) :
    ∃ next, core.nextIndex.lookup peer = some next ∧ core.lastLogIndex + 1 < next := by
  unfold buildAppendEntriesForPeer at h
  cases ht : core.logTermAt ((core.nextIndex.lookup peer).getD core.lastLogIndex - 1) with
  | some term =>
    simp only [ht, bind, Option.bind_eq_some_iff, Option.some.injEq] at h
    obtain ⟨es, -, he⟩ := h
    cases he
  | none =>
    have hbeyond : core.lastLogIndex < (core.nextIndex.lookup peer).getD core.lastLogIndex - 1 := by
      by_contra hle
      obtain ⟨t, ht'⟩ := exists_logTermAt (h0.trans_le (Nat.zero_le _)) (Nat.not_lt.mp hle)
      rw [ht] at ht'
      cases ht'
    cases hn : core.nextIndex.lookup peer with
    | none =>
      rw [hn, Option.getD_none] at hbeyond
      omega
    | some next =>
      rw [hn, Option.getD_some] at hbeyond
      exact ⟨next, rfl, by omega⟩

/-- An informed node sends a snapshot only if it has one. -/
theorem Outcome.snapshot_pos (h : core.Outcome rnd request core' actions) (hc : core.Covers)
    (hi : core.Informed request) {dst : NodeId} {t i l : ℕ}
    (ha : .sendInstallSnapshot dst t i l ∈ actions) : 0 < i := by
  obtain ⟨-, rfl, -⟩ := h.sendInstallSnapshot ha
  refine Nat.pos_of_ne_zero fun h0 => ?_
  obtain ⟨peer, hb, hwho⟩ := h.built ha trivial
  obtain ⟨next, hnext, hlt⟩ := lt_of_build_snapshot hb h0
  rcases hwho with ⟨hl, hp⟩ | ⟨resp, rfl, hs, rfl⟩
  · have hle := h.covers hc hi h0 hl peer (h.id_eq.2 ▸ hp) next hnext
    omega
  · cases h with
    | success hs' => simp [hs] at hs'
    | failure =>
      have hlast := lastLogIndex_congr (termChecked_base core resp.term rnd)
        (termChecked_log core resp.term rnd)
      have hbase : core.lastIncludedIndex = 0 :=
        (congrArg Point.index (termChecked_base core resp.term rnd)).symm.trans h0
      have hnext' : (core.backOff resp).nextIndex.lookup resp.id = some next := by
        rw [← hnext, backOff, backOff, termChecked_nextIndex]
      have hle := hi.backOff hs hbase hnext'
      change (core.termChecked resp.term rnd).lastLogIndex + 1 < next at hlt
      omega

/-- Nothing reaches the application in a call that sends a snapshot. -/
theorem Outcome.not_reaches_of_snapshot (h : core.Outcome rnd request core' actions) {dst : NodeId}
    {t i l : ℕ} (ha : .sendInstallSnapshot dst t i l ∈ actions) : ∀ a ∈ actions, ¬a.Reaches := by
  -- the calls that hand something to the application send no snapshot
  have hterm : ∀ {t' : ℕ}, Action.sendInstallSnapshot dst t i l ∉ core.termActions t' := by
    intro t' hm
    obtain ⟨t, v, h⟩ := metadata_of_termActions core _ _ hm
    cases h
  cases h with
  | wait | refuse | barrier | compact | collectVote | recordSnapshotResponse =>
    exact absurd ha List.not_mem_nil
  | heartbeat hl hs => exact fun a hm => (leading_of_appendEntries hs hm).not_reaches
  | append hl hs | win ht hcand hg hq hs =>
    intro a hm
    rcases List.mem_cons.mp hm with rfl | hm
    · exact fun h => h
    · exact (leading_of_appendEntries hs hm).not_reaches
  | stand =>
    intro a hm
    rcases List.mem_cons.mp hm with rfl | hm
    · exact fun h => h
    · obtain ⟨peer, -, rfl⟩ := List.mem_map.mp hm
      exact fun h => h
  | grantVote =>
    rcases List.mem_append.mp ha with ha | ha
    · exact absurd ha hterm
    · simp at ha
  | ignoreVote | ignoreSnapshotResponse => exact absurd ha hterm
  | staleSnapshot => cases List.mem_singleton.mp ha
  | denyVote | rejectAppend | conflictAppend | oldSnapshot | haveSnapshot =>
    exact not_reaches_append_singleton fun h => h
  | failure hs hb => exact not_reaches_append_singleton (leading_of_build hb).not_reaches
  | acceptAppend ht hl hv hacc =>
    rcases List.mem_append.mp ha with ha | ha
    · exact absurd ha hterm
    · rcases mem_acceptEntries hacc ha with ⟨_, _, h⟩ | ⟨_, _, h⟩ | h <;> cases h
  | success hs hr =>
    rcases List.mem_append.mp ha with ha | ha
    · exact absurd ha hterm
    · rcases mem_recordSuccess hr ha with ⟨_, _, h⟩ | ⟨_, h⟩ <;> cases h
  | installSnapshot =>
    rcases List.mem_append.mp ha with ha | ha
    · exact absurd ha hterm
    · simp [snapshotReply] at ha

end RaftCore

/-! ## The snapshot in the storage -/

theorem Storage.snapshot_of_base {s : Storage} {b : Point} (hb : s.image.base = b)
    (hpos : 0 < b.index) : ∃ data, s.snapshot = some ⟨b.index, b.term, data⟩ := by
  subst hb
  obtain ⟨metadata, log, snapshot⟩ := s
  cases snapshot with
  | none => exact absurd hpos (lt_irrefl 0)
  | some snapshot => exact ⟨snapshot.data, rfl⟩

namespace RaftDriver

variable {app : List AppliedEntry → Bytes} {d d' : RaftDriver} {actions : List Action}

/-- The stored snapshot is the one the core goes by, and a core without one expects no peer
beyond its log. -/
structure Supplied (d : RaftDriver) : Prop where
  covers : d.core.Covers
  stored : d.storage.image.base = d.core.base

theorem Supplied.alike (h : d.Supplied) (ha : d.Alike d') : d'.Supplied := by
  rw [ha]
  exact ⟨h.covers, h.stored⟩

theorem Answers.supplied {h : Handled} (ha : d.Answers h) (hd : d.Supplied) :
    h.Meets (fun _ => True) Supplied :=
  ⟨fun _ _ => trivial, fun _ hd' => hd.alike (ha.alike hd')⟩

theorem supplied_takeSnapshot (h : d.Supplied) :
    (d.takeSnapshot app).Meets (fun _ => True) Supplied := by
  rcases d.takeSnapshot_cases app with ht | ⟨metadata, -, ht⟩ | ⟨metadata, core, hp, hc, ht⟩ <;>
    rw [ht] <;> refine ⟨fun _ _ => trivial, ?_⟩
  · rintro _ ⟨⟩
  · rintro _ ⟨⟩
  · rintro _ ⟨⟩
    have ho : d.core.Outcome 0 (.snapshot []) core [] := .compact hp hc
    refine ⟨ho.covers h.covers trivial, ?_⟩
    obtain ⟨hm, hterm⟩ := RaftCore.prepareSnapshot_eq_some.mp hp
    change (⟨metadata.lastApplied, metadata.lastAppliedTerm⟩ : Point) = core.base
    rw [hm]
    rcases RaftCore.completeSnapshot_spec hp hc with ⟨hap, rfl⟩ | ⟨k, -, -, -, -, rfl⟩
    · -- everything applied is in the last snapshot
      rw [hap, RaftCore.logTermAt_base] at hterm
      rw [hap, ← Option.some.inj hterm]
      rfl
    · rfl

theorem supplied_handleAction {a : Action} (h : d.Supplied)
    (ha : ∀ i l data, a ≠ .installSnapshot i l data) :
    (d.handleAction app a).Meets (fun _ => True) Supplied := by
  cases a with
  | installSnapshot i l data => exact absurd rfl (ha i l data)
  | sendMessage | sendInstallSnapshot | readBarrierReady =>
    exact Answers.supplied (answers_of_outward (by trivial) d) h
  | persistMetadata | persistLogEntries =>
    refine ⟨fun _ _ => trivial, ?_⟩
    rintro _ ⟨⟩
    exact ⟨h.covers, h.stored⟩
  | applyToStateMachine index command =>
    by_cases hc : command = []
    · subst hc
      exact Answers.supplied (answers_of_outward (a := .applyToStateMachine index []) rfl d) h
    · rw [handleAction, applyToStateMachine_cons d index hc]
      refine Handled.Meets.andThen (P := Supplied) ⟨fun _ _ => trivial, ?_⟩ fun d₁ h₁ => ?_
      · rintro _ ⟨⟩
        exact ⟨h.covers, h.stored⟩
      · split_ifs
        · exact supplied_takeSnapshot h₁
        · refine ⟨fun _ _ => trivial, ?_⟩
          rintro _ ⟨⟩
          exact h₁

theorem supplied_handleActions (h : d.Supplied)
    (ha : ∀ i l data, .installSnapshot i l data ∉ actions) :
    (d.handleActions app actions).Meets (fun _ => True) Supplied := by
  refine meets_actions h fun d₁ h₁ a hm => supplied_handleAction h₁ fun i l data hi => ?_
  exact ha i l data (hi ▸ hm)

/-- Actions that do not reach the application leave the core and the stored snapshot alone. -/
theorem meets_snapshot_of_not_reaches (ha : ∀ a ∈ actions, ¬a.Reaches) :
    (d.handleActions app actions).Meets (fun _ => True)
      fun d' => d'.core = d.core ∧ d'.storage.snapshot = d.storage.snapshot := by
  refine meets_actions ⟨rfl, rfl⟩ fun d₁ h₁ a hm => ⟨fun _ _ => trivial, ?_⟩
  cases a with
  | applyToStateMachine | installSnapshot => exact absurd trivial (ha _ hm)
  | persistMetadata | persistLogEntries =>
    rintro _ ⟨⟩
    exact h₁
  | sendMessage | sendInstallSnapshot | readBarrierReady =>
    intro d' hd'
    rw [Answers.alike (answers_of_outward (by trivial) d₁) hd']
    exact h₁

/-- An event of an informed node. -/
theorem Supplied.handleEvent {rnd : ℕ} {event : Event} (h : d.Supplied)
    (hi : d.core.Informed event.request) :
    (d.handleEvent app rnd event).Meets (fun _ => True) Supplied := by
  rcases d.handleEvent_cases app rnd event with hp | ⟨after, actions, d₁, finish, hc, ha, he, hf⟩
  · rw [hp]
    exact .panic_nil
  rw [he]
  refine Handled.Meets.andThen ?_ fun d' h' => (hf d').supplied h'
  have ho := RaftCore.call_outcome hc
  have hcovers := ho.covers h.covers hi
  cases ho.baseMove event.request_ne_snapshot with
  | keep hb hno =>
    refine supplied_handleActions (.alike (d := { d with core := after }) ⟨hcovers, ?_⟩ ha) hno
    exact h.stored.trans hb.symm
  | @install req reply hr hlt hb hacts =>
    rw [hacts, handleActions_append]
    refine (meets_snapshot_of_not_reaches fun a hm => RaftCore.not_reaches_termActions hm).andThen
      fun d₂ h₂ => ?_
    have hcore : d₂.core = after := by rw [h₂.1, ha]
    -- the snapshot is stored before the reply is sent
    refine Handled.Meets.andThen (P := Supplied) ⟨fun _ _ => trivial, ?_⟩ fun d₃ h₃ => ?_
    · rintro _ ⟨⟩
      refine ⟨?_, ?_⟩
      · change d₂.core.Covers
        rwa [hcore]
      · change _ = d₂.core.base
        rw [hcore, hb]
        rfl
    · exact supplied_handleActions h₃ fun i l data hm => by cases List.mem_singleton.mp hm

end RaftDriver

/-! ## The fleet -/

structure FleetConfig extends Config where
  snapshotThreshold : NodeId → ℕ

structure Fleet where
  driver : NodeId → RaftDriver
  /-- Everything ever sent, with its addressee. -/
  net : List (NodeId × Message)

namespace Fleet

/-- The messages among the effects. -/
def sent (effects : List Effect) : List (NodeId × Message) :=
  effects.filterMap fun
    | .send target message => some (target, message)
    | _ => none

/-- A message arrives only if it was sent; everything else happens at any time. -/
def Deliverable (f : Fleet) (n : NodeId) : RaftDriver.Event → Prop
  | .message msg => (n, msg) ∈ f.net
  | .tick | .propose _ _ | .read _ => True

instance (f : Fleet) (n : NodeId) : (event : RaftDriver.Event) → Decidable (f.Deliverable n event)
  | .message msg => inferInstanceAs (Decidable ((n, msg) ∈ f.net))
  | .tick | .propose _ _ | .read _ => inferInstanceAs (Decidable True)

/-- A node goes on as `d` and what it has sent is under way. -/
def put (f : Fleet) (n : NodeId) (d : RaftDriver) (effects : List Effect) : Fleet :=
  ⟨Function.update f.driver n d, sent effects ++ f.net⟩

theorem put_driver_self (f : Fleet) (n : NodeId) (d : RaftDriver) (effects : List Effect) :
    (f.put n d effects).driver n = d :=
  Function.update_self ..

theorem put_driver_of_ne (f : Fleet) {n m : NodeId} (h : m ≠ n) (d : RaftDriver)
    (effects : List Effect) : (f.put n d effects).driver m = f.driver m :=
  Function.update_of_ne h ..

/-- The step is not an answer that names an index its addressee cannot know. -/
def Informed (f : Fleet) : NodeId × DriverInput → Prop
  | (n, .event event _) => (f.driver n).core.Informed event.request
  | (_, .crash _ _ _ _) => True

instance (f : Fleet) : (input : NodeId × DriverInput) → Decidable (f.Informed input)
  | (n, .event event _) => inferInstanceAs (Decidable ((f.driver n).core.Informed event.request))
  | (_, .crash _ _ _ _) => inferInstanceAs (Decidable True)

end Fleet

namespace FleetConfig

variable (cfg : FleetConfig) (app : List AppliedEntry → Bytes)

def node (n : NodeId) : DriverConfig :=
  ⟨n, cfg.nodes, cfg.heartbeatInterval n, cfg.electionRange n, cfg.snapshotThreshold n⟩

def init : Fleet := ⟨fun n => (cfg.node n).boot (cfg.rnd n), []⟩

/-- A node handles an event, or stops after the first effects of one and starts again. -/
def machine : Machine Fleet (NodeId × DriverInput) where
  step f input :=
    let (n, input) := input
    match input with
    | .event event rnd =>
      if n ∈ cfg.nodes ∧ f.Deliverable n event then
        ((f.driver n).handleEvent app rnd event).2.map fun d =>
          f.put n d ((f.driver n).handleEvent app rnd event).1
      else none
    | .crash event rnd done restartRnd =>
      if n ∈ cfg.nodes ∧ f.Deliverable n event then
        ((cfg.node n).new ((f.driver n).crashStorage app rnd event done) restartRnd).map fun d =>
          f.put n d (((f.driver n).handleEvent app rnd event).1.take done)
      else none

/-- Three nodes that take a snapshot after every command. -/
def trio : FleetConfig := { Config.trio with snapshotThreshold := fun _ => 1 }

end FleetConfig

/-- A restart takes its snapshot point from the storage and follows. -/
theorem DriverConfig.supplied_of_new {cfg : DriverConfig} {storage : Storage} {rnd : ℕ}
    {d : RaftDriver} (h : cfg.new storage rnd = some d) : d.Supplied := by
  unfold DriverConfig.new at h
  cases hs : storage.snapshot with
  | some snapshot =>
    rw [hs] at h
    simp only [bind, Option.bind_eq_some_iff, Option.some.injEq] at h
    obtain ⟨metadata, -, entries, -, rfl⟩ := h
    refine ⟨fun _ hl => (by cases hl), ?_⟩
    change (⟨storage.snapshot.elim 0 _, storage.snapshot.elim 0 _⟩ : Point) = _
    rw [hs]
    rfl
  | none =>
    have hbase : storage.image.base = ⟨0, 0⟩ := by
      change (⟨storage.snapshot.elim 0 _, storage.snapshot.elim 0 _⟩ : Point) = _
      rw [hs]
      rfl
    rw [hs] at h
    cases hm : storage.metadata with
    | none =>
      rw [hm] at h
      obtain rfl := Option.some.inj h
      exact ⟨fun _ hl => (by cases hl), hbase⟩
    | some metadata =>
      rw [hm] at h
      obtain rfl := Option.some.inj h
      exact ⟨fun _ hl => (by cases hl), hbase⟩

namespace Fleet

variable {cfg : FleetConfig} {app : List AppliedEntry → Bytes} {f : Fleet}

theorem supplied_run (h : (cfg.machine app).Run Fleet.Informed cfg.init f) (n : NodeId) :
    (f.driver n).Supplied := by
  refine h.invariant (P := fun f => ∀ n, (f.driver n).Supplied) (fun n => ?_) ?_ n
  · exact DriverConfig.supplied_of_new
      (show (cfg.node n).new Storage.empty (cfg.rnd n) = _ from rfl)
  · rintro f ⟨m, input⟩ f' hf hok hstep
    -- only the node that moves has to be looked at
    have hput : ∀ {d : RaftDriver} {effects : List Effect}, d.Supplied →
        ∀ n, ((f.put m d effects).driver n).Supplied := by
      intro d effects hd n
      by_cases hn : n = m
      · subst hn
        rwa [put_driver_self]
      · rw [put_driver_of_ne f hn]
        exact hf n
    cases input with
    | event event rnd =>
      simp only [FleetConfig.machine] at hstep
      split_ifs at hstep
      obtain ⟨d, hd, rfl⟩ := Option.map_eq_some_iff.mp hstep
      exact hput (((hf m).handleEvent hok).after d hd)
    | crash event rnd done restartRnd =>
      simp only [FleetConfig.machine] at hstep
      split_ifs at hstep
      obtain ⟨d, hd, rfl⟩ := Option.map_eq_some_iff.mp hstep
      exact hput (DriverConfig.supplied_of_new hd)

/-- A snapshot is sent only if there is one : in every run whose answers are informed, and in
whatever a node is asked next, an action to send a snapshot is not for index 0, and the storage
that the driver has when it comes to the action holds the snapshot of this index and term, which
is what it sends. -/
theorem sends_stored_snapshot (h : (cfg.machine app).Run Fleet.Informed cfg.init f) {n dst : NodeId}
    {event : RaftDriver.Event} {rnd t i l : ℕ} {core' : RaftCore} {actions as bs : List Action}
    (hi : (f.driver n).core.Informed event.request)
    (hc : (f.driver n).core.call rnd event.request = some (core', actions))
    (ha : actions = as ++ .sendInstallSnapshot dst t i l :: bs) :
    0 < i ∧ ∀ d, (((f.driver n).intake event core' actions).handleActions app as).2 = some d →
      ∃ data, d.storage.snapshot = some ⟨i, l, data⟩ ∧
        d.handleAction app (.sendInstallSnapshot dst t i l) =
          d.run [.send dst (.installSnapshot ⟨t, d.id, i, l, data⟩)] := by
  have hs := supplied_run h n
  have ho := RaftCore.call_outcome hc
  have hmem : .sendInstallSnapshot dst t i l ∈ actions := by
    rw [ha]
    exact List.mem_append_right as List.mem_cons_self
  have hpos := ho.snapshot_pos hs.covers hi hmem
  refine ⟨hpos, fun d hd => ?_⟩
  obtain ⟨-, rfl, rfl⟩ := ho.sendInstallSnapshot hmem
  -- what comes before the action in the list leaves the stored snapshot alone
  have hquiet := ho.not_reaches_of_snapshot hmem
  have hsame : d.storage.snapshot = (f.driver n).storage.snapshot := by
    refine
      ((RaftDriver.meets_snapshot_of_not_reaches fun a hm => hquiet a ?_).after d hd).2.trans ?_
    · rw [ha]
      exact List.mem_append_left _ hm
    · rw [(f.driver n).alike_intake event core' actions]
  have hbase : (f.driver n).storage.image.base = core'.base := by
    cases ho.baseMove event.request_ne_snapshot with
    | keep hb => exact hs.stored.trans hb.symm
    | @install req reply hr hlt hb hacts =>
      have hm : .installSnapshot req.lastIncludedIndex req.lastIncludedTerm req.data ∈ actions := by
        rw [hacts]
        exact List.mem_append_right _ List.mem_cons_self
      exact absurd trivial (hquiet _ hm)
  obtain ⟨data, hdata⟩ := Storage.snapshot_of_base hbase hpos
  rw [← hsame] at hdata
  refine ⟨data, hdata, ?_⟩
  rw [RaftDriver.handleAction, Storage.retrieveSnapshotBytes, hdata]
  rfl

/-- The leader and node 3 commit a command, the leader compacts it, and node 2 has nothing. -/
def compactedBehind : List (NodeId × DriverInput) :=
  [(1, .event .tick 1), (3, .event (.message (.requestVote ⟨1, 1, 0, 0⟩)) 1),
    (1, .event (.message (.requestVoteResponse ⟨3, 1, true⟩)) 1),
    (3, .event (.message (.appendEntries ⟨1, 1, 1, 1, [], 0⟩)) 1),
    (1, .event (.message (.appendEntriesResponse ⟨3, 1, 0, false, some 1, none⟩)) 1),
    (1, .event (.propose [7] 0) 1),
    (3, .event (.message (.appendEntries ⟨1, 1, 0, 0, [⟨1, []⟩, ⟨1, [7]⟩], 0⟩)) 1),
    (1, .event (.message (.appendEntriesResponse ⟨3, 1, 2, true, none, none⟩)) 1),
    (2, .event (.message (.appendEntries ⟨1, 1, 1, 1, [], 0⟩)) 1)]

/-- The answer of node 2. -/
def emptyHanded : RaftDriver.Event :=
  .message (.appendEntriesResponse ⟨2, 1, 0, false, some 1, none⟩)

theorem sends_stored_snapshot_compactedBehind :
    ∃ f, (FleetConfig.trio.machine fun _ => [5]).Run Fleet.Informed FleetConfig.trio.init f ∧
      f.Deliverable 1 emptyHanded ∧ ∃ core' actions,
      (f.driver 1).core.call 1 emptyHanded.request = some (core', actions) ∧
      .sendInstallSnapshot 2 1 2 1 ∈ actions ∧
      ∃ data,
        ((f.driver 1).intake emptyHanded core' actions).storage.snapshot = some ⟨2, 1, data⟩ := by
  obtain ⟨f, hf, hdel, hcall⟩ :=
    (FleetConfig.trio.machine fun _ => [5]).exists_run_of_exec Fleet.Informed FleetConfig.trio.init
      compactedBehind (fun f => f.Deliverable 1 emptyHanded ∧
        ((f.driver 1).core.call 1 emptyHanded.request).any
          (fun r => r.2 = [.sendInstallSnapshot 2 1 2 1] ∧
            (f.driver 1).core.Informed emptyHanded.request) = true)
      (by decide +kernel) (by decide +kernel)
  obtain ⟨r, hr, hact⟩ := (Option.any_eq_true _ _).mp hcall
  obtain ⟨hact, hi⟩ := of_decide_eq_true hact
  obtain ⟨-, hall⟩ := sends_stored_snapshot hf hi hr (show r.2 = [] ++ _ :: [] from hact)
  obtain ⟨data, hdata, -⟩ := hall _ rfl
  exact ⟨f, hf, hdel, r.1, r.2, hr, by rw [hact]; exact List.mem_cons_self, data, hdata⟩

/-- Node 1 leads term 1 and sends; node 2 is elected for term 2 and turns the message of term 1
away. Node 1 comes back as the leader of term 3, and the late refusal makes it ask node 2 about
nothing. Node 2 agrees and names the end of its own log. -/
def lateRefusal : List (NodeId × DriverInput) :=
  [(1, .event .tick 1), (3, .event (.message (.requestVote ⟨1, 1, 0, 0⟩)) 1),
    (1, .event (.message (.requestVoteResponse ⟨3, 1, true⟩)) 1),
    (2, .event .tick 1), (2, .event .tick 1),
    (3, .event (.message (.requestVote ⟨2, 2, 0, 0⟩)) 1),
    (2, .event (.message (.requestVoteResponse ⟨3, 2, true⟩)) 1),
    (2, .event (.propose [7] 0) 1), (2, .event (.propose [8] 1) 1), (2, .event (.propose [9] 2) 1),
    (2, .event (.message (.appendEntries ⟨1, 1, 1, 1, [], 0⟩)) 1),
    (1, .event (.message (.appendEntries ⟨2, 2, 1, 2, [], 0⟩)) 1),
    (1, .event .tick 1), (3, .event (.message (.requestVote ⟨3, 1, 1, 1⟩)) 1),
    (1, .event (.message (.requestVoteResponse ⟨3, 3, true⟩)) 1),
    (1, .event (.message (.appendEntriesResponse ⟨2, 2, 4, false, none, none⟩)) 1),
    (2, .event (.message (.appendEntries ⟨3, 1, 0, 0, [], 0⟩)) 1),
    (1, .event (.message (.appendEntriesResponse ⟨2, 3, 4, true, none, none⟩)) 1)]

/-- The leader of term 3 has two entries and no snapshot, and its next heartbeat is to send one
to node 2 : the driver panics. -/
theorem no_snapshot_of_lateRefusal :
    ∃ f, (FleetConfig.trio.machine fun _ => []).Run (fun _ _ => True) FleetConfig.trio.init f ∧
      (∃ core' actions,
        (f.driver 1).core.call 1 RaftDriver.Event.tick.request = some (core', actions) ∧
        .sendInstallSnapshot 2 3 0 0 ∈ actions) ∧
      (f.driver 1).storage.snapshot = none ∧
      ((f.driver 1).handleEvent (fun _ => []) 1 .tick).2.isNone = true := by
  obtain ⟨f, hf, hcall, hsnap, hpanic⟩ :=
    (FleetConfig.trio.machine fun _ => []).exists_run_of_exec (fun _ _ => True)
      FleetConfig.trio.init lateRefusal (fun f =>
        ((f.driver 1).core.call 1 RaftDriver.Event.tick.request).any
            (fun r => .sendInstallSnapshot 2 3 0 0 ∈ r.2) = true ∧
          (f.driver 1).storage.snapshot = none ∧
          ((f.driver 1).handleEvent (fun _ => []) 1 .tick).2.isNone = true)
      (by decide +kernel) (Machine.execOk_true _ _)
  obtain ⟨r, hr, hmem⟩ := (Option.any_eq_true _ _).mp hcall
  exact ⟨f, hf, ⟨r.1, r.2, hr, of_decide_eq_true hmem⟩, hsnap, hpanic⟩

end Fleet

end FerrisFerry
