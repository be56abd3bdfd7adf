import FerrisFerry.Clients
import FerrisFerry.Electable
import FerrisFerry.Followers
import FerrisFerry.Quorum

/-!
# A majority can always serve

Whatever was lost and wherever nodes have stopped, a majority of the nodes is enough to go on
(`Cluster.majority_serves`) : one of them is elected by the others, takes a command, has them
acknowledge its log, and commits and applies the command. All of it is ticks and deliveries of
what these nodes send each other.

Two things stand in the way. A node that has compacted its log is not brought up to date by a
leader that has not (`RaftCore.Overshoots`), so no node of the majority may have a snapshot ahead
of the new leader's. And a leader does not stand for election : where all nodes of the majority
lead, each in a term of its own, a tick of one of them sends no vote request.

A round with a follower is a heartbeat, the follower's answer and what the leader makes of it. It
ends with an acknowledgement (`Cluster.accept_round`), a lower next index
(`Cluster.reject_round`) or a next index behind the snapshot (`Cluster.snapshot_round`).
-/

namespace FerrisFerry

theorem lookup_replace_of_ne {m : AList fun _ : ℕ => ℕ} {k j : ℕ} (hj : j ≠ k) (v : ℕ) :
    (m.replace k v).lookup j = m.lookup j := by
  cases hnew : (m.replace k v).lookup j with
  | some i => exact ((lookup_replace_cases hnew).resolve_left fun h => hj h.1).symm
  | none =>
    rw [AList.lookup_eq_none, AList.mem_replace] at hnew
    exact (AList.lookup_eq_none.mpr hnew).symm

namespace RaftCore

variable {core core' l f : RaftCore} {disk : Mirror} {p rnd : ℕ} {request : Request}
  {actions : List Action}

/-- A rejection at or above the snapshot does not lead back to index 0. -/
theorem retreat_pos (h : f.WellTermed) (hlo : f.lastIncludedIndex ≤ p) (h0 : 0 < p) :
    0 < f.retreat p := by
  have hzero : (f.logTermAt 0).getD 0 = 0 := by
    rcases Nat.eq_zero_or_pos f.lastIncludedIndex with hz | hz
    · have hb := logTermAt_base f
      rw [hz, h.root.mp hz] at hb
      rw [hb, Option.getD_some]
    · rw [logTermAt, if_pos hz, Option.getD_none]
  refine lt_retreat h0 (Nat.zero_le _) fun hlast heq => ?_
  obtain ⟨t, ht⟩ := exists_logTermAt hlo hlast
  rw [hzero, ht, Option.getD_some] at heq
  subst heq
  rcases hlo.eq_or_lt with rfl | hlt
  · rw [logTermAt_base, Option.some.injEq, ← h.root] at ht
    omega
  · exact absurd (h.one_le hlt ht) (Nat.not_succ_le_zero 0)

/-- The tick of a leader. -/
theorem tick_leader (hl : core.state = .leader) (rnd : ℕ) : core.tick rnd =
    if core.heartbeatInterval ≤ core.ticksSinceLastHeartbeat + 1 then
      core.appendEntries.map fun sends => ({ core with ticksSinceLastHeartbeat := 0 }, sends)
    else some ({ core with ticksSinceLastHeartbeat := core.ticksSinceLastHeartbeat + 1 }, []) := by
  simp only [tick, hl, heartbeat]
  split_ifs
  · rw [Option.map_eq_bind]
    rfl
  · rfl

/-- The snapshot only moves forward. -/
theorem LogMove.base_le (h : core.LogMove request core') :
    core.lastIncludedIndex ≤ core'.lastIncludedIndex := by
  have hkeep : core'.base = core.base → core.lastIncludedIndex ≤ core'.lastIncludedIndex :=
    fun hb => (congrArg Point.index hb).ge
  cases h with
  | keep hb => exact hkeep hb
  | push _ _ _ hb => exact hkeep hb
  | merge hm => exact hkeep hm.base_eq
  | install _ _ _ hi _ hb => exact hi.le.trans (congrArg Point.index hb).ge
  | compact _ _ _ hb =>
    rw [show core'.lastIncludedIndex = _ from congrArg Point.index hb, endPoint_index, base_index]
    exact Nat.le_add_right _ _

/-- What a call leaves applied above the snapshot was applied before, or by one of its
actions. -/
theorem Outcome.reached (h : core.Outcome rnd request core' actions) (hc : core.CaughtUp) {i : ℕ}
    (hlo : core'.lastIncludedIndex < i) (hhi : i ≤ core'.lastApplied) :
    i ≤ core.lastApplied ∨ ∃ command, .applyToStateMachine i command ∈ actions := by
  by_cases hr : ∃ req, request = .message (.installSnapshot req)
  · obtain ⟨req, rfl⟩ := hr
    cases h with
    | staleSnapshot => exact Or.inl hhi
    | oldSnapshot | haveSnapshot =>
      exact Or.inl (hhi.trans (termChecked_lastApplied core req.term rnd).le)
    | installSnapshot => exact absurd hhi (Nat.not_le.mpr hlo)
  · cases (h.delivers hc).1 with
    | entries happ => exact (Nat.lt_or_ge core.lastApplied i).symm.imp_right (happ.mem · hhi)
    | snapshot => exact absurd ⟨_, rfl⟩ hr

/-- A follower acknowledges a request that starts where the logs agree, and then they do. -/
theorem Repairable.exists_acceptance {t : ℕ} (h : Repairable disk l f)
    (hlo : l.lastIncludedIndex ≤ p) (hf : f.lastIncludedIndex ≤ p + 1)
    (ht : l.logTermAt p = some t) (hv : p = 0 ∨ f.logTermAt p = some t) (rnd : ℕ) :
    ∃ f' actions, f.handleAppendEntries (l.requestFrom ⟨p, t⟩
        (l.log.drop (p - l.lastIncludedIndex))) rnd = some (f', actions) ∧
      .sendMessage l.id (.appendEntriesResponse f'.acceptance) ∈ actions ∧
      f'.id = f.id ∧ f'.state = .follower ∧ f'.currentTerm = l.currentTerm ∧
      f'.lastIncludedIndex = f.lastIncludedIndex ∧ l.Agrees f' := by
  have hp : p ≤ f.lastLogIndex := by
    rcases hv with h0 | hft
    · omega
    · exact (logTermAt_eq_some.mp hft).2.1
  have hvalid : f.appendEntriesValid (l.requestFrom ⟨p, t⟩
      (l.log.drop (p - l.lastIncludedIndex))) = true :=
    decide_eq_true (hv.imp_right fun hft => ⟨hp, hft⟩)
  have hfollow := h.follow l.id rnd
  obtain ⟨f', actions, hacc, hagree⟩ := hfollow.accept hlo hp hf ht hv
  have hframe := acceptEntries_frame hacc
  refine ⟨f', actions, ?_, ?_, ?_, ?_, ?_, ?_, hagree⟩
  · rw [handleAppendEntries_of_follower h.follower h.term.symm, if_pos hvalid]
    exact hacc
  · obtain ⟨-, -, -, -, -, -, -, rfl⟩ := acceptEntries_spec hacc
    exact List.mem_append_right _ List.mem_cons_self
  · rw [hframe]
    rfl
  · rw [hframe]
    exact hfollow.follower
  · rw [hframe]
    exact h.term
  · rw [hframe]
    rfl

/-- It rejects one that does not, and says where to start again. -/
theorem Repairable.exists_rejection {t : ℕ} {entries : List LogEntry} (h : Repairable disk l f)
    (h0 : p ≠ 0) (hne : f.logTermAt p ≠ some t) (rnd : ℕ) :
    ∃ resp, f.handleAppendEntries (l.requestFrom ⟨p, t⟩ entries) rnd =
        some (f.follow l.id rnd, [.sendMessage l.id (.appendEntriesResponse resp)]) ∧
      resp.id = f.id ∧ resp.term = l.currentTerm ∧ resp.success = false ∧
      resp.firstConflictingIndex.getD 0 = f.retreat p := by
  have hvalid : ¬f.appendEntriesValid (l.requestFrom ⟨p, t⟩ entries) = true := by
    rw [appendEntriesValid, decide_eq_true_iff]
    rintro (hz | ⟨-, hft⟩)
    · exact h0 hz
    · exact hne hft
  refine ⟨(f.follow l.id rnd).conflictResponse (l.requestFrom ⟨p, t⟩ entries) f.rejection, ?_, ?_⟩
  · rw [handleAppendEntries_of_follower h.follower h.term.symm, if_neg hvalid]
    rfl
  · refine ⟨?_, ?_, ?_, conflictResponse_retreat _ _⟩
    all_goals
      rw [conflictResponse]
      split_ifs
    all_goals first | rfl | exact h.term

/-- A follower's answer to the leader's snapshot is an index that both logs agree on. -/
theorem Repairable.exists_reply (h : Repairable disk l f)
    (hbase : f.lastIncludedIndex ≤ l.lastIncludedIndex) (data : Bytes) (rnd : ℕ) :
    ∃ f' actions m t, f.handleInstallSnapshot ⟨l.currentTerm, l.id, l.lastIncludedIndex,
        l.lastIncludedTerm, data⟩ rnd = (f', actions) ∧
      .sendMessage l.id (.installSnapshotResponse ⟨f.id, l.currentTerm, m⟩) ∈ actions ∧
      f'.state = .follower ∧ f'.currentTerm = l.currentTerm ∧
      f'.lastIncludedIndex ≤ l.lastIncludedIndex ∧ l.lastIncludedIndex ≤ m ∧
      l.logTermAt m = some t ∧ f'.logTermAt m = some t := by
  have hstate : (f.follow l.id rnd).state = .follower := (h.follow l.id rnd).follower
  rw [handleInstallSnapshot_eq h.term.le, termChecked_of_le h.term.ge, termActions_of_le h.term.ge]
  dsimp only
  split_ifs with hold hhave
  · refine ⟨_, _, f.lastIncludedIndex, f.lastIncludedTerm, rfl, ?_, hstate, h.term, hbase, hold,
      h.snapshot hold, f.logTermAt_base⟩
    rw [← h.term]
    exact List.mem_cons_self
  · refine ⟨_, _, l.lastIncludedIndex, l.lastIncludedTerm, rfl, ?_, hstate, h.term, hbase, le_rfl,
      l.logTermAt_base, hhave⟩
    rw [← h.term]
    exact List.mem_cons_self
  · refine ⟨_, _, l.lastIncludedIndex, l.lastIncludedTerm, rfl, ?_, hstate, h.term, le_rfl, le_rfl,
      l.logTermAt_base, logTermAt_base _⟩
    rw [← h.term]
    exact List.mem_cons_of_mem _ List.mem_cons_self

end RaftCore

namespace Cluster

variable {cfg : Config} {c c' : Cluster} {Q : List NodeId} {n p : NodeId} {draw : ℕ → ℕ}
  {command : Bytes}

/-- What a node has applied above its snapshot, it has applied by an action. -/
theorem applied_run (h : cfg.machine.Run Sound cfg.init c) {i : ℕ}
    (hlo : (c.core n).lastIncludedIndex < i) (hhi : i ≤ (c.core n).lastApplied) :
    ∃ k ∈ c.trace, k.node = n ∧ ∃ command, .applyToStateMachine i command ∈ k.actions := by
  refine h.invariant' (P := fun c => ∀ n i, (c.core n).lastIncludedIndex < i →
    i ≤ (c.core n).lastApplied → ∃ k ∈ c.trace, k.node = n ∧
      ∃ command, .applyToStateMachine i command ∈ k.actions) ?_ ?_ n i hlo hhi
  · intro n i hlo hhi
    exact absurd hlo (Nat.not_lt.mpr hhi)
  · intro c input c' hr ih hok hs m i hlo hhi
    obtain ⟨hb, hsafe⟩ := sound_run hr
    rcases step_cases hs with ⟨n, request, rnd, after, actions, rfl, -, he, ho, rfl⟩ |
      ⟨n, t, rnd, -, rfl, -⟩
    · have hold : ∀ i, (c.core m).lastIncludedIndex < i → i ≤ (c.core m).lastApplied →
          ∃ k ∈ (c.record n request after actions).trace, k.node = m ∧
            ∃ command, .applyToStateMachine i command ∈ k.actions := fun i hlo hhi => by
        obtain ⟨k, hk, hrest⟩ := ih m i hlo hhi
        exact ⟨k, List.mem_cons_of_mem _ hk, hrest⟩
      by_cases hm : m = n
      · subst hm
        rw [core_record_self] at hlo hhi
        rcases ho.reached (level_of_keeps (keeps_of_sound hr) m).toCaughtUp hlo hhi with hle | hact
        · exact hold i ((ho.logMove (hb.rooted he hok).1).base_le.trans_lt hlo) hle
        · exact ⟨_, List.mem_cons_self, rfl, hact⟩
      · rw [core_record_of_ne hm] at hlo hhi
        exact hold i hlo hhi
    · by_cases hm : m = n
      · subst hm
        simp only [crashed, core_setNode_self, Config.restart_lastIncludedIndex,
          Config.restart_lastApplied] at hlo hhi
        exact absurd hlo (Nat.not_lt.mpr hhi)
      · rw [crashed, core_setNode_of_ne _ hm] at hlo hhi
        exact ih m i hlo hhi

/-! ## One round with a follower -/

/-- A step of the service by the nodes `Q` : a tick, a message, or the proposal at node `n`. The
timeouts are drawn in the order of the calls. -/
def Works (Q : List NodeId) (n : NodeId) (command : Bytes) (draw : ℕ → ℕ) (c : Cluster) :
    Input → Prop
  | .call m .tick rnd | .call m (.message _) rnd => m ∈ Q ∧ rnd = draw c.trace.length
  | .call m (.propose x) rnd => m = n ∧ x = command ∧ rnd = draw c.trace.length
  | _ => False

/-- The steps of the service that are sound. -/
def Serves (Q : List NodeId) (n : NodeId) (command : Bytes) (draw : ℕ → ℕ) (c : Cluster)
    (input : Input) : Prop :=
  c.Sound input ∧ c.Works Q n command draw input

theorem Campaigns.serves {input : Input} (h : c.Campaigns Q draw input) (n : NodeId)
    (command : Bytes) : c.Serves Q n command draw input := by
  obtain ⟨hs, he⟩ := h
  refine ⟨hs, ?_⟩
  cases input with
  | call m request rnd =>
    cases request with
    | message msg =>
      cases msg with
      | requestVote | requestVoteResponse => exact he
      | _ => exact he.elim
    | tick => exact he
    | _ => exact he.elim
  | _ => exact he.elim

/-- In a sound run node `n` leads the majority `Q` and has an entry. No node of `Q` has compacted
further. -/
structure Serving (cfg : Config) (c : Cluster) (Q : List NodeId) (n : NodeId) : Prop where
  run : cfg.machine.Run Sound cfg.init c
  majority : Majority cfg Q n
  heads : c.Heads Q n
  base : ∀ p ∈ Q, (c.core p).lastIncludedIndex ≤ (c.core n).lastIncludedIndex
  last : (c.core n).lastIncludedIndex < (c.core n).lastLogIndex

namespace Serving

theorem vote (h : Serving cfg c Q n) : VoteInv cfg c :=
  (sound_run h.run).1.vote

theorem mem (h : Serving cfg c Q n) : n ∈ cfg.nodes :=
  h.majority.subset h.majority.mem

theorem repairable (h : Serving cfg c Q n) (hp : p ∈ Q) (hpn : p ≠ n) :
    RaftCore.Repairable (c.disk n) (c.core n) (c.core p) :=
  repairable_run h.run h.heads.leader (h.heads.follower p hp hpn) (h.heads.term p hp hpn)

theorem tracking (h : Serving cfg c Q n) : (c.core n).Tracking := by
  obtain ⟨hb, hs⟩ := sound_run h.run
  have hlevel := level_of_keeps (keeps_of_sound h.run) n
  have htrack := hs.leader n h.heads.leader
  refine ⟨h.heads.leader, hlevel.base, hlevel.applied.le, hlevel.commit, ?_, fun p i hi => ?_⟩
  · have hnodup : (c.core n).peers.Nodup := hb.vote.peers n ▸ h.majority.nodes.filter _
    refine (List.perm_ext_iff_of_nodup (AList.keys_nodup _) hnodup).mpr fun p => ?_
    exact ⟨fun hp => hs.keys n p (AList.mem_keys.mp hp),
      fun hp => AList.mem_keys.mpr (htrack.keys p hp)⟩
  · obtain ⟨x, rfl, hknown, hle, -, hdec⟩ := htrack.matched p i hi
    have hx := hb.anc_leader h.heads.leader hknown hle fun hlt => (hdec hlt).1
    exact RaftCore.tip_index ▸ hx.index_le

/-- What a node acknowledges in the term of the leader is in the leader's log. -/
theorem last_of_acceptance (h : Serving cfg c Q n) {f : RaftCore}
    (he : (n, .appendEntriesResponse f.acceptance) ∈ c.net)
    (ht : f.currentTerm = (c.core n).currentTerm) :
    f.lastLogIndex ≤ (c.core n).lastLogIndex := by
  obtain ⟨hb, hs⟩ := sound_run h.run
  obtain ⟨hknown, -⟩ := hs.ack n f.acceptance he rfl
  rcases hknown with hroot | ⟨q, a, hlink⟩
  · exact (congrArg Point.index hroot).trans_le (Nat.zero_le _)
  · have hle := (hb.tree.leader n h.heads.leader).2.2 q _ a hlink ht
    rwa [RaftCore.tip_index] at hle

variable {after : RaftCore} {actions : List Action} {msg : Message} {rnd : ℕ}

/-- A follower goes on following. -/
theorem record_follower (h : Serving cfg c Q n) (hp : p ∈ Q) (hpn : p ≠ n) (he : (p, msg) ∈ c.net)
    (hok : c.Sound (.call p (.message msg) rnd))
    (hc : (c.core p).call rnd (.message msg) = some (after, actions))
    (hs : after.state = .follower) (ht : after.currentTerm = (c.core n).currentTerm)
    (hb : after.lastIncludedIndex ≤ (c.core n).lastIncludedIndex) :
    Serving cfg (c.record p (.message msg) after actions) Q n := by
  have hrun := h.run.trans (Proceeds.call (.message msg) (h.majority.subset hp) he hok hc).run
  have hself : (c.record p (.message msg) after actions).core n = c.core n :=
    core_record_of_ne hpn.symm
  have hcases : ∀ q, (c.record p (.message msg) after actions).core q =
      if q = p then after else c.core q := fun q => by
    split_ifs with hq
    · rw [hq, core_record_self]
    · exact core_record_of_ne hq
  refine ⟨hrun, h.majority, ⟨?_, fun q hq hqn => ?_, ?_, ?_⟩, ?_, ?_⟩
  all_goals try rw [hself]
  · exact h.heads.leader
  · rw [hcases]
    split_ifs
    · exact hs
    · exact h.heads.follower q hq hqn
  · intro q hq hqn
    rw [hcases]
    split_ifs
    · exact ht
    · exact h.heads.term q hq hqn
  · exact h.heads.next
  · intro q hq
    rw [hcases]
    split_ifs
    · exact hb
    · exact h.base q hq
  · exact h.last

/-- The leader goes on leading. -/
theorem record_leader {request : Request} (h : Serving cfg c Q n) (he : c.Enabled n request)
    (hok : c.Sound (.call n request rnd))
    (hc : (c.core n).call rnd request = some (after, actions))
    (hs : after.state = .leader) (ht : after.currentTerm = (c.core n).currentTerm)
    (hb : after.base = (c.core n).base) (hl : (c.core n).lastLogIndex ≤ after.lastLogIndex)
    (hn : ∀ p ∈ (c.core n).peers, ∃ i, after.nextIndex.lookup p = some i ∧
      i ≤ after.lastLogIndex + 1) : Serving cfg (c.record n request after actions) Q n := by
  have hrun := h.run.trans (Proceeds.call request h.mem he hok hc).run
  have hpeers : after.peers = (c.core n).peers := (RaftCore.call_outcome hc).id_eq.2
  have hindex : after.lastIncludedIndex = (c.core n).lastIncludedIndex := congrArg Point.index hb
  have hother : ∀ q ≠ n, (c.record n request after actions).core q = c.core q :=
    fun q hq => core_record_of_ne hq
  refine ⟨hrun, h.majority, ⟨?_, fun q hq hqn => ?_, ?_, ?_⟩, ?_, ?_⟩
  all_goals try rw [core_record_self]
  · exact hs
  · rw [hother q hqn]
    exact h.heads.follower q hq hqn
  · rw [ht]
    intro q hq hqn
    rw [hother q hqn]
    exact h.heads.term q hq hqn
  · rw [hpeers]
    exact hn
  · rw [hindex]
    intro q hq
    by_cases hqn : q = n
    · rw [hqn, core_record_self]
      exact hindex.le
    · rw [hother q hqn]
      exact h.base q hq
  · rw [hindex]
    exact h.last.trans_le hl

end Serving

namespace Serving

variable {after : RaftCore} {actions : List Action} {draw : ℕ → ℕ}

/-- A follower takes a message of the service, and goes on following. -/
theorem exists_taken {msg : Message} (h : Serving cfg c Q n) (command : Bytes) (hp : p ∈ Q)
    (hpn : p ≠ n) (he : (p, msg) ∈ c.net)
    (hok : c.Sound (.call p (.message msg) (draw c.trace.length)))
    (hc : (c.core p).call (draw c.trace.length) (.message msg) = some (after, actions))
    (hs : after.state = .follower) (ht : after.currentTerm = (c.core n).currentTerm)
    (hb : after.lastIncludedIndex ≤ (c.core n).lastIncludedIndex) :
    ∃ c', Proceeds cfg (Serves Q n command draw) c c' ∧ Serving cfg c' Q n ∧
      Made c c' p after actions :=
  ⟨_, .call (.message msg) (h.majority.subset hp) he ⟨hok, hp, rfl⟩ hc,
    h.record_follower hp hpn he hok hc hs ht hb, made_record c p _ after actions⟩

/-- The leader does a step of the service, and goes on leading. -/
theorem exists_done {request : Request} {command : Bytes} (h : Serving cfg c Q n)
    (hok : c.Serves Q n command draw (.call n request (draw c.trace.length)))
    (he : c.Enabled n request)
    (hc : (c.core n).call (draw c.trace.length) request = some (after, actions))
    (hs : after.state = .leader) (ht : after.currentTerm = (c.core n).currentTerm)
    (hb : after.base = (c.core n).base) (hl : (c.core n).lastLogIndex ≤ after.lastLogIndex)
    (hn : ∀ p ∈ (c.core n).peers, ∃ i, after.nextIndex.lookup p = some i ∧
      i ≤ after.lastLogIndex + 1) :
    ∃ c', Proceeds cfg (Serves Q n command draw) c c' ∧ Serving cfg c' Q n ∧
      Made c c' n after actions :=
  ⟨_, .call request h.mem he hok hc, h.record_leader he hok.1 hc hs ht hb hl hn,
    made_record c n _ after actions⟩

end Serving

/-- All that node `n` would send its peers is in flight. -/
def Offers (c : Cluster) (n : NodeId) : Prop :=
  ∀ p ∈ (c.core n).peers, ∀ a out, (c.core n).buildAppendEntriesForPeer p = some a →
    outgoing n (c.disk n) a = some out → out ∈ c.net

/-- A leader sends to all peers when its heartbeat is due. -/
theorem exists_beat (draw : ℕ → ℕ) (command : Bytes) (h : Serving cfg c Q n) :
    ∃ c', Proceeds cfg (Serves Q n command draw) c c' ∧ Serving cfg c' Q n ∧ c'.Offers n ∧
      (c'.core n = { c.core n with ticksSinceLastHeartbeat := 0 }) ∧
      ∀ m ≠ n, c'.core m = c.core m := by
  induction hwait : (c.core n).heartbeatInterval - ((c.core n).ticksSinceLastHeartbeat + 1)
    generalizing c with
  | zero =>
    have htick := RaftCore.tick_leader h.heads.leader (draw c.trace.length)
    obtain ⟨sends, hsends, hall⟩ := (c.core n).exists_appendEntries
    rw [if_pos (by omega), hsends, Option.map_some] at htick
    have hok : c.Serves Q n command draw (.call n .tick (draw c.trace.length)) :=
      ⟨trivial, h.majority.mem, rfl⟩
    have he : c.Enabled n .tick := trivial
    refine ⟨_, .call .tick h.mem he hok htick, ?_, fun p hp a out hb ho => ?_,
      core_record_self, fun m hm => core_record_of_ne hm⟩
    · exact h.record_leader he hok.1 htick h.heads.leader rfl rfl le_rfl h.heads.next
    · rw [core_record_self] at hp hb
      obtain ⟨b, hmem, hb'⟩ := hall p hp
      obtain rfl : b = a := Option.some.inj (hb'.symm.trans hb)
      refine List.mem_append_left _ (List.mem_filterMap.mpr ⟨b, hmem, ?_⟩)
      rwa [disk_record_self] at ho
  | succ wait ih =>
    have htick := RaftCore.tick_leader h.heads.leader (draw c.trace.length)
    rw [if_neg (by omega)] at htick
    have hok : c.Serves Q n command draw (.call n .tick (draw c.trace.length)) :=
      ⟨trivial, h.majority.mem, rfl⟩
    obtain ⟨c₁, hgo, hserving, hmade⟩ :=
      h.exists_done hok trivial htick h.heads.leader rfl rfl le_rfl h.heads.next
    obtain ⟨c', hgo', hserving', hoffers, hself, hkeep⟩ := ih hserving (by
      rw [hmade.self]
      change (c.core n).heartbeatInterval - ((c.core n).ticksSinceLastHeartbeat + 1 + 1) = wait
      omega)
    rw [hmade.self] at hself
    exact ⟨c', hgo.trans hgo', hserving', hoffers, hself,
      fun m hm => (hkeep m hm).trans (hmade.others m hm)⟩

/-- What a round with `p` leaves at the leader `n` : its log, and what it knows of the other
peers. -/
structure Round (c c' : Cluster) (n p : NodeId) : Prop where
  base : (c'.core n).base = (c.core n).base
  log : (c'.core n).log = (c.core n).log
  matched : ∀ q ≠ p, (c'.core n).matchIndex.lookup q = (c.core n).matchIndex.lookup q

theorem Round.trans {c'' : Cluster} (h : Round c c' n p) (h' : Round c' c'' n p) :
    Round c c'' n p :=
  ⟨h'.base.trans h.base, h'.log.trans h.log, fun q hq => (h'.matched q hq).trans (h.matched q hq)⟩

theorem Round.lastLogIndex (h : Round c c' n p) :
    (c'.core n).lastLogIndex = (c.core n).lastLogIndex :=
  RaftCore.lastLogIndex_congr h.base h.log

/-- A step that leaves the leader alone. -/
theorem Round.of_eq (h : c'.core n = c.core n) : Round c c' n p := by
  refine ⟨?_, ?_, fun _ _ => ?_⟩
  all_goals rw [h]

theorem Round.beat (h : c'.core n = { c.core n with ticksSinceLastHeartbeat := 0 }) :
    Round c c' n p := by
  refine ⟨?_, ?_, fun _ _ => ?_⟩
  all_goals rw [h]
  rfl

/-- The leader `n` knows that `p` has all of its log. -/
def Full (c : Cluster) (n p : NodeId) : Prop :=
  (c.core n).matchIndex.lookup p = some (c.core n).lastLogIndex

theorem Round.full (h : Round c c' n p) {q : NodeId} (hq : q ≠ p) (hf : Full c n q) :
    Full c' n q := by
  rw [Full, h.matched q hq, h.lastLogIndex]
  exact hf

/-- The last acknowledgement came from `p` : with those of all of `Q` the log is committed. -/
structure Acked (c : Cluster) (Q : List NodeId) (n p : NodeId) : Prop where
  full : Full c n p
  commit : (∀ q ∈ Q, q ≠ n → Full c n q) → (c.core n).lastLogIndex ≤ (c.core n).commitIndex

/-- A leader counts an acknowledgement of all of its log. -/
theorem exists_recorded (draw : ℕ → ℕ) (command : Bytes) (h : Serving cfg c Q n)
    {resp : AppendEntriesResponseRPC} (hp : resp.id ∈ (c.core n).peers)
    (he : (n, .appendEntriesResponse resp) ∈ c.net) (hs : resp.success = true)
    (ht : resp.term = (c.core n).currentTerm)
    (hm : resp.matchIndex = (c.core n).lastLogIndex) :
    ∃ c', Proceeds cfg (Serves Q n command draw) c c' ∧ Serving cfg c' Q n ∧ Round c c' n resp.id ∧
      Acked c' Q n resp.id := by
  obtain ⟨core', actions, hcall, hcommit, hmax⟩ := h.tracking.exists_response hs ht hp hm.le
    (draw c.trace.length)
  have hok : c.Serves Q n command draw
      (.call n (.message (.appendEntriesResponse resp)) (draw c.trace.length)) :=
    ⟨⟨⟨ht.le, h.heads.leader⟩, fun _ => ht, fun hf => by simp [hs] at hf⟩, h.majority.mem, rfl⟩
  have hrec : (c.core n).Records resp core' actions := by
    cases RaftCore.handleAppendEntriesResponse_outcome hcall with
    | success _ hr =>
      rw [RaftCore.termChecked_of_le ht.le] at hr
      rw [RaftCore.termActions_of_le ht.le]
      exact RaftCore.recordSuccess_spec hr
    | failure hf => simp [hs] at hf
  have hfr := hrec.frame
  have hstate : core'.state = .leader := by
    rw [hfr]
    exact h.heads.leader
  have hterm : core'.currentTerm = (c.core n).currentTerm := by rw [hfr]
  have hbase : core'.base = (c.core n).base := by rw [hfr]; rfl
  have hlog : core'.log = (c.core n).log := by rw [hfr]
  have hmatch : core'.matchIndex = (c.core n).matchIndex.insert resp.id resp.matchIndex := by
    rw [hfr]
  have hnext : core'.nextIndex = (c.core n).nextIndex.insert resp.id (resp.matchIndex + 1) := by
    rw [hfr]
  have hlast : core'.lastLogIndex = (c.core n).lastLogIndex :=
    RaftCore.lastLogIndex_congr hbase hlog
  obtain ⟨c', hgo, h', hmade⟩ := h.exists_done hok he hcall hstate hterm hbase hlast.ge
    fun q hq => by
      rw [hnext, hlast]
      by_cases hqp : q = resp.id
      · exact ⟨resp.matchIndex + 1, by rw [hqp, AList.lookup_insert], by rw [hm]⟩
      · rw [AList.lookup_insert_ne hqp]
        exact h.heads.next q hq
  refine ⟨c', hgo, h', ⟨?_, ?_, fun q hq => ?_⟩, ⟨?_, ?_⟩⟩
  · rw [hmade.self, hbase]
  · rw [hmade.self, hlog]
  · rw [hmade.self, hmatch, AList.lookup_insert_ne hq]
  · rw [Full, hmade.self, hmatch, AList.lookup_insert, hlast, hm]
  · simp only [Full, hmade.self]
    rw [hlast]
    intro hall
    -- with the node itself, a majority holds its last entry, which is of its term
    have hholders : Q.length ≤ ((c.core n).recordMatch resp.id resp.matchIndex).holders
        (c.core n).lastLogIndex := by
      rw [← List.length_erase_add_one h.majority.mem]
      refine Nat.add_le_add ?_ (if_pos le_rfl).ge
      rw [List.countP_eq_length_filter]
      refine ((h.majority.nodup.erase n).subperm fun q hq => ?_).length_le
      obtain ⟨hqn, hqQ⟩ := h.majority.mem_erase.mp hq
      have hq' := hall q hqQ hqn
      rw [hmatch] at hq'
      exact List.mem_filter.mpr ⟨h.majority.mem_peers h.vote hqQ hqn,
        decide_eq_true ⟨(c.core n).lastLogIndex, hq', le_rfl⟩⟩
    have hpeers := h.majority.length_peers h.vote
    have hhalf := h.majority.half
    rcases Nat.lt_or_ge (c.core n).commitIndex (c.core n).lastLogIndex with hlt | hge
    · refine hmax _ ⟨hlt, ?_⟩ (by omega)
      have hlead := ((sound_run h.run).1.tree.leader n h.heads.leader).2.1
      have hterm := @RaftCore.lastLogTerm_eq (c.core n)
      rw [hlead] at hterm
      exact hterm
    · rcases hcommit with hsame | ⟨hgt, -⟩
      · exact hsame ▸ hge
      · exact hge.trans hgt.1.le

section round

variable {next t : ℕ} (h : Serving cfg c Q n) (ho : c.Offers n) (hp : p ∈ Q) (hpn : p ≠ n)
  (hn : (c.core n).nextIndex.lookup p = some next)

include h ho hp hpn hn

/-- A request that starts where the logs agree is acknowledged with all of the leader's log. -/
theorem accept_round (draw : ℕ → ℕ) (command : Bytes) (hlo : (c.core n).lastIncludedIndex < next)
    (hhi : next ≤ (c.core n).lastLogIndex + 1) (ht : (c.core n).logTermAt (next - 1) = some t)
    (hv : next - 1 = 0 ∨ (c.core p).logTermAt (next - 1) = some t) :
    ∃ c', Proceeds cfg (Serves Q n command draw) c c' ∧ Serving cfg c' Q n ∧ Round c c' n p ∧
      Acked c' Q n p := by
  have hpeer := h.majority.mem_peers h.vote hp hpn
  have hr := h.repairable hp hpn
  have hbase := h.base p hp
  -- the follower takes the request
  have hsent := ho p hpeer _ _ (RaftCore.build_entries hn hlo hhi ht) rfl
  rw [Nat.sub_right_comm] at hsent
  obtain ⟨f, accepted, hcall, hack, hfid, hfs, hft, hfb, hagree⟩ :=
    hr.exists_acceptance (by omega) (by omega) ht hv (draw c.trace.length)
  obtain ⟨c₁, hgo, h₁, hmade⟩ := h.exists_taken command hp hpn hsent
    (fun _ h0 => by change next - 1 = 0 at h0; omega) hcall hfs hft (hfb.trans_le hbase)
  have hself := hmade.others n hpn.symm
  have hacked := hmade.sent _ _ hack
  rw [h.vote.id] at hacked
  -- its log ends where the leader's does
  have hlast : f.lastLogIndex = (c.core n).lastLogIndex := by
    refine le_antisymm ?_ ?_
    · have hle := h₁.last_of_acceptance hacked (by rw [hself]; exact hft)
      rwa [hself] at hle
    · obtain ⟨e, he⟩ := RaftCore.exists_logEntryAt h.last le_rfl
      have hentry := hagree _ h.last (hfb.trans_le hbase |>.trans_lt h.last) le_rfl
      rw [he] at hentry
      exact (RaftCore.logTermAt_eq_some.mp (RaftCore.logTermAt_of_logEntryAt hentry)).2.1
  have hpid : f.id = p := hfid.trans (h.vote.id p)
  have hp₁ : f.acceptance.id ∈ (c₁.core n).peers := by
    change f.id ∈ _
    rwa [hself, hpid]
  obtain ⟨c', hgo', h', hround, hacks⟩ := exists_recorded draw command h₁ hp₁ hacked rfl
    (by rw [hself]; exact hft) (by rw [hself]; exact hlast)
  rw [show f.acceptance.id = p from hpid] at hround hacks
  exact ⟨c', hgo.trans hgo', h', (Round.of_eq hself).trans hround, hacks⟩

/-- A request that does not is rejected, and the leader goes back. -/
theorem reject_round (draw : ℕ → ℕ) (command : Bytes) (hlo : (c.core n).lastIncludedIndex < next)
    (hhi : next ≤ (c.core n).lastLogIndex + 1) (ht : (c.core n).logTermAt (next - 1) = some t)
    (h0 : next - 1 ≠ 0) (hne : (c.core p).logTermAt (next - 1) ≠ some t) :
    ∃ c', Proceeds cfg (Serves Q n command draw) c c' ∧ Serving cfg c' Q n ∧ Round c c' n p ∧
      ∃ next' < next, (c'.core n).nextIndex.lookup p = some next' := by
  have hr := h.repairable hp hpn
  have hbase := h.base p hp
  have hpeer := h.majority.mem_peers h.vote hp hpn
  have hsent := ho p hpeer _ _ (RaftCore.build_entries hn hlo hhi ht) rfl
  obtain ⟨resp, hcall, hid, hterm, hfail, hretreat⟩ :=
    hr.exists_rejection h0 hne (draw c.trace.length)
  obtain ⟨c₁, hgo, h₁, hmade⟩ := h.exists_taken command hp hpn hsent
    (fun _ hz => absurd hz h0) hcall (hr.follow _ _).follower hr.term hbase
  have hself := hmade.others n hpn.symm
  have hanswered := hmade.sent _ _ List.mem_cons_self
  rw [h.vote.id] at hanswered
  -- the leader takes the hint, which is above 0
  have hle := (c.core p).retreat_le (next - 1)
  have hpos : 0 < (c.core p).retreat (next - 1) :=
    RaftCore.retreat_pos hr.followerTerms (by omega) (Nat.pos_of_ne_zero h0)
  have hpid : resp.id = p := hid.trans (h.vote.id p)
  have hback : ((c₁.core n).backOff resp).nextIndex.lookup resp.id =
      some ((c.core p).retreat (next - 1)) := by
    rw [RaftCore.backOff, hself, hretreat]
    exact lookup_replace_self (hpid ▸ hn) _
  have hterm₁ : resp.term ≤ (c₁.core n).currentTerm := by
    rw [hself]
    exact hterm.le
  obtain ⟨actions, hcall₁⟩ := RaftCore.handleAppendEntriesResponse_of_failure
    (draw c₁.trace.length) hterm₁ hfail hback (by rw [hself]; omega)
  have hok₁ : c₁.Serves Q n command draw
      (.call n (.message (.appendEntriesResponse resp)) (draw c₁.trace.length)) :=
    ⟨⟨⟨hterm₁, h₁.heads.leader⟩, fun hs => by simp [hfail] at hs, fun _ => hretreat ▸ hpos⟩,
      h.majority.mem, rfl⟩
  obtain ⟨c', hgo', h', hmade'⟩ := h₁.exists_done hok₁ hanswered hcall₁ h₁.heads.leader rfl rfl
    le_rfl fun q hq => by
      obtain ⟨i, hi, hile⟩ := h₁.heads.next q hq
      by_cases hqp : q = resp.id
      · rw [hqp]
        exact ⟨_, hback, by change _ ≤ (c₁.core n).lastLogIndex + 1; rw [hself]; omega⟩
      · exact ⟨i, (lookup_replace_of_ne hqp _).trans hi, hile⟩
  have hround : Round c₁ c' n p := by
    refine ⟨?_, ?_, fun _ _ => ?_⟩
    all_goals
      rw [hmade'.self]
      rfl
  refine ⟨c', hgo.trans hgo', h', (Round.of_eq hself).trans hround,
    (c.core p).retreat (next - 1), by omega, ?_⟩
  rw [hmade'.self]
  rw [hpid] at hback
  exact hback

/-- A follower behind the leader's snapshot gets it, and the leader goes on behind an index
that they agree on. -/
theorem snapshot_round (draw : ℕ → ℕ) (command : Bytes)
    (hs : next - 1 < (c.core n).lastIncludedIndex) :
    ∃ c', Proceeds cfg (Serves Q n command draw) c c' ∧ Serving cfg c' Q n ∧ Round c c' n p ∧
      ∃ m t, (c'.core n).nextIndex.lookup p = some (m + 1) ∧
        (c'.core n).lastIncludedIndex ≤ m ∧ (c'.core n).logTermAt m = some t ∧
        (c'.core p).logTermAt m = some t := by
  have hr := h.repairable hp hpn
  obtain ⟨data, hdata⟩ := Option.isSome_iff_exists.mp (hr.stored (by omega))
  have hout : outgoing n (c.disk n) ((c.core n).installSnapshotForPeer p) =
      some (p, .installSnapshot ⟨(c.core n).currentTerm, (c.core n).id,
        (c.core n).lastIncludedIndex, (c.core n).lastIncludedTerm, data⟩) := by
    simp only [RaftCore.installSnapshotForPeer, outgoing, hdata, Option.map_some, h.vote.id]
  have hsent := ho p (h.majority.mem_peers h.vote hp hpn) _ _ (RaftCore.build_snapshot hn hs) hout
  obtain ⟨f, actions, m, t, hcall, hreply, hfs, hft, hfb, hlo, hlt, hfm⟩ :=
    hr.exists_reply (h.base p hp) data (draw c.trace.length)
  obtain ⟨c₁, hgo, h₁, hmade⟩ := h.exists_taken command hp hpn hsent trivial
    (congrArg some hcall) hfs hft hfb
  have hself := hmade.others n hpn.symm
  have hanswered := hmade.sent _ _ hreply
  rw [h.vote.id, h.vote.id] at hanswered
  -- the leader takes it for the follower's match index
  have hcall₁ : (c₁.core n).call (draw c₁.trace.length) (.message (.installSnapshotResponse
      ⟨p, (c.core n).currentTerm, m⟩)) = some ((c₁.core n).recordMatch p m,
        (c₁.core n).termActions (c.core n).currentTerm) :=
    congrArg some (RaftCore.handleInstallSnapshotResponse_of_leader h₁.heads.leader
      (by rw [hself]))
  have hok₁ : c₁.Serves Q n command draw (.call n (.message (.installSnapshotResponse
      ⟨p, (c.core n).currentTerm, m⟩)) (draw c₁.trace.length)) := ⟨trivial, h.majority.mem, rfl⟩
  have hml := (RaftCore.logTermAt_eq_some.mp hlt).2.1
  have hnp : (((c₁.core n).recordMatch p m).nextIndex).lookup p = some (m + 1) :=
    AList.lookup_insert _
  obtain ⟨c', hgo', h', hmade'⟩ := h₁.exists_done hok₁ hanswered hcall₁ h₁.heads.leader rfl rfl
    le_rfl fun q hq => by
      by_cases hqp : q = p
      · rw [hqp]
        exact ⟨m + 1, hnp, by change _ ≤ (c₁.core n).lastLogIndex + 1; rw [hself]; omega⟩
      · obtain ⟨i, hi, hile⟩ := h₁.heads.next q hq
        exact ⟨i, (AList.lookup_insert_ne hqp).trans hi, hile⟩
  have hround : Round c₁ c' n p := by
    refine ⟨?_, ?_, fun q hq => ?_⟩
    all_goals rw [hmade'.self]
    · rfl
    · rfl
    · exact AList.lookup_insert_ne hq
  refine ⟨c', hgo.trans hgo', h', (Round.of_eq hself).trans hround, m, t, ?_, ?_, ?_, ?_⟩
  · rw [hmade'.self]
    exact hnp
  · rw [hmade'.self]
    rw [← hself] at hlo
    exact hlo
  · rw [hmade'.self, ← hlt, ← hself]
    rfl
  · rw [hmade'.others p hpn, hmade.self]
    exact hfm

end round

/-- The leader gets an acknowledgement of all of its log from a peer : by induction on the next
index, which every rejection lowers. -/
theorem exists_ack (draw : ℕ → ℕ) (command : Bytes) (h : Serving cfg c Q n) (hp : p ∈ Q)
    (hpn : p ≠ n) :
    ∃ c', Proceeds cfg (Serves Q n command draw) c c' ∧ Serving cfg c' Q n ∧ Round c c' n p ∧
      Acked c' Q n p := by
  obtain ⟨next, hn, hhi⟩ := h.heads.next p (h.majority.mem_peers h.vote hp hpn)
  induction next using Nat.strong_induction_on generalizing c with
  | _ next ih =>
    obtain ⟨c₁, hgo₁, h₁, hoffers₁, hself₁, hothers₁⟩ := exists_beat draw command h
    have hround₁ : Round c c₁ n p := .beat hself₁
    have hn₁ : (c₁.core n).nextIndex.lookup p = some next := by rw [hself₁]; exact hn
    have hhi₁ : next ≤ (c₁.core n).lastLogIndex + 1 := hround₁.lastLogIndex ▸ hhi
    have hpos : 0 < next := ((sound_run h₁.run).2.leader n h₁.heads.leader).next p
      (h₁.majority.mem_peers h₁.vote hp hpn) next hn₁
    rcases Nat.lt_or_ge (next - 1) (c₁.core n).lastIncludedIndex with hs | hs
    · obtain ⟨c₂, hgo₂, h₂, hround₂, m, t, hn₂, hlo, hlt, hft⟩ :=
        snapshot_round h₁ hoffers₁ hp hpn hn₁ draw command hs
      obtain ⟨c₃, hgo₃, h₃, hoffers₃, hself₃, hothers₃⟩ := exists_beat draw command h₂
      have hround₃ : Round c₂ c₃ n p := .beat hself₃
      have hlt₃ : (c₃.core n).logTermAt m = some t := by
        rw [hself₃]
        exact hlt
      have hft₃ : (c₃.core p).logTermAt m = some t := by
        rw [hothers₃ p hpn]
        exact hft
      have hin := RaftCore.logTermAt_eq_some.mp hlt₃
      obtain ⟨c', hgo', h', hround', hacked⟩ := accept_round h₃ hoffers₃ hp hpn
        (show _ = some (m + 1) by rw [hself₃]; exact hn₂) draw command (Nat.lt_succ_of_le hin.1)
        (Nat.succ_le_succ hin.2.1) hlt₃ (Or.inr hft₃)
      exact ⟨c', ((hgo₁.trans hgo₂).trans hgo₃).trans hgo', h',
        ((hround₁.trans hround₂).trans hround₃).trans hround', hacked⟩
    · have hlo : (c₁.core n).lastIncludedIndex < next := by omega
      obtain ⟨t, ht⟩ := RaftCore.exists_logTermAt hs (by omega)
      by_cases hv : next - 1 = 0 ∨ (c₁.core p).logTermAt (next - 1) = some t
      · obtain ⟨c', hgo', h', hround', hacked⟩ :=
          accept_round h₁ hoffers₁ hp hpn hn₁ draw command hlo hhi₁ ht hv
        exact ⟨c', hgo₁.trans hgo', h', hround₁.trans hround', hacked⟩
      · obtain ⟨h0, hne⟩ := not_or.mp hv
        obtain ⟨c₂, hgo₂, h₂, hround₂, next', hlt, hn₂⟩ :=
          reject_round h₁ hoffers₁ hp hpn hn₁ draw command hlo hhi₁ ht h0 hne
        obtain ⟨c', hgo', h', hround', hacked⟩ := ih next' hlt h₂ hn₂
          (hround₂.lastLogIndex ▸ hlt.le.trans hhi₁)
        exact ⟨c', (hgo₁.trans hgo₂).trans hgo', h', (hround₁.trans hround₂).trans hround', hacked⟩

/-- The leader gets one from all of its peers, and commits its log. -/
theorem exists_acks (draw : ℕ → ℕ) (command : Bytes) (h : Serving cfg c Q n) (ps : List NodeId)
    (hps : ∀ p ∈ ps, p ∈ Q ∧ p ≠ n) :
    ∃ c', Proceeds cfg (Serves Q n command draw) c c' ∧ Serving cfg c' Q n ∧
      (c'.core n).base = (c.core n).base ∧ (c'.core n).log = (c.core n).log ∧
      (∀ p ∈ ps, Full c' n p) ∧ (ps ≠ [] → (∀ p ∈ Q, p ≠ n → Full c' n p) →
        (c'.core n).lastLogIndex ≤ (c'.core n).commitIndex) := by
  induction ps with
  | nil => exact ⟨c, .refl _ _ c, h, rfl, rfl, by simp, fun hnil => absurd rfl hnil⟩
  | cons p ps ih =>
    obtain ⟨⟨hp, hpn⟩, hps⟩ := List.forall_mem_cons.mp hps
    obtain ⟨c₁, hgo₁, h₁, hbase₁, hlog₁, hfull₁, -⟩ := ih hps
    obtain ⟨c', hgo', h', hround, hacked⟩ := exists_ack draw command h₁ hp hpn
    refine ⟨c', hgo₁.trans hgo', h', hround.base.trans hbase₁, hround.log.trans hlog₁,
      fun q hq => ?_, fun _ => hacked.commit⟩
    by_cases hqp : q = p
    · exact hqp ▸ hacked.full
    · exact hround.full hqp (hfull₁ q ((List.mem_cons.mp hq).resolve_left hqp))

/-- A leader takes a command. -/
theorem exists_proposed (draw : ℕ → ℕ) (h : Serving cfg c Q n) (command : Bytes) :
    ∃ c', Proceeds cfg (Serves Q n command draw) c c' ∧ Serving cfg c' Q n ∧
      (c'.core n).base = (c.core n).base ∧
      (c'.core n).log = (c.core n).log ++ [⟨(c.core n).currentTerm, command⟩] := by
  obtain ⟨sends, hsends, -⟩ :=
    ({ (c.core n).push command with ticksSinceLastHeartbeat := 0 } : RaftCore).exists_appendEntries
  have hcall : (c.core n).call (draw c.trace.length) (.propose command) =
      some ({ (c.core n).push command with ticksSinceLastHeartbeat := 0 },
        .persistLogEntries ((c.core n).lastLogIndex + 1) [⟨(c.core n).currentTerm, command⟩] ::
          sends) := by
    rw [RaftCore.call_propose, RaftCore.propose_eq, if_neg (not_not.mpr h.heads.leader), hsends]
    rfl
  have hlast : ({ (c.core n).push command with ticksSinceLastHeartbeat := 0 } :
      RaftCore).lastLogIndex = (c.core n).lastLogIndex + 1 := by
    simp [RaftCore.lastLogIndex, RaftCore.push, Nat.add_assoc]
  have hok : c.Serves Q n command draw (.call n (.propose command) (draw c.trace.length)) :=
    ⟨trivial, rfl, rfl, rfl⟩
  obtain ⟨c', hgo, h', hmade⟩ := h.exists_done hok trivial hcall h.heads.leader rfl rfl (by omega)
    fun p hp => by
      obtain ⟨i, hi, hle⟩ := h.heads.next p hp
      exact ⟨i, hi, by omega⟩
  refine ⟨c', hgo, h', ?_, ?_⟩
  all_goals
    rw [hmade.self]
    rfl

/-- In every state of a sound run, whatever was lost and wherever nodes have stopped, let `Q` be a
majority and `n` one of its nodes, behind no other one of them with its log or its snapshot. If
`n` leads, let another one not lead. By ticks and deliveries at `Q` alone a command proposed to
`n` can be committed, and applied by it, behind all that `n` has now. -/
theorem majority_serves (h : cfg.machine.Run Sound cfg.init c) (hq : Majority cfg Q n)
    (hup : ∀ m ∈ Q, (c.core m).tip ≤ (c.core n).tip)
    (hbase : ∀ m ∈ Q, (c.core m).lastIncludedIndex ≤ (c.core n).lastIncludedIndex)
    (hquiet : (c.core n).state = .leader → ∃ m ∈ Q, m ≠ n ∧ (c.core m).state ≠ .leader)
    (draw : ℕ → ℕ) (command : Bytes) :
    ∃ c', cfg.machine.Run (Serves Q n command draw) c c' ∧ ∃ i > (c.core n).lastLogIndex,
      ∃ k ∈ c'.trace, k.node = n ∧ .applyToStateMachine i command ∈ k.actions := by
  -- the node is elected, and appends an entry of its own
  obtain ⟨c₁, hgo₁, hheads, hgrows⟩ := exists_elected draw h hq hup hquiet
  replace hgo₁ := hgo₁.mono fun _ _ h => h.serves n command
  have hrun₁ := h.trans (hgo₁.run.mono fun _ _ h => h.1)
  have hindex : ∀ m, (c₁.core m).lastIncludedIndex = (c.core m).lastIncludedIndex := fun m =>
    congrArg Point.index (hgrows.base m)
  have h₁ : Serving cfg c₁ Q n := by
    refine ⟨hrun₁, hq, hheads, fun p hp => ?_, ?_⟩
    · rw [hindex, hindex]
      exact hbase p hp
    · rw [hindex, hgrows.last]
      exact Nat.lt_succ_of_le (Nat.le_add_right _ _)
  -- it takes the command, and the others acknowledge it
  obtain ⟨c₂, hgo₂, h₂, hbase₂, hlog₂⟩ := exists_proposed draw h₁ command
  obtain ⟨c', hgo₃, h₃, hbase₃, hlog₃, hfull, hacked⟩ := exists_acks draw command h₂ (Q.erase n)
    fun p hp => (hq.mem_erase.mp hp).symm
  have hgo := (hgo₁.trans hgo₂).trans hgo₃
  have hrun := h.trans (hgo.run.mono fun _ _ h => h.1)
  obtain ⟨hb, hs⟩ := sound_run hrun
  -- its last entry is the command, committed and applied
  have hlog : (c'.core n).log = (c₁.core n).log ++ [⟨(c₁.core n).currentTerm, command⟩] :=
    hlog₃.trans hlog₂
  have hentry : (c'.core n).logEntryAt (c'.core n).lastLogIndex =
      some ⟨(c₁.core n).currentTerm, command⟩ := by
    rw [RaftCore.logEntryAt, if_neg (Nat.not_le.mpr h₃.last), RaftCore.lastLogIndex, hlog]
    simp
  have hcommit := hacked hq.erase_ne_nil fun p hp hpn =>
    hfull p (hq.mem_erase.mpr ⟨hpn, hp⟩)
  obtain ⟨k, hk, hkn, x, hx⟩ := applied_run hrun h₃.last (hcommit.trans (hs.applied n).ge)
  have hx' : x = command :=
    hb.settled_unique (settled_run hrun k hk _ x hx) (hs.settled hb hcommit hentry)
  refine ⟨c', hgo.run, _, ?_, k, hk, hkn, hx' ▸ hx⟩
  have hlast : (c'.core n).lastLogIndex = (c₁.core n).lastLogIndex + 1 := by
    have hb' : (c'.core n).lastIncludedIndex = (c₁.core n).lastIncludedIndex :=
      congrArg Point.index (hbase₃.trans hbase₂)
    rw [RaftCore.lastLogIndex, hlog, hb', List.length_append, ← Nat.add_assoc]
    rfl
  rw [hlast, hgrows.last]
  omega

theorem majority_serves_stoppedLeader :
    ∃ c, Config.trio.machine.Run Sound Config.trio.init c ∧
      (∀ m ∈ Config.trio.nodes, (c.core m).state = .follower) ∧
      ∃ c', Config.trio.machine.Run (Serves [1, 3] 1 [7] fun k => k) c c' ∧
        ∃ i > 1, ∃ k ∈ c'.trace, k.node = 1 ∧ .applyToStateMachine i [7] ∈ k.actions := by
  obtain ⟨c, hc, hfollow, hup, hbase, hlast⟩ :=
    Config.trio.machine.exists_run_of_exec Sound Config.trio.init stoppedLeader (fun c =>
      (∀ m ∈ Config.trio.nodes, (c.core m).state = .follower) ∧
      (∀ m ∈ ([1, 3] : List NodeId), (c.core m).tip ≤ (c.core 1).tip) ∧
      (∀ m ∈ ([1, 3] : List NodeId), (c.core m).lastIncludedIndex ≤ (c.core 1).lastIncludedIndex) ∧
      (c.core 1).lastLogIndex = 1) (by decide +kernel) (by decide +kernel)
  have hq : Majority Config.trio [1, 3] 1 := by constructor <;> decide
  refine ⟨c, hc, hfollow, ?_⟩
  obtain ⟨c', hc', i, hi, happlied⟩ := majority_serves hc hq hup hbase
    (fun hl => by simp [hfollow 1 (by decide)] at hl) (fun k => k) [7]
  exact ⟨c', hc', i, hlast ▸ hi, happlied⟩

end Cluster

end FerrisFerry
