import FerrisFerry.Gapless
import FerrisFerry.ReadBarrier

/-!
# Who stands behind a read barrier

The life of one core, call by call, with whatever answers the network brings. A barrier is
released by a count of successes that all peers, barriers and terms share. The count is a
majority of the nodes if every success that is counted for the barrier is of the leader's term
and the first one of its sender (`Lifetime.DistinctAcks`) : then half of the peers have
answered since the barrier was asked for (`Lifetime.barrier_quorum`).
-/

namespace FerrisFerry

/-- A call with the core before and after it. -/
structure Stage where
  request : Request
  before : RaftCore
  after : RaftCore
  actions : List Action

/-- A core and its calls so far, newest first. -/
structure Lifetime where
  core : RaftCore
  past : List Stage

namespace Stage

/-- The call asks for a barrier and is given `id`. -/
def Requests (k : Stage) (id : ℕ) : Prop :=
  k.request = .readBarrier ∧ k.before.requestReadBarrier.2 = some id

instance (k : Stage) (id : ℕ) : Decidable (k.Requests id) :=
  inferInstanceAs (Decidable (_ ∧ _))

/-- The success the call handles. -/
def ack (k : Stage) : Option AppendEntriesResponseRPC :=
  match k.request with
  | .message (.appendEntriesResponse resp) => if resp.success then some resp else none
  | _ => none

end Stage

namespace Lifetime

/-- The calls since barrier `id` was asked for. -/
def since (s : Lifetime) (id : ℕ) : List Stage :=
  s.past.takeWhile fun k => ¬k.Requests id

/-- A call of the core, with the timeout it draws. -/
def machine : Machine Lifetime (Request × ℕ) where
  step s input := (s.core.call input.2 input.1).map fun r =>
    ⟨r.1, ⟨input.1, s.core, r.1, r.2⟩ :: s.past⟩

/-- The start of a core. -/
def start (core : RaftCore) : Lifetime := ⟨core, []⟩

/-- The steps on which the count means what it is meant to, for barrier `id` : a success that
is handled while the barrier is pending is of the leader's term and the first one of its sender,
a peer, since the barrier was asked for. -/
def DistinctAcks (id : ℕ) (s : Lifetime) : Request × ℕ → Prop
  | (.message (.appendEntriesResponse resp), _) =>
    resp.success = true → id ∈ s.core.readBarriers.keys →
      resp.term = s.core.currentTerm ∧ resp.id ∈ s.core.peers ∧
        ∀ k ∈ s.since id, ∀ r ∈ k.ack, r.id ≠ resp.id
  | _ => True

instance (id : ℕ) (s : Lifetime) : (input : Request × ℕ) → Decidable (s.DistinctAcks id input)
  | (.message (.appendEntriesResponse resp), _) =>
    inferInstanceAs (Decidable (resp.success = true → id ∈ s.core.readBarriers.keys →
      resp.term = s.core.currentTerm ∧ resp.id ∈ s.core.peers ∧
        ∀ k ∈ s.since id, ∀ r ∈ k.ack, r.id ≠ resp.id))
  | (.message (.requestVote _), _) | (.message (.requestVoteResponse _), _)
  | (.message (.appendEntries _), _) | (.message (.installSnapshot _), _)
  | (.message (.installSnapshotResponse _), _) | (.tick, _) | (.propose _, _)
  | (.readBarrier, _) | (.snapshot _, _) => inferInstanceAs (Decidable True)

/-- The peers in `A` have answered the leader with successes of its term, each in one of
`calls`. -/
def AnsweredBy (core : RaftCore) (calls : List Stage) (A : Finset NodeId) : Prop :=
  A ⊆ core.peers.toFinset ∧ ∀ p ∈ A, ∃ k ∈ calls, ∃ resp ∈ k.ack,
    resp.id = p ∧ resp.term = core.currentTerm

/-- What is known while barrier `id` is pending. -/
structure Waiting (s : Lifetime) (id count : ℕ) : Prop where
  leader : s.core.state = .leader
  acks : ∃ A, AnsweredBy s.core (s.since id) A ∧ s.core.appendEntriesCount ≤ count + A.card

variable {s : Lifetime} {core : RaftCore} {rnd id count : ℕ} {request : Request}
  {actions : List Action} {calls : List Stage} {A : Finset NodeId}

/-- The lifetime after a call. -/
def record (s : Lifetime) (request : Request) (core : RaftCore) (actions : List Action) :
    Lifetime :=
  ⟨core, ⟨request, s.core, core, actions⟩ :: s.past⟩

theorem since_record (h : request = .readBarrier → s.core.requestReadBarrier.2 ≠ some id) :
    (s.record request core actions).since id =
      ⟨request, s.core, core, actions⟩ :: s.since id :=
  List.takeWhile_cons_of_pos (decide_eq_true fun hr => h hr.1 hr.2)

theorem AnsweredBy.cons (h : AnsweredBy s.core calls A) {k : Stage}
    (hp : core.peers = s.core.peers) (ht : core.currentTerm = s.core.currentTerm) :
    AnsweredBy core (k :: calls) A := by
  refine ⟨hp ▸ h.1, fun p hpA => ?_⟩
  obtain ⟨j, hj, hack⟩ := h.2 p hpA
  exact ⟨j, List.mem_cons_of_mem k hj, ht ▸ hack⟩

/-- A success that is the first of its sender is one more peer. -/
theorem AnsweredBy.insert (h : AnsweredBy s.core calls A) {k : Stage}
    {resp : AppendEntriesResponseRPC} (hk : k.ack = some resp)
    (hp : core.peers = s.core.peers) (ht : core.currentTerm = s.core.currentTerm)
    (hterm : resp.term = s.core.currentTerm) (hpeer : resp.id ∈ s.core.peers)
    (hfirst : ∀ j ∈ calls, ∀ r ∈ j.ack, r.id ≠ resp.id) :
    AnsweredBy core (k :: calls) (insert resp.id A) ∧ (insert resp.id A).card = A.card + 1 := by
  refine ⟨⟨?_, fun p hpA => ?_⟩, ?_⟩
  · rw [hp]
    exact Finset.insert_subset (List.mem_toFinset.mpr hpeer) h.1
  · rcases Finset.mem_insert.mp hpA with rfl | hpA
    · exact ⟨k, List.mem_cons_self, resp, hk, rfl, hterm.trans ht.symm⟩
    · exact (h.cons hp ht).2 p hpA
  · refine Finset.card_insert_of_notMem fun hmem => ?_
    obtain ⟨j, hj, r, hr, hid, -⟩ := h.2 _ hmem
    exact hfirst j hj r hr hid

/-- A call that counts nothing keeps a pending barrier it does not ask for. -/
theorem Waiting.record (hw : s.Waiting id count) (hp : core.peers = s.core.peers)
    (hs : core.state = .leader) (ht : core.currentTerm = s.core.currentTerm)
    (hc : core.appendEntriesCount = s.core.appendEntriesCount)
    (hr : request = .readBarrier → s.core.requestReadBarrier.2 ≠ some id) :
    (s.record request core actions).Waiting id count := by
  obtain ⟨A, hA, hcount⟩ := hw.acks
  refine ⟨hs, A, ?_, hc ▸ hcount⟩
  rw [since_record hr]
  exact hA.cons hp ht

/-- Every call accounts for the pending barrier. -/
theorem Waiting.step (hi : ∀ count, s.core.readBarriers.lookup id = some count → s.Waiting id count)
    (hok : s.DistinctAcks id (request, rnd)) (ho : s.core.Outcome rnd request core actions)
    (hlook : core.readBarriers.lookup id = some count) :
    (s.record request core actions).Waiting id count := by
  have hp := ho.id_eq.2
  cases ho.barrierMove with
  | keep hrb hc hst hq =>
    have hw := hi count (hrb ▸ hlook)
    obtain ⟨hl, ht⟩ := hst hw.leader
    exact hw.record hp hl ht hc fun hr => absurd hw.leader (hq hr)
  | clear hrb => exact absurd hlook (hrb id count)
  | @request id' _ hl hid hst ht hcm hc hrb =>
    rw [hrb] at hlook
    rcases lookup_insert_cases hlook with ⟨rfl, rfl⟩ | ⟨hnew, hlook⟩
    · -- asked for just now : nobody has to have answered
      refine ⟨hst, ∅, ⟨Finset.empty_subset _, fun p hp => absurd hp (Finset.notMem_empty p)⟩, ?_⟩
      exact hc.le
    · refine (hi count hlook).record hp hst ht hc fun _ h => hnew ?_
      exact Option.some.inj (h.symm.trans hid)
  | @count resp _ hsucc hst ht hc hsub =>
    have hlook' := hsub id count hlook
    have hw := hi count hlook'
    obtain ⟨hterm, hpeer, hfirst⟩ := hok hsucc (AList.mem_keys.mpr
      (AList.lookup_isSome.mp (by rw [hlook']; rfl)))
    obtain ⟨A, hA, hcount⟩ := hw.acks
    obtain ⟨hA', hcard⟩ := hA.insert
      (k := ⟨.message (.appendEntriesResponse resp), s.core, core, actions⟩)
      (by simp [Stage.ack, hsucc]) hp ht hterm hpeer hfirst
    refine ⟨hst.trans hw.leader, insert resp.id A, ?_, ?_⟩
    · rw [since_record (fun h => by cases h)]
      exact hA'
    · change core.appendEntriesCount ≤ _
      omega

/-- The pending barrier is accounted for in every lifetime, and the node is none of its peers. -/
theorem waiting_run {core₀ : RaftCore} (h₀ : core₀.Started)
    (h : machine.Run (DistinctAcks id) (start core₀) s) :
    s.core.id ∉ s.core.peers ∧
      ∀ count, s.core.readBarriers.lookup id = some count → s.Waiting id count := by
  refine h.invariant (P := fun s => s.core.id ∉ s.core.peers ∧
    ∀ count, s.core.readBarriers.lookup id = some count → s.Waiting id count) ⟨?_, ?_⟩ ?_
  · cases h₀ <;> simp [start, RaftCore.new, RaftCore.restore, RaftCore.restoreWithSnapshot]
  · intro count hlook
    cases h₀ <;>
      simp [start, RaftCore.new, RaftCore.restore, RaftCore.restoreWithSnapshot] at hlook
  · rintro s ⟨request, rnd⟩ s' ⟨hid, hi⟩ hok hs
    obtain ⟨⟨core, actions⟩, hcall, rfl⟩ := Option.map_eq_some_iff.mp hs
    have ho := RaftCore.call_outcome hcall
    refine ⟨?_, fun count hlook => Waiting.step hi hok ho hlook⟩
    change core.id ∉ core.peers
    rwa [ho.id_eq.1, ho.id_eq.2]

/-- The call that releases the barrier is the last of a majority of answers. -/
theorem released_record (hn : s.core.id ∉ s.core.peers)
    (hi : ∀ count, s.core.readBarriers.lookup id = some count → s.Waiting id count)
    (hok : s.DistinctAcks id (request, rnd)) (ho : s.core.Outcome rnd request core actions)
    (hm : .readBarrierReady id ∈ actions) :
    ∃ A, AnsweredBy s.core (⟨request, s.core, core, actions⟩ :: s.since id) A ∧
      s.core.peers.length + 1 < 2 * (insert s.core.id A).card := by
  cases ho.emits hm with
  | leading hbuild => exact (RaftCore.leading_of_build hbuild).elim
  | @ready resp _ count hreq hsucc hlook hcount =>
    subst hreq
    -- a higher term drops the barrier
    have hle : resp.term ≤ s.core.currentTerm := by
      refine Nat.not_lt.mp fun hlt => ?_
      rw [RaftCore.termChecked_of_lt hlt] at hlook
      simp at hlook
    rw [RaftCore.termChecked_of_le hle] at hlook
    obtain ⟨A, hA, hc⟩ := (hi count hlook).acks
    obtain ⟨hterm, hpeer, hfirst⟩ := hok hsucc (AList.mem_keys.mpr
      (AList.lookup_isSome.mp (by rw [hlook]; rfl)))
    obtain ⟨hA', hcard⟩ := hA.insert
      (k := ⟨.message (.appendEntriesResponse resp), s.core, core, actions⟩)
      (by simp [Stage.ack, hsucc]) rfl rfl hterm hpeer hfirst
    refine ⟨_, hA', ?_⟩
    have hcnt : core.appendEntriesCount = s.core.appendEntriesCount + 1 := by
      cases ho with
      | failure hfail => simp [hsucc] at hfail
      | success _ hr =>
        have hrec := RaftCore.recordSuccess_spec hr
        rw [RaftCore.termChecked_of_le hle] at hrec
        rw [hrec.frame]
    rw [Finset.card_insert_of_notMem fun hmem => hn (List.mem_toFinset.mp (hA'.1 hmem))]
    omega

/-- Whatever has happened since some request of a barrier lies behind it. -/
theorem mem_of_mem_since {mid earlier : List Stage} {b k : Stage}
    (hpast : s.past = mid ++ b :: earlier) (hb : b.Requests id) (hk : k ∈ s.since id) :
    k ∈ mid := by
  rw [since, hpast] at hk
  clear hpast
  induction mid with
  | nil =>
    rw [List.nil_append, List.takeWhile_cons_of_neg (by simpa using hb)] at hk
    simp at hk
  | cons j mid ih =>
    rw [List.cons_append] at hk
    by_cases hj : j.Requests id
    · rw [List.takeWhile_cons_of_neg (by simpa using hj)] at hk
      simp at hk
    · rw [List.takeWhile_cons_of_pos (by simpa using hj)] at hk
      rcases List.mem_cons.mp hk with rfl | hk
      · exact List.mem_cons_self
      · exact List.mem_cons_of_mem j (ih hk)

/-- A released barrier has a majority behind it : in every lifetime whose steps count each peer
once, a call that releases a barrier ends a sequence of successes of the leader's term, all
since the barrier was asked for, from peers that are a strict majority together with the
leader. -/
theorem barrier_quorum {core₀ : RaftCore} (h₀ : core₀.Started)
    (h : machine.Run (DistinctAcks id) (start core₀) s)
    {later mid earlier : List Stage} {k b : Stage}
    (hpast : s.past = later ++ k :: (mid ++ b :: earlier)) (hb : b.Requests id)
    (hk : .readBarrierReady id ∈ k.actions) :
    ∃ A, AnsweredBy k.before (k :: mid) A ∧
      k.before.peers.length + 1 < 2 * (insert k.before.id A).card := by
  revert later
  refine h.invariant' (P := fun s => ∀ {later : List Stage},
    s.past = later ++ k :: (mid ++ b :: earlier) → ∃ A, AnsweredBy k.before (k :: mid) A ∧
      k.before.peers.length + 1 < 2 * (insert k.before.id A).card) ?_ ?_
  · intro later hpast
    simp [start] at hpast
  · rintro s ⟨request, rnd⟩ s' hrun ih hok hs later hpast
    obtain ⟨⟨core, actions⟩, hcall, rfl⟩ := Option.map_eq_some_iff.mp hs
    cases later with
    | nil =>
      obtain ⟨rfl, hrest⟩ := List.cons.inj hpast
      obtain ⟨hn, hi⟩ := waiting_run h₀ hrun
      obtain ⟨A, hA, hcard⟩ := released_record hn hi hok (RaftCore.call_outcome hcall) hk
      refine ⟨A, ⟨hA.1, fun p hp => ?_⟩, hcard⟩
      obtain ⟨j, hj, hack⟩ := hA.2 p hp
      refine ⟨j, ?_, hack⟩
      rcases List.mem_cons.mp hj with rfl | hj
      · exact List.mem_cons_self
      · exact List.mem_cons_of_mem _ (mem_of_mem_since hrest hb hj)
    | cons k' later => exact ih (List.cons.inj hpast).2

/-- Node 1 of five is elected, hands out a barrier and hears two successes, the first from
node 2 and the second from `peer`. -/
def fiveNodes (peer : NodeId) : List (Request × ℕ) :=
  [(.tick, 1), (.message (.requestVoteResponse ⟨2, 1, true⟩), 1),
    (.message (.requestVoteResponse ⟨3, 1, true⟩), 1), (.readBarrier, 1),
    (.message (.appendEntriesResponse ⟨2, 1, 1, true, none, none⟩), 1),
    (.message (.appendEntriesResponse ⟨peer, 1, 1, true, none, none⟩), 1)]

theorem barrier_quorum_fiveNodes :
    ∃ s, machine.Run (DistinctAcks 1) (start (RaftCore.new 1 [1, 2, 3, 4, 5] none (1, 1) 1)) s ∧
      ∃ k mid b earlier, s.past = k :: (mid ++ b :: earlier) ∧ b.Requests 1 ∧
        .readBarrierReady 1 ∈ k.actions ∧ ∃ A, AnsweredBy k.before (k :: mid) A ∧
          k.before.peers.length + 1 < 2 * (insert k.before.id A).card := by
  obtain ⟨s, hs, hP⟩ := machine.exists_run_of_exec (DistinctAcks 1)
    (start (RaftCore.new 1 [1, 2, 3, 4, 5] none (1, 1) 1)) (fiveNodes 3)
    (fun s => (match s.past with
      | k :: _ :: b :: _ => decide (b.Requests 1 ∧ .readBarrierReady 1 ∈ k.actions)
      | _ => false) = true)
    (by decide +kernel) (by decide +kernel)
  split at hP
  next k k₁ b earlier hpast =>
    obtain ⟨hb, hk⟩ := of_decide_eq_true hP
    have hsplit : s.past = [] ++ k :: ([k₁] ++ b :: earlier) := hpast
    exact ⟨s, hs, k, [k₁], b, earlier, hsplit, hb, hk,
      barrier_quorum (.new _ _ _ _ _) hs hsplit hb hk⟩
  next => cases hP

/-- Two answers of one peer release the barrier of a leader that leads all the while, and no
majority has answered. -/
theorem minority_of_fiveNodes :
    ∃ s, machine.Run (fun _ _ => True) (start (RaftCore.new 1 [1, 2, 3, 4, 5] none (1, 1) 1)) s ∧
      ∃ k mid b earlier, s.past = k :: (mid ++ b :: earlier) ∧ b.Requests 1 ∧
        .readBarrierReady 1 ∈ k.actions ∧
        (∀ j ∈ k :: (mid ++ [b]), j.before.state = .leader ∧ j.after.state = .leader ∧
          j.before.currentTerm = 1 ∧ j.after.currentTerm = 1) ∧
        ¬∃ A, AnsweredBy k.before (k :: mid) A ∧
          k.before.peers.length + 1 < 2 * (insert k.before.id A).card := by
  obtain ⟨s, hs, hP⟩ := machine.exists_run_of_exec (fun _ _ => True)
    (start (RaftCore.new 1 [1, 2, 3, 4, 5] none (1, 1) 1)) (fiveNodes 2)
    (fun s => (match s.past with
      | k :: k₁ :: b :: _ => decide (b.Requests 1 ∧ .readBarrierReady 1 ∈ k.actions ∧
        (∀ j ∈ k :: ([k₁] ++ [b]), j.before.state = .leader ∧ j.after.state = .leader ∧
          j.before.currentTerm = 1 ∧ j.after.currentTerm = 1) ∧
        (∀ j ∈ k :: [k₁], ∀ r ∈ j.ack, r.id = 2) ∧ k.before.peers.length = 4)
      | _ => false) = true)
    (by decide +kernel) (Machine.execOk_true _ _)
  split at hP
  next k k₁ b earlier hpast =>
    obtain ⟨hb, hk, hlead, hacks, hpeers⟩ := of_decide_eq_true hP
    refine ⟨s, hs, k, [k₁], b, earlier, hpast, hb, hk, hlead, ?_⟩
    rintro ⟨A, hA, hcard⟩
    have hsub : A ⊆ {2} := by
      intro p hp
      obtain ⟨j, hj, r, hr, rfl, -⟩ := hA.2 p hp
      exact Finset.mem_singleton.mpr (hacks j hj r hr)
    have hone : A.card ≤ 1 := Finset.card_le_card hsub
    have htwo : (insert k.before.id A).card ≤ A.card + 1 := Finset.card_insert_le _ _
    omega
  next => cases hP

end Lifetime

end FerrisFerry
