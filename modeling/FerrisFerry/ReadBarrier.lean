import FerrisFerry.Commit

/-!
# Read barriers

A leader hands out a barrier and releases it once it has counted as many successful appends
as half of its peers. The count is of responses : who sent them and when is not looked at.

`Cluster.FreshReads` says when the count means what it is meant to : the barrier is asked
for by a leader that has committed an entry of its term, and while it is pending every
success that is counted was sent since and is the first one of its sender. In such runs
a released barrier has applied all that any node had committed when it was asked for
(`Cluster.read_barrier_linearizable`).
-/

namespace FerrisFerry

/-! ## Barriers of one node -/

theorem lookup_of_lookup_foldl_erase {ids : List ℕ} {m : AList fun _ : ℕ => ℕ} {id count : ℕ}
    (h : (ids.foldl (fun m id => m.erase id) m).lookup id = some count) :
    m.lookup id = some count := by
  induction ids generalizing m with
  | nil => exact h
  | cons i ids ih =>
    have hi := ih h
    by_cases heq : id = i
    · subst heq
      rw [AList.lookup_erase] at hi
      cases hi
    · rwa [AList.lookup_erase_ne heq] at hi

namespace RaftCore

variable {core core' : RaftCore} {rnd : ℕ} {request : Request} {actions : List Action}

/-- What a call does to the barriers of a node. -/
inductive BarrierMove (core : RaftCore) : Request → RaftCore → Prop
  | keep {request : Request} {core' : RaftCore} (hr : core'.readBarriers = core.readBarriers)
      (hc : core'.appendEntriesCount = core.appendEntriesCount)
      (hs : core.state = .leader → core'.state = .leader ∧ core'.currentTerm = core.currentTerm)
      (hq : request = .readBarrier → core.state ≠ .leader) : BarrierMove core request core'
  /-- A higher term drops them all. -/
  | clear {request : Request} {core' : RaftCore}
      (hr : ∀ id count, core'.readBarriers.lookup id ≠ some count) : BarrierMove core request core'
  | request {id : ℕ} {core' : RaftCore} (hl : core.state = .leader)
      (hid : core.requestReadBarrier.2 = some id) (hst : core'.state = .leader)
      (ht : core'.currentTerm = core.currentTerm) (hcm : core'.commitIndex = core.commitIndex)
      (hc : core'.appendEntriesCount = core.appendEntriesCount)
      (hr : core'.readBarriers = core.readBarriers.insert id core.appendEntriesCount) :
    BarrierMove core .readBarrier core'
  /-- A success counts for every barrier there is. -/
  | count {resp : AppendEntriesResponseRPC} {core' : RaftCore} (hs : resp.success = true)
      (hl : core'.state = core.state) (ht : core'.currentTerm = core.currentTerm)
      (hc : core'.appendEntriesCount = core.appendEntriesCount + 1)
      (hsub : ∀ id count, core'.readBarriers.lookup id = some count →
        core.readBarriers.lookup id = some count) :
    BarrierMove core (.message (.appendEntriesResponse resp)) core'

theorem barrierMove_of_termChecked {msg : Message} (t rnd : ℕ)
    (hr : core'.readBarriers = (core.termChecked t rnd).readBarriers)
    (hc : core'.appendEntriesCount = (core.termChecked t rnd).appendEntriesCount)
    (ht : core'.currentTerm = (core.termChecked t rnd).currentTerm)
    (hs : (core.termChecked t rnd).state = .leader → core'.state = .leader) :
    core.BarrierMove (.message msg) core' := by
  rcases Nat.lt_or_ge core.currentTerm t with hlt | hge
  · rw [termChecked_of_lt hlt] at hr
    exact .clear fun id count h => by simp [hr] at h
  · rw [termChecked_of_le hge] at hr hc ht hs
    exact .keep hr hc (fun hl => ⟨hs hl, ht⟩) nofun

/-- Every call moves the barriers in one of these ways. -/
theorem Outcome.barrierMove (h : core.Outcome rnd request core' actions) :
    core.BarrierMove request core' := by
  cases h with
  | barrier =>
    by_cases hl : core.state = .leader
    · have hreq : core.requestReadBarrier = ({ core with
          nextReadBarrierId := core.nextReadBarrierId + 1
          readBarriers := core.readBarriers.insert (core.nextReadBarrierId + 1)
            core.appendEntriesCount }, some (core.nextReadBarrierId + 1)) := by
        rw [requestReadBarrier, if_neg (by simp [hl])]
      refine .request hl (congrArg Prod.snd hreq) ?_ ?_ ?_ ?_ ?_ <;> rw [hreq]
      exact hl
    · rw [requestReadBarrier, if_pos hl]
      exact .keep rfl rfl (fun h => ⟨h, rfl⟩) fun _ => hl
  | @acceptAppend req _ _ ht hl hv ha =>
    have hf := acceptEntries_frame ha
    refine barrierMove_of_termChecked req.term rnd ?_ ?_ ?_ fun h => absurd h hl
    · rw [hf]
      rfl
    · rw [hf]
      rfl
    · rw [hf]
      rfl
  | @success resp _ _ hs hr =>
    have hrec := recordSuccess_spec hr
    rcases Nat.lt_or_ge core.currentTerm resp.term with hlt | hge
    · refine .clear fun id count hid => ?_
      rw [hrec.barriers] at hid
      have := lookup_of_lookup_foldl_erase hid
      rw [termChecked_of_lt hlt] at this
      simp at this
    · rw [termChecked_of_le hge] at hrec
      have hf := hrec.frame
      refine .count hs (by rw [hf]) (by rw [hf]) (by rw [hf]) fun id count hid => ?_
      rw [hrec.barriers] at hid
      exact lookup_of_lookup_foldl_erase hid
  | compact hp hc =>
    rcases completeSnapshot_spec hp hc with ⟨-, rfl⟩ | ⟨k, -, -, -, -, rfl⟩ <;>
      exact .keep rfl rfl (fun h => ⟨h, rfl⟩) nofun
  | stand hl | win _ hl => exact .keep rfl rfl (fun h => absurd h (by simp [hl])) nofun
  | wait | heartbeat | refuse | append | collectVote | staleSnapshot | recordSnapshotResponse =>
    exact .keep rfl rfl (fun h => ⟨h, rfl⟩) nofun
  | conflictAppend | oldSnapshot | haveSnapshot | installSnapshot =>
    exact barrierMove_of_termChecked _ _ rfl rfl rfl fun h => by simp [follow, install, h]
  | denyVote | grantVote | ignoreVote | rejectAppend | ignoreSnapshotResponse | failure =>
    exact barrierMove_of_termChecked _ _ rfl rfl rfl fun h => h

end RaftCore

/-! ## Barriers of a run -/

namespace Call

/-- `n` asked for a barrier and was given `id`. -/
def Requests (k : Call) (n : NodeId) (id : ℕ) : Prop :=
  k.node = n ∧ k.request = .readBarrier ∧ k.before.requestReadBarrier.2 = some id

instance (k : Call) (n : NodeId) (id : ℕ) : Decidable (k.Requests n id) :=
  inferInstanceAs (Decidable (_ ∧ _ ∧ _))

/-- The peer whose success the call counts. -/
def acker (k : Call) : Option NodeId :=
  match k.request with
  | .message (.appendEntriesResponse resp) => if resp.success then some resp.id else none
  | _ => none

end Call

namespace Cluster

/-- The calls after the latest request of barrier `id` at `n`, newest first. -/
def since (c : Cluster) (n : NodeId) (id : ℕ) : List Call :=
  c.trace.takeWhile fun k => ¬k.Requests n id

/-- The calls before it. -/
def before (c : Cluster) (n : NodeId) (id : ℕ) : List Call :=
  (c.trace.dropWhile fun k => ¬k.Requests n id).tail

/-- The steps on which a read barrier is what it is meant to be :
* a leader hands one out once it has committed an entry of its term;
* a success that is counted for a barrier was sent since the request, and its sender has
  not been counted for it yet. -/
def FreshReads (c : Cluster) : Input → Prop
  | .call n .readBarrier _ => (c.core n).state = .leader →
    (c.core n).logTermAt (c.core n).commitIndex = some (c.core n).currentTerm
  | .call n (.message (.appendEntriesResponse resp)) _ => resp.success = true →
    ∀ id ∈ (c.core n).readBarriers.keys,
      (∃ k ∈ c.since n id, (n, .appendEntriesResponse resp) ∈ k.sent) ∧
      ∀ k ∈ c.since n id, ¬(k.node = n ∧ k.acker = some resp.id)
  | _ => True

instance (c : Cluster) : (i : Input) → Decidable (c.FreshReads i)
  | .call n .readBarrier _ => inferInstanceAs (Decidable ((c.core n).state = .leader →
    (c.core n).logTermAt (c.core n).commitIndex = some (c.core n).currentTerm))
  | .call n (.message (.appendEntriesResponse resp)) _ =>
    inferInstanceAs (Decidable (resp.success = true → ∀ id ∈ (c.core n).readBarriers.keys,
      (∃ k ∈ c.since n id, (n, .appendEntriesResponse resp) ∈ k.sent) ∧
      ∀ k ∈ c.since n id, ¬(k.node = n ∧ k.acker = some resp.id)))
  | .call _ (.message (.requestVote _)) _ | .call _ (.message (.requestVoteResponse _)) _
  | .call _ (.message (.appendEntries _)) _ | .call _ (.message (.installSnapshot _)) _
  | .call _ (.message (.installSnapshotResponse _)) _ | .call _ .tick _ | .call _ (.propose _) _
  | .call _ (.snapshot _) _ | .crash _ _ | .crashAfterTermCheck _ _ _ =>
    inferInstanceAs (Decidable True)

variable {cfg : Config} {c c' : Cluster} {n m : NodeId} {rnd id count : ℕ} {request : Request}
  {after : RaftCore} {actions : List Action}

theorem since_record (h : ¬(c.newCall n request after actions).Requests m id) :
    (c.record n request after actions).since m id =
      c.newCall n request after actions :: c.since m id := by
  rw [since, trace_record, List.takeWhile_cons_of_pos (by simpa using h), since]

theorem before_record (h : ¬(c.newCall n request after actions).Requests m id) :
    (c.record n request after actions).before m id = c.before m id := by
  rw [before, trace_record, List.dropWhile_cons_of_pos (by simpa using h), before]

theorem before_record_of_requests (h : (c.newCall n request after actions).Requests m id) :
    (c.record n request after actions).before m id = c.trace := by
  rw [before, trace_record, List.dropWhile_cons_of_neg (by simpa using h), List.tail_cons]

theorem since_record_of_requests (h : (c.newCall n request after actions).Requests m id) :
    (c.record n request after actions).since m id = [] := by
  rw [since, trace_record, List.takeWhile_cons_of_neg (by simpa using h)]

/-- Whatever came before some request came before the latest. -/
theorem mem_before {mid earlier : List Call} {b k : Call} (htrace : c.trace = mid ++ b :: earlier)
    (hb : b.Requests n id) (hk : k ∈ earlier) : k ∈ c.before n id := by
  rw [before, htrace]
  clear htrace
  induction mid with
  | nil => simpa [hb] using hk
  | cons j mid ih =>
    rw [List.cons_append]
    by_cases hj : j.Requests n id
    · rw [List.dropWhile_cons_of_neg (by simpa using hj)]
      exact List.mem_append_right mid (List.mem_cons_of_mem b hk)
    · rwa [List.dropWhile_cons_of_pos (by simpa using hj)]

/-- `p` has sent `n` a success of term `t` since barrier `id` was asked for. -/
def AckedSince (c : Cluster) (n : NodeId) (id t : ℕ) (p : NodeId) : Prop :=
  ∃ k ∈ c.since n id, ∃ dst resp, (dst, .appendEntriesResponse resp) ∈ k.sent ∧
    resp.success = true ∧ resp.id = p ∧ resp.term = t

/-- What is known while a barrier is pending. -/
structure Pending (cfg : Config) (c : Cluster) (n : NodeId) (id count : ℕ) : Prop where
  leader : (c.core n).state = .leader
  /-- The leader has all commits from before, or a majority has left its term. -/
  covers : (∀ k ∈ c.before n id, k.after.commitIndex ≤ (c.core n).commitIndex) ∨
    ∃ V ⊆ cfg.nodes.toFinset, cfg.nodes.toFinset.card < 2 * V.card ∧ ∀ v ∈ V,
      (c.core n).currentTerm < (c.core v).currentTerm ∧
        ¬c.AckedSince n id (c.core n).currentTerm v
  /-- The successes counted since are of different peers. -/
  acks : ∃ A ⊆ cfg.nodes.toFinset, n ∉ A ∧ (c.core n).appendEntriesCount ≤ count + A.card ∧
    ∀ p ∈ A, (∃ k ∈ c.since n id, k.node = n ∧ k.acker = some p) ∧
      c.AckedSince n id (c.core n).currentTerm p

theorem AckedSince.mono {t : ℕ} {p : NodeId} (h : c.AckedSince n id t p)
    (hsince : ∀ k ∈ c.since n id, k ∈ c'.since n id) : c'.AckedSince n id t p :=
  h.imp fun k ⟨hk, h⟩ => ⟨hsince k hk, h⟩

/-- A new success is of the sender's term. -/
theorem AckedSince.of_record (hb : BaseInv cfg c)
    (ho : (c.core m).Outcome rnd request after actions)
    (hr : ¬(c.newCall m request after actions).Requests n id) {t : ℕ} {p : NodeId}
    (h : (c.record m request after actions).AckedSince n id t p) :
    c.AckedSince n id t p ∨ ((c.record m request after actions).core p).currentTerm = t := by
  obtain ⟨k, hk, dst, resp, hsent, hs, rfl, rfl⟩ := h
  rw [since_record hr] at hk
  rcases List.mem_cons.mp hk with rfl | hk
  · refine Or.inr ?_
    rcases mem_newCall_sent hsent with hm | ⟨_, _, _, _, _, _, hm⟩
    · cases ho.emits hm with
      | leading hbuild => exact (RaftCore.leading_of_build hbuild).elim
      | answer _ hid hacc =>
        rw [hid, hb.vote.id m, core_record_self, (hacc hs).1]
        rfl
    · cases hm
  · exact Or.inl ⟨k, hk, dst, resp, hsent, hs, rfl, rfl⟩

namespace Pending

/-- A step in which the leader stays keeps what is known about the commits. -/
theorem covers_step (hp : Pending cfg c n id count)
    (ht : (c'.core n).currentTerm = (c.core n).currentTerm)
    (hcommit : (c.core n).commitIndex ≤ (c'.core n).commitIndex)
    (hterm : ∀ v, (c.core v).currentTerm ≤ (c'.core v).currentTerm)
    (hbefore : c'.before n id = c.before n id)
    (hack : ∀ t p, c'.AckedSince n id t p →
      c.AckedSince n id t p ∨ (c'.core p).currentTerm = t) :
    (∀ k ∈ c'.before n id, k.after.commitIndex ≤ (c'.core n).commitIndex) ∨
      ∃ V ⊆ cfg.nodes.toFinset, cfg.nodes.toFinset.card < 2 * V.card ∧ ∀ v ∈ V,
        (c'.core n).currentTerm < (c'.core v).currentTerm ∧
          ¬c'.AckedSince n id (c'.core n).currentTerm v := by
  rw [hbefore, ht]
  refine hp.covers.imp (fun h k hk => (h k hk).trans hcommit) ?_
  rintro ⟨V, hV, hVc, h⟩
  refine ⟨V, hV, hVc, fun v hv => ⟨lt_of_lt_of_le (h v hv).1 (hterm v), fun hacked => ?_⟩⟩
  rcases hack _ v hacked with hold | heq
  · exact (h v hv).2 hold
  · have := lt_of_lt_of_le (h v hv).1 (hterm v)
    omega

/-- A fresh success is one more peer. -/
theorem ack (hp : Pending cfg c n id count) (hb : BaseInv cfg c)
    {resp : AppendEntriesResponseRPC} (he : (n, .appendEntriesResponse resp) ∈ c.net)
    (hs : resp.success = true) (ht : resp.term = (c.core n).currentTerm)
    (hsent : ∃ k ∈ c.since n id, (n, .appendEntriesResponse resp) ∈ k.sent)
    (hfirst : ∀ k ∈ c.since n id, ¬(k.node = n ∧ k.acker = some resp.id)) :
    ∃ A ⊆ cfg.nodes.toFinset, n ∉ A ∧ (c.core n).appendEntriesCount + 1 ≤ count + A.card ∧
      ∀ p ∈ A, (p = resp.id ∨ ∃ k ∈ c.since n id, k.node = n ∧ k.acker = some p) ∧
        c.AckedSince n id (c.core n).currentTerm p := by
  obtain ⟨A, hA, hnA, hcount, hacked⟩ := hp.acks
  obtain ⟨hmem, hne⟩ := hb.honest.appendResponse n resp he
  have hnew : resp.id ∉ A := fun h => by
    obtain ⟨⟨k, hk, hkn⟩, -⟩ := hacked _ h
    exact hfirst k hk hkn
  refine ⟨insert resp.id A, Finset.insert_subset (List.mem_toFinset.mpr hmem) hA, ?_, ?_,
    fun p hp => ?_⟩
  · rw [Finset.mem_insert, not_or]
    exact ⟨hne.symm, hnA⟩
  · rw [Finset.card_insert_of_notMem hnew]
    omega
  · rcases Finset.mem_insert.mp hp with rfl | hp
    · obtain ⟨k, hk, hm⟩ := hsent
      exact ⟨Or.inl rfl, k, hk, n, resp, hm, hs, rfl, ht⟩
    · exact (hacked p hp).imp_left Or.inr

/-- Half of the peers have answered since : the leader has all commits from before. -/
theorem covered (hp : Pending cfg c n id count) (hb : BaseInv cfg c) {A : Finset NodeId}
    (hA : A ⊆ cfg.nodes.toFinset) (hnA : n ∉ A)
    (hcard : ((c.core n).peers.length + 1) / 2 ≤ A.card)
    (hacked : ∀ p ∈ A, c.AckedSince n id (c.core n).currentTerm p) :
    ∀ k ∈ c.before n id, k.after.commitIndex ≤ (c.core n).commitIndex := by
  rcases hp.covers with h | ⟨V, hV, hVc, hv⟩
  · exact h
  -- a majority in a later term meets the answers of this one
  exfalso
  have hnV : n ∉ V := fun h => lt_irrefl _ (hv n h).1
  have hdisj : Disjoint A V := Finset.disjoint_left.mpr fun p hpA hpV =>
    (hv p hpV).2 (hacked p hpA)
  have hle : (A ∪ V).card ≤ (c.core n).peers.toFinset.card := by
    refine Finset.card_le_card fun x hx => List.mem_toFinset.mpr (hb.vote.mem_peers.mpr ?_)
    rcases Finset.mem_union.mp hx with h | h
    · exact ⟨List.mem_toFinset.mp (hA h), fun heq => hnA (heq ▸ h)⟩
    · exact ⟨List.mem_toFinset.mp (hV h), fun heq => hnV (heq ▸ h)⟩
  rw [Finset.card_union_of_disjoint hdisj] at hle
  have hpeers : (c.core n).peers.toFinset.card ≤ (c.core n).peers.length := List.toFinset_card_le _
  have hnodes : (c.core n).peers.toFinset.card ≤ cfg.nodes.toFinset.card :=
    Finset.card_le_card fun x hx =>
      List.mem_toFinset.mpr (hb.vote.mem_peers.mp (List.mem_toFinset.mp hx)).1
  omega

end Pending

/-- Every pending barrier of every node is accounted for. -/
def ReadInv (cfg : Config) (c : Cluster) : Prop :=
  ∀ n id count, (c.core n).readBarriers.lookup id = some count → Pending cfg c n id count

section record

variable (hi : ReadInv cfg c) (hc : CommitInv cfg c) (hs : SafeInv cfg c) (hb : BaseInv cfg c)
  (hn : n ∈ cfg.nodes) (he : c.Enabled n request) (hok : c.Sound (.call n request rnd))
  (hfresh : c.FreshReads (.call n request rnd))
  (ho : (c.core n).Outcome rnd request after actions)

include hs hb hn he hok ho in
/-- A call keeps the barriers it does not ask for : those of other nodes, and its own as
long as the node leads. -/
theorem pending_record (hp : Pending cfg c m id count)
    (hr : ¬(c.newCall n request after actions).Requests m id)
    (hl : ((c.record n request after actions).core m).state = .leader)
    (ht : ((c.record n request after actions).core m).currentTerm = (c.core m).currentTerm)
    (hacks : ∃ A ⊆ cfg.nodes.toFinset, m ∉ A ∧
      ((c.record n request after actions).core m).appendEntriesCount ≤ count + A.card ∧
      ∀ p ∈ A, (∃ k ∈ (c.record n request after actions).since m id,
        k.node = m ∧ k.acker = some p) ∧ c.AckedSince m id (c.core m).currentTerm p) :
    Pending cfg (c.record n request after actions) m id count := by
  have hf := forward_record hs hb hn he hok ho
  have hsince : ∀ k ∈ c.since m id, k ∈ (c.record n request after actions).since m id :=
    fun k hk => since_record hr ▸ List.mem_cons_of_mem _ hk
  have hcommit : (c.core m).commitIndex ≤
      ((c.record n request after actions).core m).commitIndex := by
    by_cases hmn : m = n
    · subst hmn
      rw [core_record_self] at hl ⊢
      exact commit_le_of_leader hb he hok ho hl
    · rw [core_record_of_ne hmn]
  refine ⟨hl, hp.covers_step ht hcommit hf.term_le (before_record hr) fun t p h =>
    h.of_record hb ho hr, ?_⟩
  obtain ⟨A, hA, hmA, hcount, hacked⟩ := hacks
  rw [ht]
  exact ⟨A, hA, hmA, hcount, fun p hp => (hacked p hp).imp_right fun h => h.mono hsince⟩

include hc hs hb hn he hok hfresh ho in
/-- What is known of a barrier when it is asked for. -/
theorem pending_requested (hl : (c.core n).state = .leader)
    (hr : (c.newCall n request after actions).Requests n id) (hst : after.state = .leader)
    (ht : after.currentTerm = (c.core n).currentTerm)
    (hcm : after.commitIndex = (c.core n).commitIndex)
    (hcnt : after.appendEntriesCount = (c.core n).appendEntriesCount) :
    Pending cfg (c.record n request after actions) n id (c.core n).appendEntriesCount := by
  have hf := forward_record hs hb hn he hok ho
  obtain rfl : request = .readBarrier := hr.2.1
  refine ⟨?_, ?_, ∅, Finset.empty_subset _, Finset.notMem_empty n, ?_, fun p hp => by simp at hp⟩
  · rwa [core_record_self]
  · rw [before_record_of_requests hr, core_record_self, hcm, ht]
    refine (hc.covers_or_deposed hb hl (hfresh hl)).imp_right ?_
    rintro ⟨V, hV, hVc, hv⟩
    refine ⟨V, hV, hVc, fun v hvV => ⟨lt_of_lt_of_le (hv v hvV) (hf.term_le v), ?_⟩⟩
    rintro ⟨k, hk, -⟩
    simp [since_record_of_requests hr] at hk
  · rw [core_record_self, hcnt]
    exact Nat.le_add_right _ _

include hs hb hn he hok ho in
/-- A call of a leader that counts no answer keeps the barriers it does not ask for. -/
theorem pending_record_of_count_eq (hp : Pending cfg c m id count)
    (hr : ¬(c.newCall n request after actions).Requests m id)
    (hl : ((c.record n request after actions).core m).state = .leader)
    (ht : ((c.record n request after actions).core m).currentTerm = (c.core m).currentTerm)
    (hcnt : ((c.record n request after actions).core m).appendEntriesCount =
      (c.core m).appendEntriesCount) :
    Pending cfg (c.record n request after actions) m id count := by
  refine pending_record hs hb hn he hok ho hp hr hl ht ?_
  obtain ⟨A, hA, hmA, hcount, hacked⟩ := hp.acks
  refine ⟨A, hA, hmA, hcnt ▸ hcount, fun p hpA => (hacked p hpA).imp_left ?_⟩
  rintro ⟨k, hk, hkn⟩
  exact ⟨k, since_record hr ▸ List.mem_cons_of_mem _ hk, hkn⟩

include hi hc hs hb hn he hok hfresh ho in
theorem readInv_record : ReadInv cfg (c.record n request after actions) := by
  intro m id count hlook
  by_cases hmn : m = n
  · subst hmn
    rw [core_record_self] at hlook
    cases ho.barrierMove with
    | keep hrb hcnt hst hq =>
      rw [hrb] at hlook
      have hp := hi m id count hlook
      have hr : ¬(c.newCall m request after actions).Requests m id :=
        fun h => hq h.2.1 hp.leader
      refine pending_record_of_count_eq hs hb hn he hok ho hp hr ?_ ?_ ?_ <;> rw [core_record_self]
      · exact (hst hp.leader).1
      · exact (hst hp.leader).2
      · exact hcnt
    | clear hrb => exact absurd hlook (hrb id count)
    | @request id' _ hl hid hst ht hcm hcnt hrb =>
      rw [hrb] at hlook
      rcases lookup_insert_cases hlook with ⟨rfl, rfl⟩ | ⟨hnew, hlook⟩
      · exact pending_requested hc hs hb hn he hok hfresh ho hl ⟨rfl, rfl, hid⟩ hst ht hcm hcnt
      · have hp := hi m id count hlook
        have hr : ¬(c.newCall m .readBarrier after actions).Requests m id :=
          fun h => hnew (Option.some.inj (h.2.2.symm.trans hid))
        refine pending_record_of_count_eq hs hb hn he hok ho hp hr ?_ ?_ ?_ <;>
          rw [core_record_self]
        · exact hst
        · exact ht
        · exact hcnt
    | @count resp _ hsucc hst ht hcnt hsub =>
      have hlook' := hsub id count hlook
      have hp := hi m id count hlook'
      have hr :
          ¬(c.newCall m (.message (.appendEntriesResponse resp)) after actions).Requests m id :=
        fun h => by cases h.2.1
      obtain ⟨hsent, hfirst⟩ := hfresh hsucc id (AList.mem_keys.mpr
        (AList.lookup_isSome.mp (by rw [hlook']; rfl)))
      obtain ⟨A, hA, hmA, hcount, hacked⟩ := hp.ack hb he hsucc (hok.2.1 hsucc) hsent hfirst
      refine pending_record hs hb hn he hok ho hp hr ?_ ?_ ⟨A, hA, hmA, ?_, fun p hpA => ?_⟩
      · rw [core_record_self, hst]
        exact hp.leader
      · rw [core_record_self, ht]
      · rw [core_record_self, hcnt]
        exact hcount
      · refine (hacked p hpA).imp_left ?_
        rw [since_record hr]
        rintro (rfl | ⟨k, hk, hkn⟩)
        · exact ⟨_, List.mem_cons_self, rfl, by simp [newCall, Call.acker, hsucc]⟩
        · exact ⟨k, List.mem_cons_of_mem _ hk, hkn⟩
  · rw [core_record_of_ne hmn] at hlook
    have hp := hi m id count hlook
    have hr : ¬(c.newCall n request after actions).Requests m id := fun h => hmn h.1.symm
    refine pending_record_of_count_eq hs hb hn he hok ho hp hr ?_ ?_ ?_ <;>
      rw [core_record_of_ne hmn]
    exact hp.leader

end record

theorem readInv_crashed (hi : ReadInv cfg c) (hb : BaseInv cfg c) (n : NodeId) (t rnd : ℕ) :
    ReadInv cfg (c.crashed cfg n t rnd) := by
  intro m id count hlook
  have hf := forward_crashed cfg hb n t rnd
  by_cases hmn : m = n
  · subst hmn
    simp [crashed] at hlook
  · have hcore := hf.others m hmn
    rw [hcore] at hlook
    have hp := hi m id count hlook
    refine ⟨hcore ▸ hp.leader, ?_, ?_⟩
    · exact hp.covers_step (by rw [hcore]) (by rw [hcore]) hf.term_le rfl fun _ _ h => Or.inl h
    · rw [hcore]
      exact hp.acks

/-- What holds along every sound run with fresh reads. -/
theorem freshReads_run (h : cfg.machine.Run (fun c i => c.Sound i ∧ c.FreshReads i) cfg.init c) :
    BaseInv cfg c ∧ SafeInv cfg c ∧ CommitInv cfg c ∧ ReadInv cfg c := by
  refine h.invariant (P := fun c => BaseInv cfg c ∧ SafeInv cfg c ∧ CommitInv cfg c ∧ ReadInv cfg c)
    ⟨baseInv_init cfg, safeInv_init cfg, commitInv_init cfg, fun n id count hl => ?_⟩ ?_
  · simp [Config.init, core, Config.boot, RaftCore.new] at hl
  rintro c i c' ⟨hb, hs, hc, hi⟩ ⟨hok, hfresh⟩ hstep
  rcases step_cases hstep with ⟨n, request, rnd, after, actions, rfl, hn, he, ho, rfl⟩ |
    ⟨n, t, rnd, hn, rfl, -⟩
  · exact ⟨baseInv_record hb hn he hok ho, safeInv_record hs hb hn he hok ho,
      commitInv_record hc hs hb he hok ho hn, readInv_record hi hc hs hb hn he hok hfresh ho⟩
  · exact ⟨baseInv_crashed hb hn t rnd, safeInv_crashed hs hb n t rnd,
      commitInv_crashed hc hb n t rnd, readInv_crashed hi hb n t rnd⟩

/-- A call that releases a barrier has applied what was committed before its request. -/
theorem released_record (hi : ReadInv cfg c) (hs : SafeInv cfg c) (hb : BaseInv cfg c)
    (he : c.Enabled n request) (hok : c.Sound (.call n request rnd))
    (hfresh : c.FreshReads (.call n request rnd))
    (ho : (c.core n).Outcome rnd request after actions) (hm : .readBarrierReady id ∈ actions) :
    ∀ k ∈ c.before n id, k.after.commitIndex ≤ after.lastApplied := by
  rw [ho.lastApplied_eq (hs.applied n)]
  cases ho.emits hm with
  | leading hbuild => exact (RaftCore.leading_of_build hbuild).elim
  | @ready resp _ count hreq hsucc hlook hcount =>
    subst hreq
    obtain ⟨⟨hle, hl⟩, hterm, -⟩ := hok
    rw [RaftCore.termChecked_of_le hle] at hlook
    have hp := hi n id count hlook
    obtain ⟨hsent, hfirst⟩ := hfresh hsucc id (AList.mem_keys.mpr
      (AList.lookup_isSome.mp (by rw [hlook]; rfl)))
    obtain ⟨A, hA, hnA, hcA, hacked⟩ := hp.ack hb he hsucc (hterm hsucc) hsent hfirst
    cases ho with
    | failure hfail => simp [hsucc] at hfail
    | success _ hr =>
      have hrec := RaftCore.recordSuccess_spec hr
      rw [RaftCore.termChecked_of_le hle] at hrec
      have hcnt : after.appendEntriesCount = (c.core n).appendEntriesCount + 1 := by rw [hrec.frame]
      have hcommit := hrec.commit
      intro k hk
      have := hp.covered hb hA hnA (by omega) (fun p hpA => (hacked p hpA).2) k hk
      omega

/-- Read barriers are linearizable : in every run whose steps are sound and whose reads are
fresh, a released barrier has applied every index that any node had committed before the
barrier was asked for. -/
theorem read_barrier_linearizable
    (h : cfg.machine.Run (fun c i => c.Sound i ∧ c.FreshReads i) cfg.init c)
    {later mid earlier : List Call} {k b : Call} {id : ℕ}
    (htrace : c.trace = later ++ k :: (mid ++ b :: earlier)) (hb : b.Requests k.node id)
    (hk : .readBarrierReady id ∈ k.actions) :
    ∀ j ∈ earlier, j.after.commitIndex ≤ k.after.lastApplied := by
  revert later
  refine h.invariant' (P := fun c => ∀ {later : List Call},
    c.trace = later ++ k :: (mid ++ b :: earlier) →
      ∀ j ∈ earlier, j.after.commitIndex ≤ k.after.lastApplied) (by simp [Config.init]) ?_
  rintro c i c' hrun ih ⟨hok, hfresh⟩ hstep later htrace
  obtain ⟨hbase, hs, -, hi⟩ := freshReads_run hrun
  rcases step_cases hstep with ⟨n, request, rnd, after, actions, rfl, hn, he, ho, rfl⟩ |
    ⟨n, t, rnd, hn, rfl, -⟩
  · rw [trace_record] at htrace
    cases later with
    | nil =>
      obtain ⟨rfl, hrest⟩ := List.cons.inj htrace
      intro j hj
      exact released_record hi hs hbase he hok hfresh ho hk j (mem_before hrest hb hj)
    | cons k' later => exact ih (List.cons.inj htrace).2
  · exact ih htrace

/-- Node 1 leads, commits its first entry and hands out a barrier; the next heartbeat is
answered. -/
def confirmedRead : List Input :=
  [.call 1 .tick 1, .call 2 (.message (.requestVote ⟨1, 1, 0, 0⟩)) 1,
    .call 1 (.message (.requestVoteResponse ⟨2, 1, true⟩)) 1,
    .call 2 (.message (.appendEntries ⟨1, 1, 1, 1, [], 0⟩)) 1,
    .call 1 (.message (.appendEntriesResponse ⟨2, 1, 0, false, some 1, none⟩)) 1,
    .call 2 (.message (.appendEntries ⟨1, 1, 0, 0, [⟨1, []⟩], 0⟩)) 1,
    .call 1 (.message (.appendEntriesResponse ⟨2, 1, 1, true, none, none⟩)) 1,
    .call 1 .readBarrier 1, .call 1 .tick 1,
    .call 2 (.message (.appendEntries ⟨1, 1, 1, 1, [], 1⟩)) 1,
    .call 1 (.message (.appendEntriesResponse ⟨2, 1, 1, true, none, none⟩)) 1]

theorem read_barrier_linearizable_confirmedRead :
    ∃ c, Config.trio.machine.Run (fun c i => c.Sound i ∧ c.FreshReads i) Config.trio.init c ∧
      ∃ k mid b earlier, c.trace = k :: (mid ++ b :: earlier) ∧ b.Requests k.node 1 ∧
        .readBarrierReady 1 ∈ k.actions ∧ (∃ j ∈ earlier, j.after.commitIndex = 1) ∧
        ∀ j ∈ earlier, j.after.commitIndex ≤ k.after.lastApplied := by
  obtain ⟨c, hc, hP⟩ := Config.trio.machine.exists_run_of_exec
    (fun c i => c.Sound i ∧ c.FreshReads i) Config.trio.init confirmedRead
    (fun c => (match c.trace with
      | k :: _ :: _ :: b :: earlier => decide (b.Requests k.node 1 ∧
        .readBarrierReady 1 ∈ k.actions ∧ ∃ j ∈ earlier, j.after.commitIndex = 1)
      | _ => false) = true)
    (by decide +kernel) (by decide +kernel)
  split at hP
  next k k₁ k₂ b earlier htrace =>
    obtain ⟨hb, hk, hj⟩ := of_decide_eq_true hP
    have hsplit : c.trace = [] ++ k :: ([k₁, k₂] ++ b :: earlier) := htrace
    exact ⟨c, hc, k, [k₁, k₂], b, earlier, hsplit, hb, hk, hj,
      read_barrier_linearizable hc hsplit hb hk⟩
  next => cases hP

/-- Node 2 is elected and commits at index 2 without node 1, which hands out a barrier and
releases it on a duplicate of an answer from before. -/
def staleRead : List Input :=
  [.call 1 .tick 1, .call 2 (.message (.requestVote ⟨1, 1, 0, 0⟩)) 1,
    .call 1 (.message (.requestVoteResponse ⟨2, 1, true⟩)) 1,
    .call 2 (.message (.appendEntries ⟨1, 1, 1, 1, [], 0⟩)) 1,
    .call 1 (.message (.appendEntriesResponse ⟨2, 1, 0, false, some 1, none⟩)) 1,
    .call 2 (.message (.appendEntries ⟨1, 1, 0, 0, [⟨1, []⟩], 0⟩)) 1,
    .call 1 (.message (.appendEntriesResponse ⟨2, 1, 1, true, none, none⟩)) 1,
    .call 2 .tick 1, .call 3 (.message (.requestVote ⟨2, 2, 1, 1⟩)) 1,
    .call 2 (.message (.requestVoteResponse ⟨3, 2, true⟩)) 1,
    .call 3 (.message (.appendEntries ⟨2, 2, 2, 2, [], 0⟩)) 1,
    .call 2 (.message (.appendEntriesResponse ⟨3, 2, 0, false, some 1, none⟩)) 1,
    .call 3 (.message (.appendEntries ⟨2, 2, 0, 0, [⟨1, []⟩, ⟨2, []⟩], 0⟩)) 1,
    .call 2 (.message (.appendEntriesResponse ⟨3, 2, 2, true, none, none⟩)) 1,
    .call 1 .readBarrier 1,
    .call 1 (.message (.appendEntriesResponse ⟨2, 1, 1, true, none, none⟩)) 1]

/-- The run is sound, and the released barrier misses a committed index. -/
theorem missed_commit_of_staleRead :
    ∃ c, Config.trio.machine.Run Sound Config.trio.init c ∧
      ∃ k b earlier, c.trace = k :: b :: earlier ∧ b.Requests k.node 1 ∧
        .readBarrierReady 1 ∈ k.actions ∧
          ∃ j ∈ earlier, k.after.lastApplied < j.after.commitIndex := by
  obtain ⟨c, hc, hP⟩ := Config.trio.machine.exists_run_of_exec Sound Config.trio.init staleRead
    (fun c => (match c.trace with
      | k :: b :: earlier => decide (b.Requests k.node 1 ∧ .readBarrierReady 1 ∈ k.actions ∧
        ∃ j ∈ earlier, k.after.lastApplied < j.after.commitIndex)
      | _ => false) = true)
    (by decide +kernel) (by decide +kernel)
  split at hP
  next k b earlier htrace => exact ⟨c, hc, k, b, earlier, htrace, of_decide_eq_true hP⟩
  next => cases hP

end Cluster

end FerrisFerry
