import FerrisFerry.Handling
import FerrisFerry.Safety

/-!
# Who a node takes for the leader

A node that does not lead answers a client with its `current_leader`, and the client goes there.
In a sound run this is a node that a majority elected for the term of the one that names it
(`Cluster.current_leader_elected`).

A client that goes where it is sent (`Chase`) is answered in ever higher terms : who led a term
and does not lead now has left the term, or has restarted and knows no leader. So the client is
sent on at most once per term, whatever the cluster does in between
(`Chase.redirects_ascend`), and never in a circle while it does nothing
(`Cluster.redirects_nodup`).
-/

namespace FerrisFerry

namespace RaftCore

variable {core core' : RaftCore} {rnd : ℕ} {request : Request} {actions : List Action}

/-- Where a node sends a client : nowhere if it leads. -/
def redirect (core : RaftCore) : Option NodeId :=
  if core.state = .leader then none else core.currentLeader

/-- The driver of a node that sends clients on answers a proposal and a read with the leader's
id. -/
theorem handleEvent_of_redirect {app : List AppliedEntry → Bytes} {d : RaftDriver} {m : NodeId}
    (h : d.core.redirect = some m) (rnd : ℕ) (command : Bytes) (respond : Channel) :
    (d.handleEvent app rnd (.propose command respond)).1 =
        [.respond respond (some (.followerNode (some m)))] ∧
      (d.handleEvent app rnd (.read respond)).1 =
        [.respond respond (some (.followerNode (some m)))] := by
  unfold redirect at h
  split_ifs at h with hl
  have hp : d.core.propose command = some (d.core, none) := by rw [propose_eq, if_pos hl]
  have hr : d.core.requestReadBarrier = (d.core, none) := by
    unfold requestReadBarrier
    simp [hl]
  simp only [RaftDriver.handleEvent, hp, hr, h, RaftDriver.run, and_self]

/-! ## The leader of a core -/

/-- What a call does to the leader a node knows. -/
inductive Regards (core : RaftCore) : Request → RaftCore → Prop
  | keep {request : Request} {core' : RaftCore} (hl : core'.currentLeader = core.currentLeader)
      (ht : core'.currentTerm = core.currentTerm)
      (hs : core.state = .leader → core'.state = .leader) : Regards core request core'
  | forget {request : Request} {core' : RaftCore} (hl : core'.currentLeader = none) :
    Regards core request core'
  | lead {request : Request} {core' : RaftCore} (hl : core'.currentLeader = some core.id)
      (hs : core'.state = .leader) : Regards core request core'
  | append {req : AppendEntriesRPC} {core' : RaftCore}
      (hl : core'.currentLeader = some req.leaderId) (ht : core'.currentTerm = req.term) :
    Regards core (.message (.appendEntries req)) core'
  | snapshot {req : InstallSnapshotRPC} {core' : RaftCore}
      (hl : core'.currentLeader = some req.leaderId) (ht : core'.currentTerm = req.term) :
    Regards core (.message (.installSnapshot req)) core'

/-- The term check forgets the leader or changes nothing. -/
theorem regards_termChecked {t : ℕ}
    (hl : core'.currentLeader = (core.termChecked t rnd).currentLeader)
    (ht : core'.currentTerm = (core.termChecked t rnd).currentTerm)
    (hs : core'.state = (core.termChecked t rnd).state) : core.Regards request core' := by
  rcases Nat.lt_or_ge core.currentTerm t with hlt | hge
  · refine .forget ?_
    rw [hl, termChecked_of_lt hlt]
  · rw [termChecked_of_le hge] at hl ht hs
    exact .keep hl ht fun h => hs.trans h

theorem Outcome.regards (h : core.Outcome rnd request core' actions) :
    core.Regards request core' := by
  cases h with
  | wait | heartbeat | refuse | append | collectVote | recordSnapshotResponse | staleSnapshot =>
    exact .keep rfl rfl fun h => h
  | barrier =>
    unfold requestReadBarrier
    split_ifs <;> exact .keep rfl rfl fun h => h
  | stand => exact .forget rfl
  | compact hp hc =>
    rcases completeSnapshot_spec hp hc with ⟨-, rfl⟩ | ⟨k, -, -, -, -, rfl⟩ <;>
      exact .keep rfl rfl fun h => h
  | win => exact .lead rfl rfl
  | denyVote | grantVote | ignoreVote | rejectAppend | failure | ignoreSnapshotResponse =>
    exact regards_termChecked rfl rfl rfl
  | success hs hr =>
    rw [(recordSuccess_spec hr).frame]
    exact regards_termChecked rfl rfl rfl
  | conflictAppend ht => exact .append rfl (by simp [follow, ht])
  | acceptAppend ht hl hv ha =>
    rw [acceptEntries_frame ha]
    exact .append rfl (by simp [follow, ht])
  | oldSnapshot ht | haveSnapshot ht | installSnapshot ht =>
    exact .snapshot rfl (by simp [follow, install, ht])

end RaftCore

/-! ## Leaders that are named -/

namespace Cluster

variable {cfg : Config} {c c' : Cluster} {n : NodeId} {rnd : ℕ} {request : Request}

/-- Who is taken for the leader has led the term, and who takes itself for it leads. -/
def LeaderInv (c : Cluster) : Prop :=
  ∀ n m, (c.core n).currentLeader = some m →
    c.Led m (c.core n).currentTerm ∧ (m = n → (c.core n).state = .leader)

theorem leaderInv_record (hi : LeaderInv c) (hb : BaseInv cfg c) (he : c.Enabled n request)
    (ho : (c.core n).Outcome rnd request after actions) :
    LeaderInv (c.record n request after actions) := by
  have old : ∀ m t, c.Led m t → (c.record n request after actions).Led m t :=
    fun m t h => led_record.mpr (Or.inr h)
  refine forall_core (P := fun v core => ∀ m, core.currentLeader = some m →
    (c.record n request after actions).Led m core.currentTerm ∧ (m = v → core.state = .leader))
    (fun m hm => core_record_of_ne hm) ?_ fun m hm x hx => ?_
  · rw [core_record_self]
    intro m hm
    cases ho.regards with
    | keep hl ht hs =>
      obtain ⟨hled, hself⟩ := hi n m (hl ▸ hm)
      exact ⟨ht ▸ old m _ hled, fun h => hs (hself h)⟩
    | forget hl =>
      rw [hl] at hm
      cases hm
    | lead hl hs =>
      rw [hl] at hm
      obtain rfl : n = m := (hb.vote.id n).symm.trans (Option.some.inj hm)
      exact ⟨led_record.mpr (Or.inl ⟨rfl, hs, rfl⟩), fun _ => hs⟩
    | @append req _ hl ht =>
      rw [hl] at hm
      obtain rfl := Option.some.inj hm
      obtain ⟨hled, hne⟩ := hb.honest.append n req he
      exact ⟨ht ▸ old _ _ hled, fun h => absurd h hne⟩
    | @snapshot req _ hl ht =>
      rw [hl] at hm
      obtain rfl := Option.some.inj hm
      obtain ⟨hled, hne⟩ := hb.honest.install n req he
      exact ⟨ht ▸ old _ _ hled, fun h => absurd h hne⟩
  · obtain ⟨hled, hself⟩ := hi m x hx
    exact ⟨old x _ hled, hself⟩

theorem restart_currentLeader (cfg : Config) (n : NodeId) (disk : Mirror) (rnd : ℕ) :
    (cfg.restart n disk rnd).currentLeader = none := by
  unfold Config.restart
  split_ifs <;> rfl

theorem leaderInv_crashed (hi : LeaderInv c) (n : NodeId) (t rnd : ℕ) :
    LeaderInv (c.crashed cfg n t rnd) := by
  intro m x hx
  rcases eq_or_ne m n with rfl | hm
  · rw [crashed, core_setNode_self, restart_currentLeader] at hx
    cases hx
  · rw [crashed, core_setNode_of_ne _ hm] at hx ⊢
    exact hi m x hx

theorem leaderInv_run (h : cfg.machine.Run Sound cfg.init c) : LeaderInv c := by
  refine h.invariant' (P := LeaderInv) (fun n m hm => by cases hm) ?_
  intro c i c' hr hi hok hstep
  rcases step_cases hstep with ⟨n, request, rnd, after, actions, rfl, hn, he, ho, rfl⟩ |
    ⟨n, t, rnd, hn, rfl, -⟩
  · exact leaderInv_record hi (sound_run hr).1 he ho
  · exact leaderInv_crashed hi n t rnd

/-- Whoever a node takes for the leader was elected by a majority for the term of the node : in
every run whose steps are sound, and it is the only one. -/
theorem current_leader_elected (h : cfg.machine.Run Sound cfg.init c) {n m : NodeId}
    (hm : (c.core n).currentLeader = some m) :
    m ∈ cfg.nodes ∧ c.Elected cfg m (c.core n).currentTerm ∧
      ∀ x, c.Led x (c.core n).currentTerm → x = m := by
  have hb := (sound_run h).1
  have hled := (leaderInv_run h n m hm).1
  have helected := hb.vote.led m _ hled
  obtain ⟨p, hp⟩ := helected.1
  exact ⟨hb.vote.stood_mem m _ p hp, helected, fun x hx => hb.vote.oneLeader x m _ hx hled⟩

/-- Nodes 1 and 3 lead terms 1 and 2. Node 2 has heard of the first leader only, node 1 of the
second. -/
def leftBehind : List Input :=
  [.call 1 .tick 1, .call 3 (.message (.requestVote ⟨1, 1, 0, 0⟩)) 1,
    .call 1 (.message (.requestVoteResponse ⟨3, 1, true⟩)) 1,
    .call 2 (.message (.appendEntries ⟨1, 1, 1, 1, [], 0⟩)) 1,
    .call 3 (.message (.appendEntries ⟨1, 1, 1, 1, [], 0⟩)) 1,
    .call 1 (.message (.appendEntriesResponse ⟨3, 1, 0, false, some 1, none⟩)) 1,
    .call 3 (.message (.appendEntries ⟨1, 1, 0, 0, [⟨1, []⟩], 0⟩)) 1, .call 3 .tick 1,
    .call 1 (.message (.requestVote ⟨2, 3, 1, 1⟩)) 1,
    .call 3 (.message (.requestVoteResponse ⟨1, 2, true⟩)) 1,
    .call 1 (.message (.appendEntries ⟨2, 3, 2, 2, [], 0⟩)) 1]

theorem current_leader_elected_leftBehind :
    ∃ c, Config.trio.machine.Run Sound Config.trio.init c ∧ (c.core 2).currentLeader = some 1 ∧
      (c.core 2).currentTerm = 1 ∧ c.Elected Config.trio 1 1 := by
  obtain ⟨c, hc, hl, ht⟩ := Config.trio.machine.exists_run_of_exec Sound Config.trio.init leftBehind
    (fun c => (c.core 2).currentLeader = some 1 ∧ (c.core 2).currentTerm = 1)
    (by decide +kernel) (by decide +kernel)
  exact ⟨c, hc, hl, ht, ht ▸ (current_leader_elected hc hl).2.1⟩

/-- Who led a term, and now sends clients on, has left it. -/
theorem LeaderInv.lt_of_redirect (hi : LeaderInv c) (hb : BaseInv cfg c) {m x : NodeId} {t : ℕ}
    (hled : c.Led m t) (hx : (c.core m).redirect = some x) : t < (c.core m).currentTerm := by
  unfold RaftCore.redirect at hx
  split_ifs at hx with hl
  obtain ⟨hledx, hself⟩ := hi m x hx
  refine lt_of_le_of_ne (hb.tree.past m t hled).2.1 fun ht => hl (hself ?_)
  exact hb.vote.oneLeader x m _ hledx (ht ▸ hled)

theorem LeaderInv.led_of_redirect (hi : LeaderInv c) {m x : NodeId}
    (hx : (c.core m).redirect = some x) : c.Led x (c.core m).currentTerm := by
  unfold RaftCore.redirect at hx
  split_ifs at hx
  exact (hi m x hx).1

/-- Everybody on the way behind a node has led its term or a later one. -/
theorem LeaderInv.led_on_path (hi : LeaderInv c) (hb : BaseInv cfg c) {path : List NodeId}
    {n : NodeId} (hpath : (n :: path).IsChain fun n m => (c.core n).redirect = some m) :
    ∀ m ∈ path, ∃ t, c.Led m t ∧ (c.core n).currentTerm ≤ t := by
  induction path generalizing n with
  | nil => simp
  | cons m path ih =>
    obtain ⟨hm, hrest⟩ := List.isChain_cons_cons.mp hpath
    have hled := hi.led_of_redirect hm
    intro x hx
    rcases List.mem_cons.mp hx with rfl | hx
    · exact ⟨_, hled, le_rfl⟩
    · obtain ⟨t, ht, hle⟩ := ih hrest x hx
      cases path with
      | nil => cases hx
      | cons y path =>
        have hlt := hi.lt_of_redirect hb hled (List.isChain_cons_cons.mp hrest).1
        exact ⟨t, ht, hlt.le.trans hle⟩

/-- No circles : a client that is sent from node to node of one state comes to each at most
once. -/
theorem redirects_nodup (h : cfg.machine.Run Sound cfg.init c) {path : List NodeId}
    (hpath : path.IsChain fun n m => (c.core n).redirect = some m) : path.Nodup := by
  have hb := (sound_run h).1
  have hi := leaderInv_run h
  induction path with
  | nil => exact List.nodup_nil
  | cons n path ih =>
    refine List.nodup_cons.mpr ⟨fun hn => ?_, ih hpath.of_cons⟩
    -- a node that is met again has led a term it has not come to
    obtain ⟨t, hled, hle⟩ := hi.led_on_path hb hpath n hn
    cases path with
    | nil => cases hn
    | cons m path =>
      have hlt := hi.lt_of_redirect hb hled (List.isChain_cons_cons.mp hpath).1
      omega

theorem redirects_nodup_leftBehind :
    ∃ c, Config.trio.machine.Run Sound Config.trio.init c ∧ (c.core 2).redirect = some 1 ∧
      (c.core 1).redirect = some 3 ∧ (c.core 3).state = .leader ∧ [2, 1, 3].Nodup := by
  obtain ⟨c, hc, h2, h1, h3⟩ := Config.trio.machine.exists_run_of_exec Sound Config.trio.init
    leftBehind (fun c => (c.core 2).redirect = some 1 ∧ (c.core 1).redirect = some 3 ∧
      (c.core 3).state = .leader) (by decide +kernel) (by decide +kernel)
  exact ⟨c, hc, h2, h1, h3, redirects_nodup hc (by simp [h2, h1])⟩

end Cluster

/-! ## A client that is sent on -/

/-- A client and the cluster it asks. -/
structure Chase where
  cluster : Cluster
  /-- The node the client asks next. -/
  asks : NodeId
  /-- The terms of the nodes that have sent it on, newest first. -/
  seen : List ℕ

inductive ChaseInput where
  | cluster (input : Input)
  | ask
deriving DecidableEq

/-- The cluster moves, or the client asks and goes where it is sent. -/
def Config.chase (cfg : Config) : Machine Chase ChaseInput where
  step s
    | .cluster input => (cfg.machine.step s.cluster input).map fun c => { s with cluster := c }
    | .ask => (s.cluster.core s.asks).redirect.map fun m =>
      { s with asks := m, seen := (s.cluster.core s.asks).currentTerm :: s.seen }

namespace Chase

variable {cfg : Config} {s s' : Chase}

/-- The steps of the cluster are sound. -/
def Sound (s : Chase) : ChaseInput → Prop
  | .cluster input => s.cluster.Sound input
  | .ask => True

instance (s : Chase) : (input : ChaseInput) → Decidable (s.Sound input)
  | .cluster input => inferInstanceAs (Decidable (s.cluster.Sound input))
  | .ask => inferInstanceAs (Decidable True)

/-- The node the client asks has led the last term it saw, and the terms before are lower. -/
structure Ascends (s : Chase) : Prop where
  seen : s.seen.Pairwise (· > ·)
  pos : ∀ t ∈ s.seen, 0 < t
  asks : ∀ t ∈ s.seen.head?, s.cluster.Led s.asks t

theorem led_step {c c' : Cluster} {input : Input} (hs : cfg.machine.step c input = some c')
    {m : NodeId} {t : ℕ} (h : c.Led m t) : c'.Led m t := by
  rcases Cluster.step_cases hs with ⟨n, request, rnd, after, actions, rfl, -, -, -, rfl⟩ |
    ⟨n, t, rnd, -, rfl, -⟩
  · exact Cluster.led_record.mpr (Or.inr h)
  · exact h

theorem ascends_run {n : NodeId} (h : cfg.chase.Run Sound ⟨cfg.init, n, []⟩ s) :
    cfg.machine.Run Cluster.Sound cfg.init s.cluster ∧ s.Ascends := by
  refine h.invariant (P := fun s => cfg.machine.Run Cluster.Sound cfg.init s.cluster ∧ s.Ascends)
    ⟨.init, List.Pairwise.nil, by simp, by simp⟩ ?_
  rintro s input s' ⟨hr, hseen, hpos, hasks⟩ hok hs
  cases input with
  | cluster input =>
    obtain ⟨c, hc, rfl⟩ := Option.map_eq_some_iff.mp hs
    exact ⟨hr.step hok hc, hseen, hpos, fun t ht => led_step hc (hasks t ht)⟩
  | ask =>
    obtain ⟨m, hm, rfl⟩ := Option.map_eq_some_iff.mp hs
    have hi := Cluster.leaderInv_run hr
    have hb := (Cluster.sound_run hr).1
    have hled := hi.led_of_redirect hm
    refine ⟨hr, List.pairwise_cons.mpr ⟨fun t ht => ?_, hseen⟩,
      List.forall_mem_cons.mpr ⟨(hb.tree.past m _ hled).1, hpos⟩, ?_⟩
    · -- the term of this node is above the last one seen, and so above all
      cases hlist : s.seen with
      | nil =>
        rw [hlist] at ht
        cases ht
      | cons t₀ rest =>
        have hlt := hi.lt_of_redirect hb (hasks t₀ (by rw [hlist]; rfl)) hm
        rw [hlist] at hseen ht
        rcases List.mem_cons.mp ht with rfl | ht
        · exact hlt
        · exact ((List.pairwise_cons.mp hseen).1 t ht).trans hlt
    · rintro _ ⟨⟩
      exact hled

/-- A list of naturals in descending order is no longer than its head, if it has no zero. -/
theorem length_le_of_descending {ts : List ℕ} (h : ts.Pairwise (· > ·)) (hpos : ∀ t ∈ ts, 0 < t)
    {b : ℕ} (hb : ∀ t ∈ ts, t ≤ b) : ts.length ≤ b := by
  induction ts generalizing b with
  | nil => exact Nat.zero_le b
  | cons t ts ih =>
    obtain ⟨hlt, hrest⟩ := List.pairwise_cons.mp h
    have hlen : ts.length ≤ t - 1 := ih hrest (fun x hx => hpos x (List.mem_cons_of_mem t hx))
      fun x hx => Nat.le_sub_one_of_lt (hlt x hx)
    have ht := hb t List.mem_cons_self
    have h0 := hpos t List.mem_cons_self
    rw [List.length_cons]
    omega

/-- Redirects lead upwards : whatever a sound cluster does while a client is sent from node to
node, the terms of the nodes that send it on strictly rise, so a node it comes to after `k`
redirects is in term `k` at least. -/
theorem redirects_ascend {n : NodeId} (h : cfg.chase.Run Sound ⟨cfg.init, n, []⟩ s) :
    s.seen.Pairwise (· > ·) ∧ s.seen.length ≤ (s.cluster.core s.asks).currentTerm := by
  obtain ⟨hr, hseen, hpos, hasks⟩ := ascends_run h
  refine ⟨hseen, length_le_of_descending hseen hpos fun t ht => ?_⟩
  cases hlist : s.seen with
  | nil =>
    rw [hlist] at ht
    cases ht
  | cons t₀ rest =>
    have hled := hasks t₀ (by rw [hlist]; rfl)
    have hle := ((Cluster.sound_run hr).1.tree.past _ _ hled).2.1
    rw [hlist] at hseen ht
    rcases List.mem_cons.mp ht with rfl | ht
    · exact hle
    · exact ((List.pairwise_cons.mp hseen).1 t ht).le.trans hle

/-- Node 2 follows node 1, node 1 has heard of node 3 as the leader of term 2 and node 3 leads. -/
def sentOn : List ChaseInput :=
  [.cluster (.call 1 .tick 1), .cluster (.call 2 (.message (.requestVote ⟨1, 1, 0, 0⟩)) 1),
    .cluster (.call 1 (.message (.requestVoteResponse ⟨2, 1, true⟩)) 1),
    .cluster (.call 2 (.message (.appendEntries ⟨1, 1, 1, 1, [], 0⟩)) 1), .ask,
    .cluster (.call 3 .tick 1), .cluster (.call 3 .tick 1),
    .cluster (.call 2 (.message (.requestVote ⟨2, 3, 0, 0⟩)) 1),
    .cluster (.call 3 (.message (.requestVoteResponse ⟨2, 2, true⟩)) 1),
    .cluster (.call 1 (.message (.appendEntries ⟨2, 3, 1, 2, [], 0⟩)) 1), .ask]

theorem redirects_ascend_sentOn :
    ∃ s, Config.trio.chase.Run Sound ⟨Config.trio.init, 2, []⟩ s ∧ s.asks = 3 ∧ s.seen = [2, 1] ∧
      s.seen.length ≤ (s.cluster.core 3).currentTerm := by
  obtain ⟨s, hs, hasks, hseen⟩ := Config.trio.chase.exists_run_of_exec Sound
    ⟨Config.trio.init, 2, []⟩ sentOn (fun s => s.asks = 3 ∧ s.seen = [2, 1])
    (by decide +kernel) (by decide +kernel)
  exact ⟨s, hs, hasks, hseen, hasks ▸ (redirects_ascend hs).2⟩

end Chase

end FerrisFerry
