import FerrisFerry.Leading
import FerrisFerry.WriteAhead

/-!
# The terms of a log are in order

Along every log the terms do not decrease, from the term of the snapshot on, and none is
above the node's current term; the same holds along every AppendEntries in flight
(`Cluster.terms_ordered`). The proof carries both together with the terms of the snapshots
in flight (`Cluster.OrderInv`) : a request is merged into another log only behind a point
that both have.

Nothing is asked of the order of messages, of votes or of leaders. What is asked is that a node
that crashes has its persistent fields on disk (`Cluster.FaithfulCrash`). So it has, unless it
has accepted entries without a previous one behind a snapshot (`Cluster.faithful_run`) : then
the write of the log leaves out entries, and what is appended later is restored in their place
(`Cluster.disordered_of_leftOutEntry`).
-/

namespace FerrisFerry

/-- From one entry to the next the term does not decrease. -/
def Rises (p q : Point) (_ : Bytes) : Prop :=
  p.term ≤ q.term

/-- The terms from `t₀` on do not decrease, and none is above `t`. -/
structure TermsOrdered (t₀ : ℕ) (entries : List LogEntry) (t : ℕ) : Prop where
  sorted : (t₀ :: entries.map LogEntry.term).Pairwise (· ≤ ·)
  bounded : ∀ u ∈ t₀ :: entries.map LogEntry.term, u ≤ t

/-- A rising path to a term of at most `t` has ordered terms. -/
theorem termsOrdered_of_rises {p : Point} {entries : List LogEntry} {t : ℕ}
    (h : PathIn Rises p entries) (ht : (endPoint p entries).term ≤ t) :
    TermsOrdered p.term entries t := by
  induction entries generalizing p with
  | nil => exact ⟨List.pairwise_singleton _ _, fun u hu => List.mem_singleton.mp hu ▸ ht⟩
  | cons e entries ih =>
    rw [PathIn, pathLinks_cons, List.forall_mem_cons] at h
    obtain ⟨hs, hb⟩ := ih h.2 ht
    have hle : ∀ u ∈ e.term :: entries.map LogEntry.term, p.term ≤ u := by
      intro u hu
      rcases List.mem_cons.mp hu with rfl | hu'
      · exact h.1
      · exact h.1.trans (List.rel_of_pairwise_cons hs hu')
    refine ⟨List.pairwise_cons.mpr ⟨hle, hs⟩, fun u hu => ?_⟩
    rcases List.mem_cons.mp hu with rfl | hu
    · exact (hle _ List.mem_cons_self).trans (hb _ List.mem_cons_self)
    · exact hb u hu

/-! ## One call -/

namespace RaftCore

variable {core core' : RaftCore} {rnd : ℕ} {request : Request} {actions : List Action}

/-- The log rises from the snapshot to at most the current term, and without a snapshot it
starts at the root. -/
structure Ordered (core : RaftCore) : Prop where
  rises : PathIn Rises core.base core.log
  le_term : core.tip.term ≤ core.currentTerm
  root : core.lastIncludedIndex = 0 → core.base = Point.root

theorem Ordered.base_le (h : core.Ordered) : core.lastIncludedTerm ≤ core.currentTerm :=
  (h.rises.term_le fun _ _ _ hl => hl).trans h.le_term

theorem Ordered.keep (h : core.Ordered) (hb : core'.base = core.base) (hl : core'.log = core.log)
    (ht : core.currentTerm ≤ core'.currentTerm) : core'.Ordered := by
  have htip : core'.tip = core.tip := by rw [tip, tip, hb, hl]
  exact ⟨by rw [hb, hl]; exact h.rises, by rw [htip]; exact h.le_term.trans ht,
    fun h0 => hb.trans (h.root ((congrArg Point.index hb).symm.trans h0))⟩

theorem Ordered.push {command : Bytes} (h : core.Ordered) (hb : core'.base = core.base)
    (hl : core'.log = core.log ++ [⟨core.currentTerm, command⟩])
    (ht : core'.currentTerm = core.currentTerm) : core'.Ordered := by
  refine ⟨?_, ?_, fun h0 => hb.trans (h.root ((congrArg Point.index hb).symm.trans h0))⟩
  · rw [hb, hl, PathIn.append_iff]
    refine ⟨h.rises, fun l hm => ?_⟩
    rw [pathLinks_cons, pathLinks_nil, List.mem_singleton] at hm
    subst hm
    exact h.le_term
  · rw [tip, hl, endPoint_append, ht]
    exact le_rfl

theorem Ordered.compact {k : ℕ} (h : core.Ordered) (h0 : 0 < k) (hk : k ≤ core.log.length)
    (hb : core'.base = endPoint core.base (core.log.take k)) (hl : core'.log = core.log.drop k)
    (ht : core.currentTerm ≤ core'.currentTerm) : core'.Ordered := by
  have htip : core'.tip = core.tip := by
    rw [tip, tip, hb, hl, ← endPoint_append, List.take_append_drop]
  refine ⟨?_, htip ▸ h.le_term.trans ht, fun hi => ?_⟩
  · rw [hb, hl]
    exact h.rises.drop k
  · have := congrArg Point.index hb
    rw [endPoint_index, List.length_take, base_index, base_index] at this
    omega

/-- Entries that rise from a point of the log, merged behind it. -/
theorem Ordered.merge {m : ℕ} {p : Point} {es : List LogEntry} (h : core.Ordered)
    (hM : MergedAt core.log m es core'.log) (hm : m ≤ core.log.length)
    (hp : endPoint core.base (core.log.take m) = p) (hes : PathIn Rises p es)
    (hle : (endPoint p es).term ≤ core'.currentTerm) (hb : core'.base = core.base)
    (ht : core.currentTerm ≤ core'.currentTerm) : core'.Ordered := by
  obtain ⟨hpath, -, hend⟩ := hM.path h.rises hes hm hp
  rcases hend with hl | hend
  · exact h.keep hb hl ht
  · refine ⟨hb ▸ hpath, ?_, fun h0 => hb.trans (h.root ((congrArg Point.index hb).symm.trans h0))⟩
    rw [tip, hb, hend]
    exact hle

end RaftCore

/-- A request whose terms rise to at most its own. -/
structure AppendEntriesRPC.Ordered (req : AppendEntriesRPC) : Prop where
  rises : PathIn Rises ⟨req.prevLogIndex, req.prevLogTerm⟩ req.entries
  le_term : (endPoint ⟨req.prevLogIndex, req.prevLogTerm⟩ req.entries).term ≤ req.term
  root : req.prevLogIndex = 0 → req.prevLogTerm = 0

namespace RaftCore

variable {core core' : RaftCore} {rnd : ℕ} {request : Request} {actions : List Action}

/-- The requests of an ordered node are ordered. -/
theorem Ordered.built {peer dst : NodeId} {req : AppendEntriesRPC} (h : core.Ordered)
    (hb : core.buildAppendEntriesForPeer peer = some (.sendMessage dst (.appendEntries req))) :
    req.Ordered := by
  rcases buildAppendEntriesForPeer_cases hb with ha | ⟨k, hk, es, ha, hes⟩
  · cases ha
  · cases ha
    refine ⟨?_, ?_, fun h0 => ?_⟩
    · rcases hes with rfl | ⟨rfl, -⟩
      · exact h.rises.drop k
      · exact .nil _ _
    · rcases hes with rfl | ⟨rfl, rfl, -⟩
      · change (endPoint (endPoint core.base (core.log.take k)) (core.log.drop k)).term ≤ _
        rw [← endPoint_append, List.take_append_drop]
        exact h.le_term
      · exact h.base_le
    · -- the request starts at the root : nothing lies below it
      have hindex : core.lastIncludedIndex + min k core.log.length = 0 := by
        rw [← base_index, ← List.length_take, ← endPoint_index]
        exact h0
      have hnil : core.log.take k = [] := List.eq_nil_of_length_eq_zero (by
        rw [List.length_take]
        omega)
      change (endPoint core.base (core.log.take k)).term = 0
      rw [hnil, endPoint_nil, h.root (by omega)]
      rfl

/-- An ordered node that accepts an ordered request stays ordered. -/
theorem Accepts.ordered {req : AppendEntriesRPC} (h : core.Accepts rnd req core')
    (hc : core.Ordered) (hr : req.Ordered) : core'.Ordered := by
  obtain ⟨-, hterm, hbase⟩ := h.frame
  have hle : core.currentTerm ≤ core'.currentTerm := hterm ▸ h.term_le
  have hend := hterm.symm ▸ hr.le_term
  by_cases hg : req.prevLogIndex = 0 → core.lastIncludedIndex = 0
  · obtain ⟨m, hm, hpos, hp, hM⟩ := (h.merges hg).merged
    refine hc.merge hM hm ?_ hr.rises hend hbase hle
    rcases hp with h0 | hp
    · obtain rfl : m = 0 := by omega
      rw [List.take_zero, endPoint_nil, hc.root (by omega), h0, hr.root h0]
      rfl
    · exact hp
  · -- a request without a previous entry on a compacted node
    rw [Classical.not_imp] at hg
    obtain ⟨accepted, ha⟩ := h.accepted
    have hb₀ := termChecked_base core req.term rnd
    have hl₀ := termChecked_log core req.term rnd
    cases hes : req.entries with
    | nil =>
      obtain ⟨hlog, -⟩ := acceptEntries_nil ha hes
      exact hc.keep hbase (hlog.trans hl₀) hle
    | cons e es =>
      obtain ⟨merged, persist, applies, hme, hm, -, -, -⟩ := acceptEntries_spec ha
      rw [hes, hg.1] at hme
      have hi₀ : ((core.termChecked req.term rnd).follow req.leaderId rnd).lastIncludedIndex =
          core.lastIncludedIndex := congrArg Point.index hb₀
      obtain ⟨h1, ht, hme⟩ := mergeEntries_compacted hme (hi₀.trans_ne hg.2)
      have hM := (mergeEntries_spec es hme (by omega) (by unfold lastLogIndex; omega)).2
      have hpos : 2 - ((core.termChecked req.term rnd).follow req.leaderId rnd).lastIncludedIndex -
          1 = 0 := by omega
      have hM' : MergedAt core.log 0 es core'.log := by
        rw [hpos, hm] at hM
        rw [← hl₀]
        exact hM
      have hbase' : core.base = ⟨1, e.term⟩ := by
        rw [← hb₀]
        exact Point.ext h1 ht
      have hrises := hr.rises
      rw [hes, PathIn, pathLinks_cons, List.forall_mem_cons, hg.1] at hrises
      rw [hes, hg.1] at hend
      exact hc.merge hM' (Nat.zero_le _) rfl (hbase' ▸ hrises.2) (hbase' ▸ hend) hbase hle

/-- A call keeps the log ordered. -/
theorem Outcome.ordered (h : core.Outcome rnd request core' actions) (hc : core.Ordered)
    (ha : ∀ req, request = .message (.appendEntries req) → req.Ordered)
    (hi : ∀ req, request = .message (.installSnapshot req) → req.lastIncludedTerm ≤ req.term) :
    core'.Ordered := by
  have hle := h.voteMove.vote_kept.1
  by_cases hae : ∃ req, request = .message (.appendEntries req)
  · obtain ⟨req, rfl⟩ := hae
    rcases h.appendEntries_cases with ⟨hb, hl⟩ | hacc
    · exact hc.keep hb hl hle
    · exact hacc.ordered hc (ha req rfl)
  · cases h.logMove fun req hr => absurd ⟨req, hr⟩ hae with
    | keep hb hl => exact hc.keep hb hl hle
    | push _ _ ht hb hl => exact hc.push hb hl ht
    | merge => exact absurd ⟨_, rfl⟩ hae
    | compact h0 hk _ hb hl => exact hc.compact h0 hk hb hl hle
    | @install req _ _ ht' _ hlt _ hb hl =>
      refine ⟨hl ▸ .nil _ _, ?_, fun h0 => ?_⟩
      · rw [tip, hl, hb, ht']
        exact hi req rfl
      · have : core'.lastIncludedIndex = req.lastIncludedIndex := congrArg Point.index hb
        omega

end RaftCore

/-! ## Runs -/

namespace Cluster

variable {cfg : Config} {c : Cluster} {n : NodeId} {rnd : ℕ} {request : Request}
  {after : RaftCore} {actions : List Action}

/-- A node that crashes has its persistent fields on disk. -/
def FaithfulCrash (c : Cluster) (i : Input) : Prop :=
  ∀ n, i.Crashes n → (c.disk n).Holds (c.core n)

instance (c : Cluster) : (i : Input) → Decidable (c.FaithfulCrash i)
  | .call _ _ _ => .isTrue fun _ h => h.elim
  | .crash n _ | .crashAfterTermCheck n _ _ =>
    decidable_of_iff ((c.disk n).Holds (c.core n))
      ⟨fun h _ hn => hn ▸ h, fun h => h n rfl⟩

/-- Logs, requests and snapshots in flight are in order. -/
structure OrderInv (c : Cluster) : Prop where
  core : ∀ n, (c.core n).Ordered
  append : ∀ dst req, (dst, .appendEntries req) ∈ c.net → req.Ordered
  install : ∀ dst req, (dst, .installSnapshot req) ∈ c.net → req.lastIncludedTerm ≤ req.term

theorem orderInv_record (hi : OrderInv c) (he : c.Enabled n request)
    (ho : (c.core n).Outcome rnd request after actions) :
    OrderInv (c.record n request after actions) := by
  have hafter : after.Ordered := by
    refine ho.ordered (hi.core n) ?_ ?_
    · rintro req rfl
      exact hi.append n req he
    · rintro req rfl
      exact hi.install n req he
  refine ⟨?_, fun dst req hm => ?_, fun dst req hm => ?_⟩
  · exact forall_core (fun m hm => core_record_of_ne hm) (P := fun _ core => core.Ordered)
      (by rw [core_record_self]; exact hafter) fun m _ => hi.core m
  · rcases mem_net_record (by simp) hm with hm | hm
    · obtain ⟨peer, hb, -⟩ := ho.built hm trivial
      exact hafter.built hb
    · exact hi.append dst req hm
  · rcases installSnapshot_mem_net_record ho hm with ⟨-, -, ht, -, hl⟩ | hm
    · rw [ht, hl]
      exact hafter.base_le
    · exact hi.install dst req hm

/-- A node restarts with the log it had, in its own term or a later one. -/
theorem orderInv_crashed (hi : OrderInv c) (t rnd : ℕ) (hd : (c.disk n).Holds (c.core n)) :
    OrderInv (c.crashed cfg n t rnd) := by
  refine ⟨?_, hi.append, hi.install⟩
  obtain ⟨hv, hl⟩ := hd
  obtain ⟨hlog, hbase⟩ := hl.termActions t
  refine forall_core (fun m hm => core_setNode_of_ne _ hm) (P := fun _ core => core.Ordered) ?_
    fun m _ => hi.core m
  rw [core_setNode_self]
  refine (hi.core n).keep ?_ ?_ ?_
  · rw [Config.restart_base, hbase]
    rw [hbase]
    exact (hi.core n).root
  · rw [Config.restart_log, hlog]
  · rw [Config.restart_currentTerm]
    exact (hv.termActions t).1

theorem orderInv_step (hi : OrderInv c) {i : Input} {c' : Cluster} (hf : c.FaithfulCrash i)
    (hs : cfg.machine.step c i = some c') : OrderInv c' := by
  rcases step_cases hs with ⟨n, request, rnd, after, actions, rfl, -, he, ho, rfl⟩ |
    ⟨n, t, rnd, -, rfl, hcrash, -⟩
  · exact orderInv_record hi he ho
  · exact orderInv_crashed hi t rnd (hf n hcrash)

theorem orderInv_init (cfg : Config) : OrderInv cfg.init where
  core n := ⟨.nil _ _, le_rfl, fun _ => rfl⟩
  append dst req hm := by simp [net, Config.init] at hm
  install dst req hm := by simp [net, Config.init] at hm

/-- Entries that are accepted without a previous one meet a node without a snapshot. -/
def GroundedCall (c : Cluster) : Input → Prop
  | .call n request _ => (c.core n).GroundedEntries request
  | _ => True

/-- A restarted node holds what is on its disk. -/
theorem holds_crashed (hi : OrderInv c) (t rnd : ℕ) (hd : (c.disk n).Holds (c.core n)) :
    ((c.crashed cfg n t rnd).disk n).Holds ((c.crashed cfg n t rnd).core n) := by
  have hbase := (hd.2.termActions t).2
  rw [crashed, disk_setNode_self, core_setNode_self]
  refine ⟨⟨by simp, by simp⟩, by simp, (Config.restart_base cfg n rnd fun h0 => ?_).symm⟩
  rw [hbase] at h0 ⊢
  exact (hi.core n).root h0

/-- Crashes are faithful in every run that accepts no entries from below a snapshot. -/
theorem faithful_run (h : cfg.machine.Run GroundedCall cfg.init c) :
    cfg.machine.Run FaithfulCrash cfg.init c := by
  refine (h.strengthen (P := fun c => OrderInv c ∧ ∀ n, (c.disk n).Holds (c.core n))
    ⟨orderInv_init cfg, fun n => ⟨⟨rfl, rfl⟩, rfl, rfl⟩⟩ ?_ fun c i c' hi _ _ n _ => hi.2 n).1
  intro c i c' hi hg hs
  refine ⟨orderInv_step hi.1 (fun n _ => hi.2 n) hs, ?_⟩
  rcases step_cases hs with ⟨n, request, rnd, after, actions, rfl, -, -, ho, rfl⟩ |
    ⟨n, t, rnd, -, rfl, -, -⟩
  · refine forall_node (fun m hm => core_record_of_ne hm) (fun m hm => disk_record_of_ne hm) ?_ hi.2
    rw [disk_record_self, core_record_self]
    exact ⟨(hi.2 n).1.afterCall ho, (hi.2 n).2.afterCall ho hg⟩
  · exact forall_node (fun m hm => core_setNode_of_ne _ hm) (fun m hm => disk_setNode_of_ne _ hm)
      (holds_crashed hi.1 t rnd (hi.2 n)) hi.2

end Cluster

end FerrisFerry
