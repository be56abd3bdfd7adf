import FerrisFerry.Agreement
import FerrisFerry.Gapless

/-!
# Links that keep the order

A cluster whose links deliver in the order of sending and may lose messages (`Wires`). The
handler of AppendEntries indexes the log by unchecked subtractions and unwraps, and a request
without a previous entry skips the check that keeps the others above the snapshot.

`RaftCore.handleAppendEntries_eq_none_iff` says when the handler panics : the request starts
inside the snapshot (`RaftCore.Underflows`), or it leaves a log that ends below the commit
index and brings a higher one (`RaftCore.Shortens`). `Wires.append_panics_iff` carries this
through every run; in sound runs the second does not happen (`Cluster.not_shortens_of_sound`).
The first does : a leader that hears no answer sends the same entries again, and the follower
has compacted them in the meantime (`Wires.panics_of_resentEntries`).
-/

namespace FerrisFerry

/-! ## When the handler panics -/

namespace RaftCore

variable {core : RaftCore} {rnd : ℕ} {req : AppendEntriesRPC}

/-- An accepted request starts inside the snapshot with an entry that cannot be passed over :
its index lies below the end of the snapshot, or its term is not that of the end. -/
def Underflows (core : RaftCore) (req : AppendEntriesRPC) : Prop :=
  core.Accepting req ∧ req.prevLogIndex < core.lastIncludedIndex ∧
    ∃ e ∈ req.entries.head?, core.logTermAt (req.prevLogIndex + 1) ≠ some e.term

instance (core : RaftCore) (req : AppendEntriesRPC) : Decidable (core.Underflows req) :=
  inferInstanceAs (Decidable (_ ∧ _ ∧ ∃ _ ∈ req.entries.head?, _))

/-- Above the snapshot the merge loop does not panic. -/
theorem mergeEntries_ne_none : ∀ (es : List LogEntry) {core : RaftCore} {i : ℕ},
    core.lastIncludedIndex < i → core.mergeEntries i es ≠ none
  | [], _, _, _ => by simp [mergeEntries]
  | e :: es, core, i, hlo => by
    rw [mergeEntries]
    split_ifs with hi
    · obtain ⟨t, ht⟩ := exists_logTermAt hlo.le hi
      rw [ht]
      dsimp only
      split_ifs
      · rw [checkedSub, if_pos (Nat.succ_le_of_lt hlo)]
        exact mergeEntries_ne_none es (Nat.lt_succ_of_lt hlo)
      · exact mergeEntries_ne_none es (Nat.lt_succ_of_lt hlo)
    · exact mergeEntries_ne_none es (Nat.lt_succ_of_lt hlo)

/-- The merge loop panics where it starts inside the snapshot, unless with the entry at its
end. -/
theorem mergeEntries_eq_none_iff (core : RaftCore) (i : ℕ) (es : List LogEntry) :
    core.mergeEntries i es = none ↔
    i ≤ core.lastIncludedIndex ∧ ∃ e ∈ es.head?, core.logTermAt i ≠ some e.term := by
  rcases Nat.lt_or_ge core.lastIncludedIndex i with hlo | hle
  · exact iff_of_false (mergeEntries_ne_none es hlo) fun h => Nat.not_le.mpr hlo h.1
  · cases es with
    | nil => simp [mergeEntries]
    | cons e es =>
      have hlast : i ≤ core.lastLogIndex := hle.trans (Nat.le_add_right _ _)
      rw [mergeEntries, if_pos hlast]
      simp only [hle, List.head?_cons, Option.mem_def, Option.some.injEq, exists_eq_left', true_and]
      cases ht : core.logTermAt i with
      | none => simp
      | some t =>
        have hi : i = core.lastIncludedIndex := le_antisymm hle (logTermAt_eq_some.mp ht).1
        have hsub : checkedSub i (core.lastIncludedIndex + 1) = none := by
          rw [checkedSub, if_neg (by omega)]
        dsimp only
        split_ifs with hne
        · simp [hsub, hne]
        · exact iff_of_false (mergeEntries_ne_none es (by omega)) fun h => hne (by simpa using h)

/-- The commit step of a follower panics where the log ends below the commit index. -/
theorem followCommit_eq_none_iff (core : RaftCore) (leaderCommit : ℕ) :
    core.followCommit leaderCommit = none ↔
      core.commitIndex < leaderCommit ∧ core.lastLogIndex < core.commitIndex := by
  unfold followCommit
  split_ifs with hlt
  · have hlast : core.lastLogIndex = core.lastIncludedIndex + core.log.length := rfl
    have hslice : core.logSlice (core.commitIndex + 1) (min leaderCommit core.lastLogIndex + 1) =
        none ↔ core.lastLogIndex < core.commitIndex := by
      rw [logSlice]
      split_ifs with hb
      · exact iff_of_false (by simp) (by omega)
      · rw [checkedSub]
        split_ifs with hsub
        · simp only [bind, Option.bind_some, ite_eq_right_iff, reduceCtorEq, imp_false]
          omega
        · exact iff_of_true rfl (by omega)
    rw [and_iff_right hlt, ← hslice]
    change Option.bind (core.logSlice _ _) _ = none ↔ _
    cases core.logSlice (core.commitIndex + 1) (min leaderCommit core.lastLogIndex + 1) <;> simp
  · exact iff_of_false (by simp) fun h => hlt h.1

theorem persistMerged_ne_none (h : req.prevLogIndex ≤ core.lastLogIndex) :
    core.persistMerged req ≠ none := by
  unfold persistMerged
  split_ifs
  · exact Option.some_ne_none _
  · rcases Nat.lt_or_ge core.lastIncludedIndex (req.prevLogIndex + 1) with hlo | hle
    · rw [logSlice_end hlo (Nat.succ_le_succ h)]
      exact Option.some_ne_none _
    · rw [logSlice, if_pos hle]
      exact Option.some_ne_none _

theorem accepting_iff (rnd : ℕ) : core.Accepting req ↔
    ¬((core.termChecked req.term rnd).state = .leader ∨ req.term < core.currentTerm) ∧
      core.appendEntriesValid req = true := by
  constructor
  · rintro ⟨ht, hl, hv⟩
    refine ⟨?_, hv⟩
    rintro (hs | hlt)
    · have hne : (core.termChecked req.term rnd).state ≠ .follower := by simp [hs]
      have hle := le_of_termChecked_state hne
      rw [termChecked_of_le hle] at hs
      exact Nat.not_lt.mpr hle (hl hs)
    · omega
  · rintro ⟨h, hv⟩
    rw [not_or, Nat.not_lt] at h
    exact accepting_of_termChecked h.2 h.1 hv

/-- The handler of AppendEntries panics exactly on a request that starts inside the snapshot,
or that leaves a log below the commit index when that is to be raised. -/
theorem handleAppendEntries_eq_none_iff (hc : core.Level) :
    core.handleAppendEntries req rnd = none ↔
      core.Underflows req ∨ core.Shortens req ∧ core.commitIndex < req.leaderCommit := by
  have hacc : core.handleAppendEntries req rnd = none ↔ core.Accepting req ∧
      ((core.termChecked req.term rnd).follow req.leaderId rnd).acceptEntries req = none := by
    rw [handleAppendEntries_eq, accepting_iff rnd]
    split_ifs with hrej hv
    · simp [hrej]
    · simp [hrej, hv]
    · simp [hrej, hv]
  rw [hacc]
  by_cases ha : core.Accepting req
  · rw [and_iff_right ha, acceptEntries]
    have hb : ((core.termChecked req.term rnd).follow req.leaderId rnd).base = core.base :=
      termChecked_base core req.term rnd
    have hl : ((core.termChecked req.term rnd).follow req.leaderId rnd).log = core.log :=
      termChecked_log core req.term rnd
    have hbi : ((core.termChecked req.term rnd).follow req.leaderId rnd).lastIncludedIndex =
        core.lastIncludedIndex := congrArg Point.index hb
    have hnone := mergeEntries_eq_none_iff ((core.termChecked req.term rnd).follow req.leaderId rnd)
      (req.prevLogIndex + 1) req.entries
    rw [hbi, logTermAt_congr hb hl] at hnone
    cases hme : ((core.termChecked req.term rnd).follow req.leaderId rnd).mergeEntries
        (req.prevLogIndex + 1) req.entries with
    | none =>
      rw [hme] at hnone
      exact iff_of_true rfl (Or.inl ⟨ha, hnone.mp rfl⟩)
    | some merged =>
      have hunder : ¬core.Underflows req := fun h => by
        rw [hnone.mpr h.2] at hme
        cases hme
      have hm := mergeEntries_frame _ hme
      have hcommit : merged.commitIndex = core.commitIndex := by
        rw [hm]
        exact termChecked_commitIndex core req.term rnd
      have hprev : req.prevLogIndex ≤ merged.lastLogIndex := by
        have := start_le_of_valid ha.2.2
        rcases merged_last_cases hme ha.2.2 with ⟨h, -⟩ | ⟨h, -⟩ <;> omega
      obtain ⟨persist, hp⟩ := Option.ne_none_iff_exists'.mp (persistMerged_ne_none hprev)
      have hfollow := followCommit_eq_none_iff merged req.leaderCommit
      rw [hcommit, hc.merged_last_lt_iff ha hme] at hfollow
      rw [or_iff_right hunder, and_comm, ← hfollow]
      simp only [bind, Option.bind_some, hp]
      cases merged.followCommit req.leaderCommit <;> simp
  · exact iff_of_false (fun h => ha h.1) fun h => ha (h.elim (fun h => h.1) fun h => h.1.1)

end RaftCore

/-! ## The log along a run -/

namespace Cluster

variable {cfg : Config} {c : Cluster} {n : NodeId} {req : AppendEntriesRPC}

/-- The step does not cut a log below what is committed. -/
def Keeps (c : Cluster) : Input → Prop
  | .call n (.message (.appendEntries req)) _ => ¬(c.core n).Shortens req
  | _ => True

instance (c : Cluster) : (i : Input) → Decidable (c.Keeps i)
  | .call n (.message (.appendEntries req)) _ =>
    inferInstanceAs (Decidable (¬(c.core n).Shortens req))
  | .call _ (.message (.requestVote _)) _ | .call _ (.message (.requestVoteResponse _)) _
  | .call _ (.message (.appendEntriesResponse _)) _ | .call _ (.message (.installSnapshot _)) _
  | .call _ (.message (.installSnapshotResponse _)) _ | .call _ .tick _ | .call _ (.propose _) _
  | .call _ .readBarrier _ | .call _ (.snapshot _) _ | .crash _ _ | .crashAfterTermCheck _ _ _ =>
    inferInstanceAs (Decidable True)

theorem level_restart (cfg : Config) (n : NodeId) (disk : Mirror) (rnd : ℕ) :
    (cfg.restart n disk rnd).Level := by
  unfold Config.restart
  split_ifs
  · exact (RaftCore.Started.restore ..).level
  · exact (RaftCore.Started.restoreWithSnapshot ..).level

/-- Every node has applied what it has committed, and has it in its log. -/
theorem level_of_keeps (h : cfg.machine.Run Keeps cfg.init c) (n : NodeId) : (c.core n).Level := by
  refine h.invariant (P := fun c => ∀ n, (c.core n).Level) ?_ ?_ n
  · exact fun n => (RaftCore.Started.new ..).level
  · intro c i c' hl hok hs
    rcases step_cases hs with ⟨n, request, rnd, after, actions, rfl, -, -, ho, rfl⟩ |
      ⟨n, t, rnd, -, rfl, -⟩
    · refine forall_core (P := fun _ core => core.Level) (n := n)
        (fun m hm => core_record_of_ne hm) ?_ fun m _ => hl m
      rw [core_record_self]
      exact ho.level (hl n) fun req hreq => by
        subst hreq
        exact hok
    · refine forall_core (P := fun _ core => core.Level) (n := n)
        (fun m hm => core_setNode_of_ne _ hm) ?_ fun m _ => hl m
      rw [core_setNode_self]
      exact level_restart cfg n _ rnd

/-- In a sound run no request of a node's term or later names another term for what the node
has committed. -/
theorem not_shortens_of_sound (h : cfg.machine.Run Sound cfg.init c)
    (hm : (n, .appendEntries req) ∈ c.net) : ¬(c.core n).Shortens req := by
  obtain ⟨hb, hs⟩ := sound_run h
  rintro ⟨⟨hle, -⟩, -, k, hidx, hsome, hne⟩
  obtain ⟨t, ht⟩ := Option.ne_none_iff_exists'.mp hsome
  obtain ⟨x, hx, hd, hxle⟩ := hs.commit n
  have hpath := hb.tree.path n
  rw [← hb.tree.tree_link] at hpath
  -- the node's point lies below the commit point
  have hxtip := hb.anc hd (hb.tree.known_tip n) hxle
  have hp := EntryTree.anc_total (RaftCore.anc_tip_of_logTermAt hpath ht) hxtip (hx ▸ hidx)
  -- the request's point lies below its last one
  obtain ⟨hk, hes, -⟩ := hb.tree.append n req hm
  have hlast := (hs.append n req hm).1
  have hkl := TreeInv.known_end hk hes
  rw [← hb.tree.tree_link] at hes
  have hq := EntryTree.anc_take hes (k + 1)
  rw [endPoint_take_succ _ k.isLt] at hq
  have hpt : (⟨req.prevLogIndex + 1 + k, t⟩ : Point) =
      ⟨req.prevLogIndex + k + 1, req.entries[k].term⟩ := by
    have hi : req.prevLogIndex + 1 + k = req.prevLogIndex + k + 1 := by omega
    have hmx := hb.tree.tree_mem.mpr hd.1
    have hml := hb.tree.tree_mem.mpr hkl
    have hterm : x.term ≤ req.last.term := by
      rw [hlast]
      exact hd.2.1.trans hle
    rcases hterm.lt_or_eq with hlt | heq
    · have hxl := hb.anc hd hkl (Point.le_def.mpr (Or.inl hlt))
      exact EntryTree.anc_unique (hp.trans hxl) hq hi
    · rcases Nat.le_total x.index req.last.index with hxi | hxi
      · exact EntryTree.anc_unique (hp.trans (EntryTree.anc_of_term_eq hmx hml heq hxi)) hq hi
      · exact EntryTree.anc_unique hp
          (hq.trans (EntryTree.anc_of_term_eq hml hmx heq.symm hxi)) hi
  exact hne (ht.trans (congrArg (fun p => some p.term) hpt))

theorem keeps_of_sound (h : cfg.machine.Run Sound cfg.init c) :
    cfg.machine.Run Keeps cfg.init c := by
  refine (h.strengthen (P := fun c => cfg.machine.Run Sound cfg.init c) .init
    (fun c i c' hc hok hs => .step hc hok hs) fun c i c' hc _ hs => ?_).1
  rcases step_cases hs with ⟨n, request, rnd, after, actions, rfl, -, he, -⟩ |
    ⟨n, t, rnd, -, -, -, hi⟩
  · cases request with
    | message msg =>
      cases msg with
      | appendEntries req => exact not_shortens_of_sound hc he
      | _ => trivial
    | _ => trivial
  · cases i with
    | call n request rnd => exact absurd rfl (hi n request rnd)
    | _ => trivial

end Cluster

/-! ## Links -/

/-- A cluster with the messages on each link from a node to another, oldest first. -/
structure Wires where
  cluster : Cluster
  queue : NodeId → NodeId → List Message

/-- A step : a call that is not a message, a crash, the delivery of the oldest message of a
link, or the loss of any. -/
inductive WireInput where
  | call (n : NodeId) (request : Request) (rnd : ℕ)
  | crash (n : NodeId) (rnd : ℕ)
  | deliver (src dst : NodeId) (rnd : ℕ)
  | lose (src dst : NodeId) (k : ℕ)
deriving DecidableEq

namespace Wires

/-- Change what is on one link. -/
def setQueue (w : Wires) (src dst : NodeId) (msgs : List Message) : Wires :=
  { w with queue := fun s d => if s = src ∧ d = dst then msgs else w.queue s d }

/-- Perform a call, and put what the node has sent on its links. -/
def perform (w : Wires) (n : NodeId) (request : Request) (rnd : ℕ) : Option Wires := do
  let (after, actions) ← (w.cluster.core n).call rnd request
  let sent := (w.cluster.newCall n request after actions).sent
  some
    { cluster := w.cluster.record n request after actions
      queue := fun src dst =>
        if src = n then w.queue src dst ++ (sent.filter fun m => m.1 = dst).map Prod.snd
        else w.queue src dst }

def step (cfg : Config) (w : Wires) : WireInput → Option Wires
  | .call n request rnd =>
    match request with
    | .message _ => none
    | .tick | .propose _ | .readBarrier | .snapshot _ =>
      if n ∈ cfg.nodes then w.perform n request rnd else none
  | .crash n rnd => (cfg.machine.step w.cluster (.crash n rnd)).map fun c => { w with cluster := c }
  | .deliver src dst rnd =>
    match w.queue src dst with
    | [] => none
    | msg :: msgs =>
      if dst ∈ cfg.nodes then (w.setQueue src dst msgs).perform dst (.message msg) rnd else none
  | .lose src dst k => some (w.setQueue src dst ((w.queue src dst).eraseIdx k))

end Wires

def Config.wires (cfg : Config) : Wires :=
  ⟨cfg.init, fun _ _ => []⟩

/-- The cluster with ordered links as a machine. -/
def Config.fifo (cfg : Config) : Machine Wires WireInput :=
  ⟨Wires.step cfg⟩

namespace Wires

variable {cfg : Config} {w w' : Wires} {i : WireInput}

/-- What a step is to the cluster. -/
def input (w : Wires) : WireInput → Option Input
  | .call n request rnd => some (.call n request rnd)
  | .crash n rnd => some (.crash n rnd)
  | .deliver src dst rnd => (w.queue src dst).head?.map fun msg => .call dst (.message msg) rnd
  | .lose _ _ _ => none

/-- Whatever is on a link has been sent to its end. -/
def InFlight (w : Wires) : Prop :=
  ∀ src dst, ∀ msg ∈ w.queue src dst, (dst, msg) ∈ w.cluster.net

theorem InFlight.setQueue (h : w.InFlight) {src dst : NodeId} {msgs : List Message}
    (hsub : ∀ msg ∈ msgs, msg ∈ w.queue src dst) : (w.setQueue src dst msgs).InFlight := by
  intro s d msg hm
  simp only [Wires.setQueue] at hm
  split_ifs at hm with heq
  · obtain ⟨rfl, rfl⟩ := heq
    exact h s d msg (hsub msg hm)
  · exact h s d msg hm

/-- A performed call is a step of the cluster. -/
theorem perform_spec {n : NodeId} {request : Request} {rnd : ℕ} (h : w.InFlight)
    (hn : n ∈ cfg.nodes) (he : w.cluster.Enabled n request)
    (hp : w.perform n request rnd = some w') :
    cfg.machine.step w.cluster (.call n request rnd) = some w'.cluster ∧ w'.InFlight := by
  simp only [perform, bind, Option.bind_eq_some_iff, Option.some.injEq] at hp
  obtain ⟨⟨after, actions⟩, hc, rfl⟩ := hp
  constructor
  · simp [Config.machine, Cluster.step, hn, he, hc]
  · intro src dst msg hm
    dsimp only at hm
    split_ifs at hm
    · rcases List.mem_append.mp hm with hm | hm
      · exact Cluster.mem_net_record_of_mem (h src dst msg hm)
      · obtain ⟨⟨d, m⟩, hd, rfl⟩ := List.mem_map.mp hm
        obtain ⟨hsent, heq⟩ := List.mem_filter.mp hd
        obtain rfl : d = dst := of_decide_eq_true heq
        exact List.mem_append_left _ hsent
    · exact Cluster.mem_net_record_of_mem (h src dst msg hm)

/-- A step with ordered links is one of the cluster, or a loss. -/
theorem step_cluster (h : w.InFlight) (hs : cfg.fifo.step w i = some w') : w'.InFlight ∧
    ((∃ j, w.input i = some j ∧ cfg.machine.step w.cluster j = some w'.cluster) ∨
      w'.cluster = w.cluster) := by
  cases i with
  | call n request rnd =>
    have hlocal : w.cluster.Enabled n request ∧ n ∈ cfg.nodes ∧
        w.perform n request rnd = some w' := by
      cases request with
      | message => cases hs
      | _ =>
        simp only [Config.fifo, step] at hs
        split_ifs at hs with hn
        exact ⟨trivial, hn, hs⟩
    obtain ⟨he, hn, hp⟩ := hlocal
    obtain ⟨hc, hf⟩ := perform_spec h hn he hp
    exact ⟨hf, Or.inl ⟨_, rfl, hc⟩⟩
  | crash n rnd =>
    simp only [Config.fifo, step, Option.map_eq_some_iff] at hs
    obtain ⟨c, hc, rfl⟩ := hs
    refine ⟨fun src dst msg hm => ?_, Or.inl ⟨_, rfl, hc⟩⟩
    simp only [Config.machine, Cluster.step] at hc
    split_ifs at hc
    obtain rfl := Option.some.inj hc
    exact h src dst msg hm
  | deliver src dst rnd =>
    simp only [Config.fifo, step] at hs
    split at hs
    next => cases hs
    next msg msgs hq =>
      split_ifs at hs with hn
      have hf : (w.setQueue src dst msgs).InFlight :=
        h.setQueue fun m hm => hq ▸ List.mem_cons_of_mem _ hm
      have he : (w.setQueue src dst msgs).cluster.Enabled dst (.message msg) :=
        h src dst msg (hq ▸ List.mem_cons_self)
      obtain ⟨hc, hf'⟩ := perform_spec hf hn he hs
      refine ⟨hf', Or.inl ⟨.call dst (.message msg) rnd, ?_, hc⟩⟩
      rw [input, hq]
      rfl
  | lose src dst k =>
    obtain rfl := Option.some.inj hs
    exact ⟨h.setQueue fun m hm => List.mem_of_mem_eraseIdx hm, Or.inr rfl⟩

/-- Every run with ordered links is a run of the cluster. -/
theorem run_cluster {ok : Cluster → Input → Prop}
    (h : cfg.fifo.Run (fun w i => ∀ j ∈ w.input i, ok w.cluster j) cfg.wires w) :
    cfg.machine.Run ok cfg.init w.cluster ∧ w.InFlight := by
  refine h.invariant (P := fun w => cfg.machine.Run ok cfg.init w.cluster ∧ w.InFlight) ?_ ?_
  · exact ⟨.init, nofun⟩
  · rintro w i w' ⟨hrun, hf⟩ hok hs
    obtain ⟨hf', ⟨j, hj, hstep⟩ | heq⟩ := step_cluster hf hs
    · exact ⟨hrun.step (hok j hj) hstep, hf'⟩
    · exact ⟨heq ▸ hrun, hf'⟩

/-- When appending panics : in every run with ordered links whose requests do not cut a log
below what is committed, the next request to a node, whatever it is, makes the handler panic
exactly if it starts inside the node's snapshot, or cuts its log so and raises the commit
index. -/
theorem append_panics_iff
    (h : cfg.fifo.Run (fun w i => ∀ j ∈ w.input i, w.cluster.Keeps j) cfg.wires w) (n : NodeId)
    (req : AppendEntriesRPC) (rnd : ℕ) :
    (w.cluster.core n).handleAppendEntries req rnd = none ↔ (w.cluster.core n).Underflows req ∨
      (w.cluster.core n).Shortens req ∧ (w.cluster.core n).commitIndex < req.leaderCommit :=
  RaftCore.handleAppendEntries_eq_none_iff (Cluster.level_of_keeps (run_cluster h).1 n)

/-- In sound runs only the snapshot is left. -/
theorem append_panics_iff_of_sound
    (h : cfg.fifo.Run (fun w i => ∀ j ∈ w.input i, w.cluster.Sound j) cfg.wires w)
    {src n : NodeId} {req : AppendEntriesRPC} (hq : .appendEntries req ∈ w.queue src n) (rnd : ℕ) :
    (w.cluster.core n).handleAppendEntries req rnd = none ↔ (w.cluster.core n).Underflows req := by
  obtain ⟨hrun, hf⟩ := run_cluster h
  have hlevel := Cluster.level_of_keeps (Cluster.keeps_of_sound hrun) n
  rw [RaftCore.handleAppendEntries_eq_none_iff hlevel]
  exact or_iff_left fun hs => Cluster.not_shortens_of_sound hrun (hf src n _ hq) hs.1

/-- Node 1 leads term 1 with a proposal. It has sent the two entries to node 2, has committed
them with node 3, and goes on sending them to node 2, whose answer it has not heard. Node 2
takes them and commits them. -/
def resentEntries : List WireInput :=
  [.call 1 .tick 1, .deliver 1 2 1, .deliver 2 1 1, .call 1 (.propose [7]) 1,
    .deliver 1 2 1, .deliver 2 1 1,
    .deliver 1 3 1, .deliver 1 3 1, .deliver 3 1 1, .deliver 3 1 1, .deliver 1 3 1, .deliver 1 3 1,
    .deliver 3 1 1, .deliver 3 1 1, .call 1 .tick 1, .call 1 .tick 1,
    .deliver 1 2 1, .deliver 1 2 1, .deliver 1 2 1]

/-- What node 1 sends again. -/
def resent : AppendEntriesRPC :=
  ⟨1, 1, 0, 0, [⟨1, []⟩, ⟨1, [7]⟩], 2⟩

theorem append_panics_iff_resentEntries :
    ∃ w, Config.trio.fifo.Run (fun w i => ∀ j ∈ w.input i, w.cluster.Keeps j) Config.trio.wires w ∧
      w.queue 1 2 = [.appendEntries resent] ∧
      (w.cluster.core 2).handleAppendEntries resent 1 ≠ none := by
  obtain ⟨w, hw, hq, hu, hs⟩ := Config.trio.fifo.exists_run_of_exec
    (fun w i => ∀ j ∈ w.input i, w.cluster.Keeps j) Config.trio.wires resentEntries
    (fun w => w.queue 1 2 = [.appendEntries resent] ∧ ¬(w.cluster.core 2).Underflows resent ∧
      ¬(w.cluster.core 2).Shortens resent) (by decide +kernel) (by decide +kernel)
  refine ⟨w, hw, hq, fun hnone => ?_⟩
  rcases (append_panics_iff hw 2 resent 1).mp hnone with h | h
  · exact hu h
  · exact hs h.1

/-- Once node 2 has compacted its log, the entries that come again make it panic. -/
theorem panics_of_resentEntries :
    ∃ w, Config.trio.fifo.Run (fun w i => ∀ j ∈ w.input i, w.cluster.Keeps j) Config.trio.wires w ∧
      w.queue 1 2 = [.appendEntries resent] ∧ (w.cluster.core 2).lastIncludedIndex = 2 ∧
      (w.cluster.core 2).handleAppendEntries resent 1 = none := by
  obtain ⟨w, hw, hq, hl, hn⟩ := Config.trio.fifo.exists_run_of_exec
    (fun w i => ∀ j ∈ w.input i, w.cluster.Keeps j) Config.trio.wires
    (resentEntries ++ [.call 2 (.snapshot []) 1])
    (fun w => w.queue 1 2 = [.appendEntries resent] ∧ (w.cluster.core 2).lastIncludedIndex = 2 ∧
      ((w.cluster.core 2).handleAppendEntries resent 1).isNone) (by decide +kernel)
      (by decide +kernel)
  exact ⟨w, hw, hq, hl, Option.isNone_iff_eq_none.mp hn⟩

end Wires

end FerrisFerry
