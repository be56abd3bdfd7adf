import FerrisFerry.Election
import FerrisFerry.Tree

/-!
# Log matching

Logs and requests are paths of one tree, so where two of them share an entry they share
everything below it (`Cluster.log_matching`). Without snapshots every log starts at the
root. One leader per term is an assumption here, not a consequence : see
`Cluster.election_safety` for when it holds.
-/

namespace FerrisFerry

namespace Cluster

variable {cfg : Config} {c c' : Cluster}

/-! ## Runs without snapshots -/

/-- No node takes a snapshot. -/
def NoSnapshot (_ : Cluster) : Input → Prop
  | .call _ (.snapshot _) _ => False
  | _ => True

instance (c : Cluster) : (i : Input) → Decidable (c.NoSnapshot i)
  | .call _ (.snapshot _) _ => inferInstanceAs (Decidable False)
  | .call _ .tick _ | .call _ (.propose _) _ | .call _ .readBarrier _ | .call _ (.message _) _
  | .crash _ _ | .crashAfterTermCheck _ _ _ => inferInstanceAs (Decidable True)

/-- Nothing is compacted, on no node and in no message. -/
structure Uncompacted (c : Cluster) : Prop where
  disk : ∀ n, (c.disk n).LogOf (c.core n) ∧ (c.disk n).snapshot = none
  base : ∀ n, (c.core n).base = Point.root
  net : ∀ dst req, (dst, .installSnapshot req) ∉ c.net

theorem uncompacted_init (cfg : Config) : cfg.init.Uncompacted :=
  ⟨fun _ => ⟨⟨rfl, rfl⟩, rfl⟩, fun _ => rfl, fun _ _ hm => by simp [net, Config.init] at hm⟩

theorem Uncompacted.rooted (hi : c.Uncompacted) {i : Input}
    (hs : cfg.machine.step c i = some c') : c.Rooted i := by
  rcases step_cases hs with ⟨n, request, rnd, after, actions, rfl, -, he, -, -⟩ |
    ⟨n, t, rnd, -, -, -, hne⟩
  · refine ⟨fun _ _ _ _ => congrArg Point.index (hi.base n), fun req hr _ => ?_⟩
    subst hr
    exact absurd he (hi.net n req)
  · cases i with
    | call n request rnd => exact absurd rfl (hne n request rnd)
    | crash => trivial
    | crashAfterTermCheck => trivial

theorem Uncompacted.step (hi : c.Uncompacted) {i : Input} (hn : c.NoSnapshot i)
    (hs : cfg.machine.step c i = some c') : c'.Uncompacted := by
  have hr := hi.rooted hs
  rcases step_cases hs with ⟨n, request, rnd, after, actions, rfl, -, he, ho, rfl⟩ |
    ⟨n, t, rnd, -, rfl, -⟩
  · have hlog := (hi.disk n).1.afterCall ho hr.1.entries
    have hsnap : ((c.disk n).afterCall (c.core n) request actions).snapshot = none := by
      have hrep := (c.disk n).replay_snapshot fun i l data hm => by
        cases ho.emits hm with
        | leading hb => exact (RaftCore.leading_of_build hb).elim
        | install hreq =>
          subst hreq
          exact hi.net n _ he
      unfold Mirror.afterCall
      split
      · exact hn.elim
      · exact hrep.trans (hi.disk n).2
    refine ⟨fun m => ?_, fun m => ?_, fun dst req hm => ?_⟩
    · refine forall_node (P := fun disk core => disk.LogOf core ∧ disk.snapshot = none)
        (fun m => core_record_of_ne) (fun m => disk_record_of_ne) ?_ hi.disk m
      rw [core_record_self, disk_record_self]
      exact ⟨hlog, hsnap⟩
    · refine forall_core (P := fun _ core => core.base = Point.root) (fun m => core_record_of_ne) ?_
        (fun m _ => hi.base m) m
      rw [core_record_self]
      cases ho.logMove hr.1 with
      | keep h | push _ _ _ h => exact h.trans (hi.base n)
      | merge h => exact h.base_eq.trans (hi.base n)
      | install => exact absurd he (hi.net n _)
      | compact => exact hn.elim
    · rcases List.mem_append.mp hm with hm | hm
      · rcases mem_newCall_sent hm with hm | ⟨t, i, l, data, -, hd, -⟩
        · obtain ⟨peer, hb, -⟩ := ho.built hm trivial
          exact RaftCore.build_ne_install _ _ hb
        · rw [hsnap] at hd
          cases hd
      · exact hi.net dst req hm
  · obtain ⟨hlog, hbase⟩ := (hi.disk n).1.termActions t
    have hrestart := cfg.restart_base n rnd fun _ => hbase.trans (hi.base n)
    have hsnap : ((c.disk n).replay ((c.core n).termActions t)).snapshot = none :=
      ((c.disk n).replay_keepsLog fun _ => Mirror.keepsLog_of_termActions).2.2.trans (hi.disk n).2
    refine ⟨fun m => ?_, fun m => ?_, hi.net⟩
    · refine forall_node (P := fun disk core => disk.LogOf core ∧ disk.snapshot = none)
        (fun m => core_setNode_of_ne _) (fun m => disk_setNode_of_ne _) ?_ hi.disk m
      rw [core_setNode_self, disk_setNode_self, Mirror.LogOf, hrestart]
      exact ⟨⟨(Config.restart_log ..).symm, rfl⟩, hsnap⟩
    · refine forall_core (P := fun _ core => core.base = Point.root)
        (fun m => core_setNode_of_ne _) ?_
        (fun m _ => hi.base m) m
      rw [core_setNode_self]
      exact hrestart.trans (hbase.trans (hi.base n))

/-- Without snapshots every run keeps the tree. -/
theorem treeInv_of_noSnapshot (h : cfg.machine.Run NoSnapshot cfg.init c) (hu : c.OneLeader) :
    TreeInv c ∧ c.Uncompacted := by
  obtain ⟨hr, hi⟩ := h.strengthen (P := Uncompacted) (uncompacted_init cfg)
    (fun _ _ _ hi hn hs => hi.step hn hs) fun _ _ _ hi _ hs => hi.rooted hs
  exact ⟨treeInv_run hr hu, hi⟩

/-! ## Log matching -/

/-- Two logs with an entry of one term at one index are the same up to it. -/
def LogsMatch (core core' : RaftCore) : Prop :=
  ∀ i e e', core.logEntryAt i = some e → core'.logEntryAt i = some e' → e.term = e'.term →
    ∀ j, 1 ≤ j → j ≤ i → ∃ e, core.logEntryAt j = some e ∧ core'.logEntryAt j = some e

/-- A log with an entry of one term at the index of an entry of a request has the entries of
the request up to it, and before them the previous entry. -/
def RequestMatches (req : AppendEntriesRPC) (core : RaftCore) : Prop :=
  ∀ k e e', req.entries[k]? = some e → core.logEntryAt (req.prevLogIndex + k + 1) = some e' →
    e.term = e'.term →
    (∀ j ≤ k, ∃ e, req.entries[j]? = some e ∧
      core.logEntryAt (req.prevLogIndex + j + 1) = some e) ∧
    (1 ≤ req.prevLogIndex → core.logTermAt req.prevLogIndex = some req.prevLogTerm)

/-- Log matching : in every run without snapshots and with one leader per term. -/
theorem log_matching (h : cfg.machine.Run NoSnapshot cfg.init c) (hu : c.OneLeader) :
    (∀ n m, LogsMatch (c.core n) (c.core m)) ∧
      ∀ dst req n, (dst, .appendEntries req) ∈ c.net → RequestMatches req (c.core n) := by
  obtain ⟨hi, hun⟩ := treeInv_of_noSnapshot h hu
  have hpath : ∀ n, PathIn hi.tree.link (c.core n).base (c.core n).log := fun n => by
    rw [hi.tree_link]
    exact hi.path n
  have hzero : ∀ n, (c.core n).lastIncludedIndex = 0 := fun n => congrArg Point.index (hun.base n)
  refine ⟨fun n m i e e' he he' ht j hj hji => ?_, fun dst req n hm k e e' he he' ht => ?_⟩
  · have ha := RaftCore.anc_tip_of_logTermAt (hpath n) (RaftCore.logTermAt_of_logEntryAt he)
    have ha' := RaftCore.anc_tip_of_logTermAt (hpath m) (RaftCore.logTermAt_of_logEntryAt he')
    rw [ht] at ha
    exact RaftCore.logEntryAt_agree (hpath n) (hpath m) ha ha' hji (by rw [hzero]; omega)
      (by rw [hzero]; omega)
  · obtain ⟨-, hreq, -⟩ := hi.append dst req hm
    rw [← hi.tree_link] at hreq
    obtain ⟨hk, rfl⟩ := List.getElem?_eq_some_iff.mp he
    -- the entry is a point of both paths
    have ha := EntryTree.anc_take hreq (k + 1)
    rw [endPoint_take_succ req.prev hk, ht] at ha
    have ha' := RaftCore.anc_tip_of_logTermAt (hpath n) (RaftCore.logTermAt_of_logEntryAt he')
    refine ⟨fun j hj => ?_, fun hprev => ?_⟩
    · have hle := ha'.index_le
      simp only [RaftCore.tip_index, RaftCore.lastLogIndex, hzero] at hle
      refine ⟨req.entries[j], List.getElem?_eq_getElem (by omega),
        RaftCore.logEntryAt_eq_some.mpr ⟨req.prevLogIndex + j, by omega, by rw [hzero]; omega, ?_⟩⟩
      refine (EntryTree.path_agree hreq (hpath n) ha ha' (by omega) (by omega) ?_ ?_).symm
      · rw [RaftCore.base_index, hzero, Nat.zero_add]
        rfl
      · change req.prevLogIndex + j < req.prevLogIndex + k + 1
        omega
    · have hprevk : hi.tree.Anc req.prev ⟨req.prevLogIndex + k + 1, e'.term⟩ := by
        have hfrom := EntryTree.anc_endPoint (hreq.take (k + 1))
        rwa [endPoint_take_succ req.prev hk, ht] at hfrom
      exact RaftCore.logTermAt_of_anc (hpath n) (hprevk.trans ha') (by rw [hzero]; omega)

/-- A leader proposes, a follower lacks an entry and is brought up to date. -/
def replicated : List Input :=
  [.call 1 .tick 1, .call 2 (.message (.requestVote ⟨1, 1, 0, 0⟩)) 1,
    .call 1 (.message (.requestVoteResponse ⟨2, 1, true⟩)) 1, .call 1 (.propose [7]) 1,
    .call 2 (.message (.appendEntries ⟨1, 1, 1, 1, [⟨1, [7]⟩], 0⟩)) 1,
    .call 1 (.message (.appendEntriesResponse ⟨2, 1, 0, false, some 1, none⟩)) 1,
    .call 2 (.message (.appendEntries ⟨1, 1, 0, 0, [⟨1, []⟩, ⟨1, [7]⟩], 0⟩)) 1]

theorem log_matching_replicated :
    ∃ c, Config.trio.machine.Run NoSnapshot Config.trio.init c ∧ c.OneLeader ∧
      (c.core 1).logEntryAt 2 = some ⟨1, [7]⟩ ∧ (c.core 2).logEntryAt 2 = some ⟨1, [7]⟩ ∧
      (∀ n m, LogsMatch (c.core n) (c.core m)) ∧
      ∀ dst req n, (dst, .appendEntries req) ∈ c.net → RequestMatches req (c.core n) := by
  obtain ⟨c, hc, h1, h2⟩ := Config.trio.machine.exists_run_of_exec
    (fun c i => c.NoSnapshot i ∧ c.FreshVotes i) Config.trio.init replicated
    (fun c => (c.core 1).logEntryAt 2 = some ⟨1, [7]⟩ ∧ (c.core 2).logEntryAt 2 = some ⟨1, [7]⟩)
    (by decide +kernel) (by decide +kernel)
  have hn := hc.mono fun _ _ h => h.1
  have hu := (voteInv_run (hc.mono fun _ _ h => h.2)).oneLeader
  exact ⟨c, hn, hu, h1, h2, log_matching hn hu⟩

end Cluster

end FerrisFerry
