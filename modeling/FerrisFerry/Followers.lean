import FerrisFerry.Agreement
import FerrisFerry.Backoff

/-!
# The followers of a leader

What the repair of a follower's log starts from (`RaftCore.Repairable`) holds in every state of
a sound run, for every leader and every follower of its term (`Cluster.repairable_run`) : the
logs are paths of one tree, and what the follower has committed or compacted is decided, so the
leader has it.
-/

namespace FerrisFerry

/-- A disk with a snapshot index holds a snapshot. -/
def Mirror.Stored (m : Mirror) : Prop :=
  0 < m.lastIncludedIndex → m.snapshot.isSome = true

namespace Mirror.Stored

variable {m : Mirror} {actions : List Action}

theorem replay (h : m.Stored) (actions : List Action) : (m.replay actions).Stored := by
  induction actions generalizing m with
  | nil => exact h
  | cons a actions ih =>
    refine ih (m := m.apply a) ?_
    cases a with
    | installSnapshot => exact fun _ => rfl
    | _ => exact h

theorem afterCall (h : m.Stored) (before : RaftCore) (request : Request) (actions : List Action) :
    (m.afterCall before request actions).Stored := by
  unfold Mirror.afterCall
  split
  · exact fun _ => rfl
  · exact h.replay actions

end Mirror.Stored

namespace Cluster

variable {cfg : Config} {c : Cluster} {ok : Cluster → Input → Prop} {n p : NodeId}

theorem stored_run (h : cfg.machine.Run ok cfg.init c) (n : NodeId) : (c.disk n).Stored := by
  refine h.invariant (P := fun c => ∀ n, (c.disk n).Stored) (fun _ h0 => absurd h0 (lt_irrefl 0))
    ?_ n
  intro c input c' hi _ hs m
  have hothers : ∀ {c' : Cluster} {n : NodeId}, (∀ m ≠ n, c'.disk m = c.disk m) →
      (c'.disk n).Stored → (c'.disk m).Stored := by
    intro c' n hkeep hself
    by_cases hm : m = n
    · exact hm ▸ hself
    · exact hkeep m hm ▸ hi m
  rcases step_cases hs with ⟨n, request, rnd, after, actions, rfl, -, -, -, rfl⟩ |
    ⟨n, t, rnd, -, rfl, -⟩
  · refine hothers (fun m hm => disk_record_of_ne hm) ?_
    rw [disk_record_self]
    exact (hi n).afterCall _ _ _
  · refine hothers (fun m hm => disk_setNode_of_ne _ hm) ?_
    rw [crashed, disk_setNode_self]
    exact (hi n).replay _

/-- Terms along a log of the run rise from 1 on, or from that of the snapshot. -/
theorem BaseInv.wellTermed (hb : BaseInv cfg c) (n : NodeId) : (c.core n).WellTermed := by
  have hpos : ∀ p q a, c.Link p q a → 0 < q.term := fun p q a hl => by
    obtain ⟨m, hled⟩ := hb.tree.led p q a hl
    exact (hb.tree.past m q.term hled).1
  refine ⟨termsOrdered_of_rises ((hb.tree.path n).mono hb.tree.term_le) (hb.tree.tip_term n),
    fun e he => ?_, fun h0 => ?_, fun h0 => ?_⟩
  · obtain ⟨i, hi, rfl⟩ := List.mem_iff_getElem.mp he
    exact hpos _ _ _ (hb.tree.path n _ (mem_pathLinks.mpr ⟨i, hi, rfl⟩))
  · exact congrArg Point.term (hb.tree.eq_root (hb.tree.base n) h0)
  · rcases hb.tree.base n with hroot | ⟨q, a, hl⟩
    · exact congrArg Point.index hroot
    · exact absurd h0 (hpos _ _ _ hl).ne'

/-- Two logs that have an entry of one term at an index agree before it. -/
theorem BaseInv.matches (hb : BaseInv cfg c) (n p : NodeId) :
    (c.core n).Matches (c.core p) := by
  have hpath : ∀ v, PathIn hb.tree.tree.link (c.core v).base (c.core v).log := fun v => by
    rw [hb.tree.tree_link]
    exact hb.tree.path v
  intro i e e' he he' hterm j hj a b ha hb'
  have hanc := RaftCore.anc_tip_of_logTermAt (hpath n) (RaftCore.logTermAt_of_logEntryAt he)
  have hanc' := RaftCore.anc_tip_of_logTermAt (hpath p) (RaftCore.logTermAt_of_logEntryAt he')
  rw [← hterm] at hanc'
  obtain ⟨x, hx, hx'⟩ := RaftCore.logEntryAt_agree (hpath n) (hpath p) hanc hanc' hj
    (RaftCore.lt_of_logEntryAt ha) (RaftCore.lt_of_logEntryAt hb')
  rw [ha] at hx
  rw [hb'] at hx'
  exact Option.some.inj (hx.trans hx'.symm)

/-- A leader and a follower of its term. -/
theorem repairable_run (h : cfg.machine.Run Sound cfg.init c) (hl : (c.core n).state = .leader)
    (hf : (c.core p).state = .follower) (ht : (c.core p).currentTerm = (c.core n).currentTerm) :
    RaftCore.Repairable (c.disk n) (c.core n) (c.core p) := by
  obtain ⟨hb, hs⟩ := sound_run h
  have hpath : ∀ v, PathIn hb.tree.tree.link (c.core v).base (c.core v).log := fun v => by
    rw [hb.tree.tree_link]
    exact hb.tree.path v
  have hlead := (hb.tree.leader n hl).2.1
  -- what is decided in the term is in the leader's log
  have hanc : ∀ x, c.Decided cfg (c.core p).currentTerm x →
      hb.tree.tree.Anc x (c.core n).tip := fun x hd => by
    rw [ht] at hd
    exact hb.anc_leader hl hd.1 hd.2.1 fun _ => hd
  refine ⟨hl, hf, ht, hb.wellTermed n, hb.wellTermed p, ⟨?_, ?_⟩, hb.matches n p, ?_, ?_, ?_⟩
  · -- the log of a leader is not empty
    refine Nat.pos_of_ne_zero fun h0 => ?_
    have hroot := hb.tree.eq_root (hb.tree.known_tip n) (RaftCore.tip_index.trans h0)
    have hpos := hb.tree.active n (by simp [hl])
    rw [← hlead, hroot] at hpos
    exact absurd hpos (lt_irrefl _)
  · rw [RaftCore.lastLogTerm_eq, hlead]
  · intro hle
    exact RaftCore.logTermAt_of_anc (hpath n) (hanc _ (hs.base p)) hle
  · intro i hlo hi
    obtain ⟨x, hx, hd, hle⟩ := hs.commit p
    have hn := hanc x hd
    have hp := hb.anc hd (hb.tree.known_tip p) hle
    have hlast : i ≤ (c.core p).lastLogIndex := by
      have := hp.index_le
      rw [RaftCore.tip_index, hx] at this
      exact hi.trans this
    obtain ⟨e, he⟩ := RaftCore.exists_logEntryAt hlo hlast
    refine ⟨e, he, fun hbase => ?_, fun hbase => ?_⟩
    · obtain ⟨e', he₁, he₂⟩ := RaftCore.logEntryAt_agree (hpath n) (hpath p) hn hp
        (hx ▸ hi) hbase hlo
      rw [he₁, ← he₂, he]
    · -- the snapshot of the leader ends at the entry
      have hpoint := RaftCore.anc_tip_of_logTermAt (hpath p) (RaftCore.logTermAt_of_logEntryAt he)
      have hbelow := (EntryTree.anc_total hpoint hp (hx ▸ hi)).trans hn
      exact congrArg Point.term
        (EntryTree.anc_unique hbelow (EntryTree.anc_endPoint (hpath n)) hbase)
  · intro hbase
    refine stored_run h n ?_
    rwa [show (c.disk n).lastIncludedIndex = (c.core n).lastIncludedIndex from
      congrArg Point.index (hb.tree.disk n).2]

end Cluster

end FerrisFerry
