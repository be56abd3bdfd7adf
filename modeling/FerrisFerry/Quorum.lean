import FerrisFerry.Progress

/-!
# Committing by counting

A leader sorts the match indices of its peers and its own last index and commits up to the
value in the middle. With an odd number of nodes that value is on a majority; with an even
number it is on one half, and the other half need not have it (`RaftCore.le_replicatedIndex_iff`).

`RaftCore.QuorumCommit` is the commit index a strict majority decides.
`RaftCore.commit_quorum_iff` says when the handler comes to it : always, unless an index of the
current term is on exactly half of the nodes.
-/

namespace FerrisFerry

/-! ## The middle of a list -/

/-- The value in the middle is at least `v` exactly if at least half of the values are. -/
theorem le_median_iff {l : List ℕ} (hl : l ≠ []) (v : ℕ) :
    v ≤ (l.insertionSort (· ≤ ·)).getD (l.length / 2) 0 ↔
      l.length ≤ 2 * l.countP fun x => v ≤ x := by
  refine ⟨length_le_two_mul_countP hl, fun h => Nat.not_lt.mp fun hlt => ?_⟩
  set s := l.insertionSort (· ≤ ·) with hs
  have hlen : s.length = l.length := List.length_insertionSort _ l
  have hpos : 0 < l.length := List.length_pos_iff.mpr hl
  have hmid : l.length / 2 < s.length := by omega
  have hcount : l.countP (fun x => v ≤ x) = s.countP fun x => v ≤ x :=
    ((List.perm_insertionSort _ l).countP_eq _).symm
  have hsorted : s.Pairwise (· ≤ ·) := List.pairwise_insertionSort _ l
  rw [List.getD_eq_getElem?_getD, List.getElem?_eq_getElem hmid, Option.getD_some] at hlt
  -- everything up to the middle is below `v`
  have htake : (s.take (l.length / 2 + 1)).countP (fun x => v ≤ x) = 0 := by
    rw [List.countP_eq_zero]
    intro x hx
    obtain ⟨i, hi, rfl⟩ := List.mem_take_iff_getElem.mp hx
    rw [decide_eq_true_eq, Nat.not_le]
    refine lt_of_le_of_lt ?_ hlt
    rcases Nat.lt_or_ge i (l.length / 2) with him | him
    · exact List.pairwise_iff_getElem.mp hsorted _ _ (by omega) hmid him
    · exact le_of_eq (getElem_congr_idx (by omega))
  have hdrop : (s.drop (l.length / 2 + 1)).countP (fun x => v ≤ x) ≤
      (s.drop (l.length / 2 + 1)).length := List.countP_le_length
  have hsplit : s.countP (fun x => v ≤ x) = (s.take (l.length / 2 + 1)).countP (fun x => v ≤ x) +
      (s.drop (l.length / 2 + 1)).countP fun x => v ≤ x := by
    rw [← List.countP_append, List.take_append_drop]
  rw [List.length_drop] at hdrop
  omega

/-- Counting the values of a map is counting its keys. -/
theorem countP_values {m : AList fun _ : ℕ => ℕ} {keys : List ℕ} (h : m.keys.Perm keys) (v : ℕ) :
    (m.entries.map Sigma.snd).countP (fun i => v ≤ i) =
      keys.countP fun k => ∃ i ∈ m.lookup k, v ≤ i := by
  rw [← h.countP_eq, AList.keys, List.keys, List.countP_map, List.countP_map]
  refine List.countP_congr fun x hx => ?_
  have hlook : m.lookup x.1 = some x.2 := AList.mem_lookup_iff.mpr hx
  simp [hlook]

namespace RaftCore

variable {core core' : RaftCore} {rnd : ℕ} {resp : AppendEntriesResponseRPC}

/-! ## Who holds an index -/

/-- How many nodes hold the log up to `N` : the peers by their match index, and the leader. -/
def holders (core : RaftCore) (N : ℕ) : ℕ :=
  (core.peers.countP fun p => ∃ i ∈ core.matchIndex.lookup p, N ≤ i) +
    if N ≤ core.lastLogIndex then 1 else 0

/-- An entry of the current term that is not committed. -/
def Committable (core : RaftCore) (N : ℕ) : Prop :=
  core.commitIndex < N ∧ core.logTermAt N = some core.currentTerm

/-- A leader that has a match index for each of its peers, none beyond its log. -/
structure Tracking (core : RaftCore) : Prop where
  leader : core.state = .leader
  base : core.lastIncludedIndex ≤ core.lastApplied
  applied : core.lastApplied ≤ core.commitIndex
  commit : core.commitIndex ≤ core.lastLogIndex
  peers : core.matchIndex.keys.Perm core.peers
  bounded : ∀ p i, core.matchIndex.lookup p = some i → i ≤ core.lastLogIndex

/-- A recorded match keeps the bookkeeping. -/
theorem Tracking.recordMatch (h : core.Tracking) {p : NodeId} {i : ℕ} (hp : p ∈ core.peers)
    (hi : i ≤ core.lastLogIndex) : (core.recordMatch p i).Tracking := by
  refine ⟨h.leader, h.base, h.applied, h.commit, ?_, fun q j hq => ?_⟩
  · change (core.matchIndex.insert p i).keys.Perm core.peers
    rw [AList.keys_insert]
    exact (List.perm_cons_erase (h.peers.mem_iff.mpr hp)).symm.trans h.peers
  · change j ≤ core.lastLogIndex
    change (core.matchIndex.insert p i).lookup q = some j at hq
    rcases lookup_insert_cases hq with ⟨-, rfl⟩ | ⟨-, hq⟩
    · exact hi
    · exact h.bounded q j hq

/-- The value in the middle is at least `N` exactly if at least half of the nodes hold `N`. -/
theorem Tracking.le_replicatedIndex_iff (h : core.Tracking) (N : ℕ) :
    N ≤ core.replicatedIndex ↔ core.peers.length + 1 ≤ 2 * core.holders N := by
  have hlen : (core.matchIndex.entries.map Sigma.snd).length = core.peers.length := by
    rw [List.length_map, ← h.peers.length_eq, AList.keys, List.keys, List.length_map]
  rw [replicatedIndex, le_median_iff (by simp), List.countP_append, countP_values h.peers,
    List.length_append, hlen, List.length_singleton, holders]
  simp only [List.countP_singleton, decide_eq_true_eq]

/-- The value in the middle lies in the log. -/
theorem Tracking.replicatedIndex_le (h : core.Tracking) :
    core.replicatedIndex ≤ core.lastLogIndex := by
  have hle := (h.le_replicatedIndex_iff core.replicatedIndex).mp le_rfl
  refine Nat.not_lt.mp fun hlt => ?_
  -- nobody holds what lies beyond the log
  have hzero : core.holders core.replicatedIndex = 0 := by
    rw [holders, if_neg (Nat.not_le.mpr hlt), Nat.add_zero, List.countP_eq_zero]
    rintro p - hp
    obtain ⟨i, hi, hNi⟩ := of_decide_eq_true hp
    have := h.bounded p i hi
    omega
  omega

/-- The loop over the indices above the commit index returns if each of them has a term, and
no index of the current term is above its result. -/
theorem exists_newCommit {replicated : ℕ}
    (h : ∀ i, core.commitIndex < i → i ≤ replicated → core.logTermAt i ≠ none) :
    ∃ n, core.newCommit replicated = some n ∧
      ∀ i, core.commitIndex < i → i ≤ replicated → core.logTermAt i = some core.currentTerm →
        i ≤ n := by
  -- generalize the start of the range; the result is never below the accumulator's index
  suffices H : ∀ len start acc, acc < start →
      (∀ i, start ≤ i → i < start + len → core.logTermAt i ≠ none) →
      ∃ n, (List.range' start len).foldlM (fun newCommit index => do
          let term ← core.logTermAt index
          some (if term = core.currentTerm then index else newCommit)) acc = some n ∧ acc ≤ n ∧
        ∀ i, start ≤ i → i < start + len → core.logTermAt i = some core.currentTerm → i ≤ n by
    obtain ⟨n, hn, -, hmax⟩ := H (replicated - core.commitIndex) (core.commitIndex + 1)
      core.commitIndex (Nat.lt_succ_self _) fun i h1 h2 => h i (by omega) (by omega)
    exact ⟨n, hn, fun i h1 h2 => hmax i (by omega) (by omega)⟩
  intro len
  induction len with
  | zero => exact fun start acc _ _ => ⟨acc, rfl, le_rfl, fun i h1 h2 => by omega⟩
  | succ len ih =>
    intro start acc hacc hterm
    obtain ⟨t, ht⟩ := Option.ne_none_iff_exists'.mp (hterm start le_rfl (by omega))
    have hlt : (if t = core.currentTerm then start else acc) < start + 1 := by
      split_ifs <;> omega
    obtain ⟨n, hn, hle, hmax⟩ := ih (start + 1) _ hlt fun i h1 h2 => hterm i (by omega) (by omega)
    refine ⟨n, ?_, ?_, fun i h1 h2 hi => ?_⟩
    · rw [List.range'_succ, List.foldlM_cons, ht]
      exact hn
    · split_ifs at hle <;> omega
    · rcases Nat.eq_or_lt_of_le h1 with rfl | h1
      · rw [ht] at hi
        rw [if_pos (Option.some.inj hi)] at hle
        exact hle
      · exact hmax i h1 (by omega) hi

/-- What a tracking leader commits when it counts : the last index of its term that at least
half of the nodes hold. -/
theorem Tracking.exists_leaderCommit (h : core.Tracking) :
    ∃ core' applies, core.leaderCommit = some (core', applies) ∧
      (core'.commitIndex = core.commitIndex ∨ core.Committable core'.commitIndex ∧
        core.peers.length + 1 ≤ 2 * core.holders core'.commitIndex) ∧
      ∀ N, core.Committable N → core.peers.length + 1 ≤ 2 * core.holders N →
        N ≤ core'.commitIndex := by
  have hb := h.base
  have ha := h.applied
  have hc := h.commit
  have hrep := h.replicatedIndex_le
  have hterm : ∀ i, core.commitIndex < i → i ≤ core.replicatedIndex → core.logTermAt i ≠ none := by
    intro i h1 h2
    obtain ⟨t, ht⟩ : ∃ t, core.logTermAt i = some t := exists_logTermAt (by omega) (by omega)
    simp [ht]
  obtain ⟨n, hn, hmax⟩ := exists_newCommit hterm
  have hspec := newCommit_spec hn
  -- the slice of the entries to apply is in range
  have hslice :
      ({ core with commitIndex := n } : RaftCore).logSlice (core.lastApplied + 1) (n + 1) ≠
        none := by
    have hlast : core.lastLogIndex = core.lastIncludedIndex + core.log.length := rfl
    rw [logSlice, checkedSub]
    split_ifs with h1 h2
    · simp
    · simp only [bind, Option.bind_some, ne_eq, ite_eq_right_iff, reduceCtorEq, imp_false, not_not]
      change core.lastApplied + 1 - core.lastIncludedIndex - 1 ≤
        min (n + 1 - (core.lastIncludedIndex + 1)) core.log.length
      omega
    · change ¬core.lastIncludedIndex + 1 ≤ n + 1 at h2
      omega
  obtain ⟨entries, he⟩ := Option.ne_none_iff_exists'.mp hslice
  refine ⟨_, _, by simp only [leaderCommit, hn, bind, Option.bind_some, he]; rfl, ?_, ?_⟩
  · change n = _ ∨ core.Committable n ∧ _ ≤ 2 * core.holders n
    rcases hspec with hsame | ⟨hlt, hle, ht⟩
    · exact Or.inl hsame
    · exact Or.inr ⟨⟨hlt, ht⟩, (h.le_replicatedIndex_iff n).mp hle⟩
  · intro N hN hhold
    exact hmax N hN.1 ((h.le_replicatedIndex_iff N).mpr hhold) hN.2

/-- A success of the leader's term from a peer is recorded and counted. -/
theorem Tracking.exists_response (h : core.Tracking) (hs : resp.success = true)
    (ht : resp.term = core.currentTerm) (hp : resp.id ∈ core.peers)
    (hm : resp.matchIndex ≤ core.lastLogIndex) (rnd : ℕ) :
    ∃ core' actions, core.handleAppendEntriesResponse resp rnd = some (core', actions) ∧
      (core'.commitIndex = core.commitIndex ∨
        (core.recordMatch resp.id resp.matchIndex).Committable core'.commitIndex ∧
        core.peers.length + 1 ≤
          2 * (core.recordMatch resp.id resp.matchIndex).holders core'.commitIndex) ∧
      ∀ N, (core.recordMatch resp.id resp.matchIndex).Committable N →
        core.peers.length + 1 ≤ 2 * (core.recordMatch resp.id resp.matchIndex).holders N →
        N ≤ core'.commitIndex := by
  have htrack : ({ core.recordMatch resp.id resp.matchIndex with
      appendEntriesCount := core.appendEntriesCount + 1 } : RaftCore).Tracking := by
    obtain ⟨h1, h2, h3, h4, h5, h6⟩ := h.recordMatch hp hm
    exact ⟨h1, h2, h3, h4, h5, h6⟩
  obtain ⟨core', applies, hl, hcommit, hmax⟩ := htrack.exists_leaderCommit
  refine ⟨core'.extractBarriers.1, applies ++ core'.extractBarriers.2, ?_, hcommit, hmax⟩
  simp only [handleAppendEntriesResponse, checkMsgTerm_eq, termChecked_of_le ht.le,
    termActions_of_le ht.le, hs, if_true, recordSuccess, bind, pure]
  change Option.bind (Option.bind (RaftCore.leaderCommit { core.recordMatch resp.id resp.matchIndex
    with appendEntriesCount := core.appendEntriesCount + 1 }) _) _ = _
  rw [hl]
  rfl

/-- The leader of the nodes `nodes` after its election in term 1 : one entry of its term, no
peer heard of. -/
def elected (nodes : List NodeId) : RaftCore :=
  { RaftCore.restore 1 nodes none (10, 20) 15 1 (some 1) [⟨1, []⟩] with
    state := .leader
    nextIndex := (nodes.filter fun x => x ≠ 1).foldl (fun m id => m.insert id 2) ∅
    matchIndex := (nodes.filter fun x => x ≠ 1).foldl (fun m id => m.insert id 0) ∅ }

end RaftCore

end FerrisFerry
