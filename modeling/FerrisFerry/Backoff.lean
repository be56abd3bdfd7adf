import FerrisFerry.AppendOnly
import FerrisFerry.Links
import FerrisFerry.TermOrder

/-!
# The back-off of the next index

What a leader sends to a follower whose log may differ from its own, and what becomes of it :
a rejection moves the next index back over one term of the follower's log
(`RaftCore.retreat`), and a request that starts where the logs agree makes them agree
(`RaftCore.Repairable.accept`).

The follower has no terms inside its snapshot. `RaftCore.Overshoots` is when the back-off will
run into it; it is kept by a rejection, and so is its contrary.
-/

namespace FerrisFerry

/-! ## Two logs -/

namespace RaftCore

variable {core : RaftCore}

/-- Above both snapshots `f` has the entries of `l`. -/
def Agrees (l f : RaftCore) : Prop :=
  ∀ i, l.lastIncludedIndex < i → f.lastIncludedIndex < i → i ≤ l.lastLogIndex →
    f.logEntryAt i = l.logEntryAt i

/-- Log matching for logs with snapshots : two entries of one index and term are equal, and so
are all before them that both logs hold. -/
def Matches (l f : RaftCore) : Prop :=
  ∀ i e e', l.logEntryAt i = some e → f.logEntryAt i = some e' → e.term = e'.term →
    ∀ j ≤ i, ∀ a b, l.logEntryAt j = some a → f.logEntryAt j = some b → a = b

/-- Entries have terms from 1 to the node's, in order from the snapshot on; the term of the
snapshot is 0 if there is none. -/
structure WellTermed (core : RaftCore) : Prop where
  ordered : TermsOrdered core.lastIncludedTerm core.log core.currentTerm
  pos : ∀ e ∈ core.log, 1 ≤ e.term
  root : core.lastIncludedIndex = 0 ↔ core.lastIncludedTerm = 0

/-- A leader and a follower of its term, whose logs match and agree as far as the follower has
committed. -/
structure Repairable (disk : Mirror) (l f : RaftCore) : Prop where
  leader : l.state = .leader
  follower : f.state = .follower
  term : f.currentTerm = l.currentTerm
  leaderTerms : l.WellTermed
  followerTerms : f.WellTermed
  /-- The last entry of the leader is one of its term. -/
  last : 1 ≤ l.lastLogIndex ∧ l.lastLogTerm = some l.currentTerm
  logs : l.Matches f
  snapshot : l.lastIncludedIndex ≤ f.lastIncludedIndex →
    l.logTermAt f.lastIncludedIndex = some f.lastIncludedTerm
  committed : ∀ i, f.lastIncludedIndex < i → i ≤ f.commitIndex →
    ∃ e, f.logEntryAt i = some e ∧ (l.lastIncludedIndex < i → l.logEntryAt i = some e) ∧
      (i = l.lastIncludedIndex → e.term = l.lastIncludedTerm)
  /-- A leader that has compacted its log has the snapshot on disk. -/
  stored : 0 < l.lastIncludedIndex → disk.snapshot.isSome

variable {l f : RaftCore} {disk : Mirror} {next i j p t : ℕ}

/-! ## Terms and entries -/

/-- Where two matching logs have one term at an index, they have the same entries up to it. -/
theorem Matches.entry_eq (h : l.Matches f) (hl : l.lastIncludedIndex < i)
    (hf : f.lastIncludedIndex < i) (hle : i ≤ p) (hlt : l.logTermAt p = some t)
    (hft : f.logTermAt p = some t) : f.logEntryAt i = l.logEntryAt i := by
  obtain ⟨e, he, rfl⟩ := logEntryAt_of_logTermAt (hl.trans_le hle) hlt
  obtain ⟨e', he', ht⟩ := logEntryAt_of_logTermAt (hf.trans_le hle) hft
  obtain ⟨a, ha⟩ := exists_logEntryAt hl (hle.trans (logTermAt_eq_some.mp hlt).2.1)
  obtain ⟨b, hb⟩ := exists_logEntryAt hf (hle.trans (logTermAt_eq_some.mp hft).2.1)
  rw [ha, hb, h p e e' he he' ht.symm i hle a b ha hb]

theorem Agrees.congr {f' : RaftCore} (h : l.Agrees f') (hb : f'.base = f.base)
    (hl : f'.log = f.log) : l.Agrees f := by
  intro i hi hf hle
  rw [← logEntryAt_congr hb hl]
  exact h i hi ((congrArg Point.index hb).trans_lt hf) hle

theorem WellTermed.one_le (h : core.WellTermed) (hlo : core.lastIncludedIndex < i)
    (ht : core.logTermAt i = some t) : 1 ≤ t := by
  obtain ⟨e, he, rfl⟩ := logEntryAt_of_logTermAt hlo ht
  obtain ⟨k, hk, -, rfl⟩ := logEntryAt_eq_some.mp he
  exact h.pos _ (List.getElem_mem hk)

theorem conflictingIndex_succ (core : RaftCore) (p t : ℕ) :
    core.conflictingIndex (p + 1) t =
      if (core.logTermAt p).getD 0 ≠ t then some (p + 1) else core.conflictingIndex p t := by
  unfold conflictingIndex
  rw [List.range_succ, List.reverse_append, List.reverse_singleton, List.singleton_append,
    List.find?_cons]
  split_ifs with h
  · simp [h]
  · rw [ne_eq, not_not] at h
    simp [h]

theorem conflictingIndex_le (core : RaftCore) (p t : ℕ) :
    (core.conflictingIndex p t).getD 0 ≤ p := by
  induction p with
  | zero => exact le_rfl
  | succ p ih =>
    rw [conflictingIndex_succ]
    split_ifs
    · exact le_rfl
    · exact ih.trans (Nat.le_succ p)

/-- It stops behind one of another term. -/
theorem lt_conflictingIndex (hj : j < p) (h : (core.logTermAt j).getD 0 ≠ t) :
    j < (core.conflictingIndex p t).getD 0 := by
  induction p with
  | zero => exact absurd hj (Nat.not_lt_zero j)
  | succ p ih =>
    rw [conflictingIndex_succ]
    split_ifs with hp
    · exact hj
    · refine ih (lt_of_le_of_ne (Nat.le_of_lt_succ hj) ?_)
      rintro rfl
      exact hp h

/-- Where the leader goes back to when the follower rejects the previous index `p`. -/
def retreat (f : RaftCore) (p : ℕ) : ℕ :=
  if f.lastLogIndex < p then f.lastLogIndex + 1
  else (f.conflictingIndex p ((f.logTermAt p).getD 0)).getD 0

theorem conflictResponse_retreat (req : AppendEntriesRPC) (resp : AppendEntriesResponseRPC) :
    (f.conflictResponse req resp).firstConflictingIndex.getD 0 = f.retreat req.prevLogIndex := by
  unfold conflictResponse retreat
  split_ifs <;> rfl

theorem retreat_le (f : RaftCore) (p : ℕ) : f.retreat p ≤ p := by
  unfold retreat
  split_ifs with h
  · exact h
  · exact conflictingIndex_le f p _

theorem lt_retreat (hj : j < p) (hlast : j ≤ f.lastLogIndex)
    (h : p ≤ f.lastLogIndex → (f.logTermAt j).getD 0 ≠ (f.logTermAt p).getD 0) :
    j < f.retreat p := by
  unfold retreat
  split_ifs with hp
  · exact Nat.lt_succ_of_le hlast
  · exact lt_conflictingIndex hj (h (Nat.not_lt.mp hp))

section build

variable {peer : NodeId} (hn : l.nextIndex.lookup peer = some next)

include hn

theorem build_entries (hlo : l.lastIncludedIndex < next) (hhi : next ≤ l.lastLogIndex + 1)
    (ht : l.logTermAt (next - 1) = some t) :
    l.buildAppendEntriesForPeer peer = some (.sendMessage peer (.appendEntries
      (l.requestFrom ⟨next - 1, t⟩ (l.log.drop (next - l.lastIncludedIndex - 1))))) := by
  simp only [buildAppendEntriesForPeer, hn, Option.getD_some, ht, logSlice_end hlo hhi, bind,
    Option.bind_some]
  rfl

theorem build_empty (h0 : next = 0) (hl : l.lastIncludedIndex = 0) :
    l.buildAppendEntriesForPeer peer = some (.sendMessage peer (.appendEntries
      (l.requestFrom ⟨0, l.lastIncludedTerm⟩ []))) := by
  have ht : l.logTermAt 0 = some l.lastIncludedTerm := hl ▸ logTermAt_base l
  have hs : l.logSlice 0 (l.lastLogIndex + 1) = some [] := if_pos (Nat.zero_le _)
  subst h0
  simp only [buildAppendEntriesForPeer, hn, Option.getD_some, Nat.zero_sub, ht, hs, bind,
    Option.bind_some]
  rfl

theorem build_snapshot (h : next - 1 < l.lastIncludedIndex) :
    l.buildAppendEntriesForPeer peer = some (l.installSnapshotForPeer peer) := by
  have ht : l.logTermAt (next - 1) = none := if_pos h
  simp only [buildAppendEntriesForPeer, hn, Option.getD_some, ht]

/-- Up to one past the log there is always something to send. -/
theorem exists_build (hhi : next ≤ l.lastLogIndex + 1) :
    ∃ a, l.buildAppendEntriesForPeer peer = some a := by
  rcases Nat.lt_or_ge (next - 1) l.lastIncludedIndex with h | h
  · exact ⟨_, build_snapshot hn h⟩
  · rcases Nat.eq_zero_or_pos next with h0 | h0
    · exact ⟨_, build_empty hn h0 (by omega)⟩
    · obtain ⟨t, ht⟩ := exists_logTermAt h (by omega)
      exact ⟨_, build_entries hn (by omega) hhi ht⟩

end build

/-- A follower and a request of its term. -/
theorem handleAppendEntries_of_follower {req : AppendEntriesRPC} {rnd : ℕ}
    (hs : f.state = .follower) (ht : req.term = f.currentTerm) :
    f.handleAppendEntries req rnd =
      if f.appendEntriesValid req then (f.follow req.leaderId rnd).acceptEntries req
      else some (f.follow req.leaderId rnd, [.sendMessage req.leaderId (.appendEntriesResponse
        ((f.follow req.leaderId rnd).conflictResponse req f.rejection))]) := by
  have hrej : ¬(f.state = .leader ∨ req.term < f.currentTerm) := by
    rintro (hl | hlt)
    · rw [hs] at hl
      cases hl
    · omega
  rw [handleAppendEntries_eq, termChecked_of_le ht.le, termActions_of_le ht.le, if_neg hrej]
  split_ifs
  · exact Option.map_id'
  · rfl

/-- A failure of the leader's term moves the next index. -/
theorem handleAppendEntriesResponse_of_failure {resp : AppendEntriesResponseRPC} (rnd : ℕ)
    (ht : resp.term ≤ l.currentTerm) (hs : resp.success = false)
    (hn : (l.backOff resp).nextIndex.lookup resp.id = some next)
    (hhi : next ≤ l.lastLogIndex + 1) :
    ∃ actions, l.handleAppendEntriesResponse resp rnd = some (l.backOff resp, actions) := by
  obtain ⟨a, ha⟩ := exists_build hn hhi
  refine ⟨l.termActions resp.term ++ [a], ?_⟩
  simp only [handleAppendEntriesResponse, checkMsgTerm_eq, termChecked_of_le ht, hs, pure, bind]
  change Option.bind ((l.backOff resp).buildAppendEntriesForPeer resp.id) _ = _
  rw [ha]
  rfl

theorem handleInstallSnapshotResponse_of_leader {resp : InstallSnapshotResponseRPC} {rnd : ℕ}
    (hl : l.state = .leader) (ht : resp.term ≤ l.currentTerm) :
    l.handleInstallSnapshotResponse resp rnd =
      (l.recordMatch resp.id resp.lastIncludedIndex, l.termActions resp.term) := by
  simp only [handleInstallSnapshotResponse, checkMsgTerm_eq, termChecked_of_le ht]
  rw [if_neg (not_not.mpr hl)]
  rfl

/-- The entries after index `p` of a log. -/
theorem getElem?_drop_log (hlo : core.lastIncludedIndex ≤ p) (k : ℕ) :
    (core.log.drop (p - core.lastIncludedIndex))[k]? = core.logEntryAt (p + 1 + k) := by
  rw [logEntryAt, if_neg (by omega), List.getElem?_drop,
    show p + 1 + k - core.lastIncludedIndex - 1 = p - core.lastIncludedIndex + k by omega]

section merge

variable {f' : RaftCore} (hlo : l.lastIncludedIndex ≤ p) (hp : p ≤ f.lastLogIndex)
  (hme : f.mergeEntries (p + 1) (l.log.drop (p - l.lastIncludedIndex)) = some f')

include hlo hp hme

/-- Merged with all that the leader has behind an index they agree on, the log is the
leader's. -/
theorem Matches.agrees_of_merge (h : l.Matches f) (ht : l.logTermAt p = some t)
    (hv : p = 0 ∨ f.logTermAt p = some t) : l.Agrees f' := by
  -- an entry the follower keeps lies up to `p`, or has the leader's term
  have hkeep : ∀ n, l.lastIncludedIndex < n → f.lastIncludedIndex < n → n ≤ l.lastLogIndex →
      (p < n → f.logTermAt n = l.logTermAt n) → f.logEntryAt n = l.logEntryAt n := by
    intro n hl hf hn hterm
    rcases Nat.lt_or_ge p n with hlt | hge
    · obtain ⟨u, hu⟩ := exists_logTermAt hl.le hn
      exact h.entry_eq hl hf le_rfl hu ((hterm hlt).trans hu)
    · exact h.entry_eq hl hf hge ht (hv.resolve_left (by omega))
  have hsent : ∀ n, p < n → n ≤ l.lastLogIndex →
      ∃ e, (l.log.drop (p - l.lastIncludedIndex))[n - p - 1]? = some e ∧
        l.logTermAt n = some e.term := by
    intro n hlt hn
    obtain ⟨e, he⟩ := exists_logEntryAt (hlo.trans_lt hlt) hn
    refine ⟨e, ?_, logTermAt_of_logEntryAt he⟩
    rw [getElem?_drop_log hlo, show p + 1 + (n - p - 1) = n by omega, he]
  intro n hl hf hn
  rcases mergeEntries_cases _ hme (by omega) with ⟨rfl, hall⟩ | ⟨k, -, -, -, hall, hcut, hend, hc⟩
  · refine hkeep n hl hf hn fun hlt => ?_
    obtain ⟨e, he, hterm⟩ := hsent n hlt hn
    rw [hterm, ← hall _ e he, show p + 1 + (n - p - 1) = n by omega]
  · have hb : f'.lastIncludedIndex = f.lastIncludedIndex := by rw [hc]
    rw [logEntryAt_cut hcut hend hb (congrArg RaftCore.log hc)]
    rw [hb] at hf
    split_ifs with hk
    · refine hkeep n hl hf hn fun hlt => ?_
      obtain ⟨e, he, hterm⟩ := hsent n hlt hn
      rw [hterm, ← hall _ (by omega) e he, show p + 1 + (n - p - 1) = n by omega]
    · rw [List.getElem?_drop, getElem?_drop_log hlo,
        show p + 1 + (k + (n - (p + 1 + k))) = n by omega]

theorem le_last_of_merge : l.lastLogIndex ≤ f'.lastLogIndex := by
  have hlen : (l.log.drop (p - l.lastIncludedIndex)).length = l.lastLogIndex - p := by
    rw [List.length_drop, lastLogIndex]
    omega
  rcases mergeEntries_last _ hme (by omega) with ⟨hlast, hall⟩ | ⟨hlast, -⟩
  · rcases Nat.lt_or_ge p l.lastLogIndex with hlt | hge
    · -- the last entry sent is already there
      have hk : l.lastLogIndex - p - 1 < (l.log.drop (p - l.lastIncludedIndex)).length := by omega
      have := (logTermAt_eq_some.mp (hall _ _ (List.getElem?_eq_getElem hk))).2.1
      omega
    · omega
  · omega

end merge

namespace Repairable

theorem follow (h : Repairable disk l f) (leaderId : NodeId) (rnd : ℕ) :
    Repairable disk l (f.follow leaderId rnd) where
  leader := h.leader
  follower := by simp [RaftCore.follow, h.follower]
  term := h.term
  leaderTerms := h.leaderTerms
  followerTerms := ⟨h.followerTerms.ordered, h.followerTerms.pos, h.followerTerms.root⟩
  last := h.last
  logs := h.logs
  snapshot := h.snapshot
  committed := h.committed
  stored := h.stored

/-- A follower with nothing but the leader's snapshot. -/
theorem install (h : Repairable disk l f) {req : InstallSnapshotRPC}
    (hi : req.lastIncludedIndex = l.lastIncludedIndex)
    (ht : req.lastIncludedTerm = l.lastIncludedTerm) : Repairable disk l (f.install req) where
  leader := h.leader
  follower := h.follower
  term := h.term
  leaderTerms := h.leaderTerms
  followerTerms := by
    refine ⟨⟨List.pairwise_singleton _ _, fun u hu => ?_⟩, nofun, ?_⟩
    · rw [List.mem_singleton.mp hu]
      change req.lastIncludedTerm ≤ f.currentTerm
      rw [ht, h.term]
      exact h.leaderTerms.ordered.bounded _ List.mem_cons_self
    · change req.lastIncludedIndex = 0 ↔ req.lastIncludedTerm = 0
      rw [hi, ht]
      exact h.leaderTerms.root
  last := h.last
  logs := by
    intro i e e' _ he'
    obtain ⟨k, hk, -⟩ := logEntryAt_eq_some.mp he'
    exact absurd hk (Nat.not_lt_zero k)
  snapshot := by
    intro _
    change l.logTermAt req.lastIncludedIndex = some req.lastIncludedTerm
    rw [hi, ht]
    exact logTermAt_base l
  committed := fun i hlo hhi => absurd hlo (Nat.not_lt.mpr hhi)
  stored := h.stored

/-- The follower has committed no further than the leader's log goes. -/
theorem commit_le (h : Repairable disk l f) : f.commitIndex ≤ l.lastLogIndex := by
  have hbase : l.lastIncludedIndex ≤ l.lastLogIndex := Nat.le_add_right _ _
  rcases Nat.lt_or_ge l.lastIncludedIndex f.commitIndex with hl | hl
  · rcases Nat.lt_or_ge f.lastIncludedIndex f.commitIndex with hf | hf
    · obtain ⟨e, -, he, -⟩ := h.committed _ hf le_rfl
      exact (logTermAt_eq_some.mp (logTermAt_of_logEntryAt (he hl))).2.1
    · exact hf.trans (logTermAt_eq_some.mp (h.snapshot (hl.le.trans hf))).2.1
  · exact hl.trans hbase

/-- A request that starts where the logs agree is taken, and then they agree. -/
theorem accept (h : Repairable disk l f) (hlo : l.lastIncludedIndex ≤ p) (hp : p ≤ f.lastLogIndex)
    (hf : f.lastIncludedIndex ≤ p + 1) (ht : l.logTermAt p = some t)
    (hv : p = 0 ∨ f.logTermAt p = some t) :
    ∃ f' actions, f.acceptEntries (l.requestFrom ⟨p, t⟩ (l.log.drop (p - l.lastIncludedIndex))) =
      some (f', actions) ∧ l.Agrees f' := by
  -- at the end of the follower's snapshot the request has the snapshot's term
  have hmerge : f.mergeEntries (p + 1) (l.log.drop (p - l.lastIncludedIndex)) ≠ none := by
    rw [ne_eq, mergeEntries_eq_none_iff]
    rintro ⟨hle, e, he, hne⟩
    have hfp : f.lastIncludedIndex = p + 1 := le_antisymm hf hle
    have hentry : l.logEntryAt (p + 1) = some e := by
      rw [← he, List.head?_eq_getElem?, getElem?_drop_log hlo]
    have hterm := logTermAt_of_logEntryAt hentry
    rw [← hfp, h.snapshot (by omega)] at hterm
    rw [← hfp, logTermAt_base] at hne
    exact hne hterm
  obtain ⟨merged, hme⟩ := Option.ne_none_iff_exists'.mp hmerge
  have hlast := le_last_of_merge hlo hp hme
  have hframe := mergeEntries_frame _ hme
  have hpersist : merged.persistMerged
      (l.requestFrom ⟨p, t⟩ (l.log.drop (p - l.lastIncludedIndex))) ≠ none :=
    persistMerged_ne_none ((logTermAt_eq_some.mp ht).2.1.trans hlast)
  have hcommit : merged.followCommit l.commitIndex ≠ none := by
    rw [ne_eq, followCommit_eq_none_iff]
    rintro ⟨-, hlt⟩
    have hm : merged.commitIndex = f.commitIndex := by rw [hframe]
    exact Nat.not_lt.mpr (h.commit_le.trans hlast) (hm ▸ hlt)
  obtain ⟨persist, hper⟩ := Option.ne_none_iff_exists'.mp hpersist
  obtain ⟨⟨f', applies⟩, hfc⟩ := Option.ne_none_iff_exists'.mp hcommit
  have hagree := h.logs.agrees_of_merge hlo hp hme ht hv
  refine ⟨f', persist ++ applies ++
    [.sendMessage l.id (.appendEntriesResponse f'.acceptance)], ?_, ?_⟩
  · rw [requestFrom] at hper
    simp only [acceptEntries, requestFrom, bind, hme, Option.bind_some, hper, hfc]
    rfl
  · rw [(followCommit_spec hfc).frame]
    exact hagree

end Repairable

end RaftCore

end FerrisFerry
