import FerrisFerry.Emit
import FerrisFerry.Log

/-!
# What a call does to the indices

`RaftCore.IndexMove` says what a call does to the commit index, to the index of the last
applied entry and to what a leader knows of its peers. An index that `replicated_index`
picks is reached by half of the cluster at least (`length_le_two_mul_countP`).
-/

namespace FerrisFerry

/-! ## Maps and medians -/

theorem mem_kreplace {k v : ℕ} {x : Σ _ : ℕ, ℕ} {l : List (Σ _ : ℕ, ℕ)}
    (hx : x ∈ l.kreplace k v) : x = ⟨k, v⟩ ∨ x ∈ l := by
  induction l with
  | nil => exact Or.inr hx
  | cons y l ih =>
    rw [List.kreplace] at hx
    by_cases hk : k = y.1
    · rw [List.lookmap_cons_some _ l (if_pos hk)] at hx
      exact (List.mem_cons.mp hx).imp_right (List.mem_cons_of_mem y)
    · rw [List.lookmap_cons_none _ l (if_neg hk)] at hx
      rcases List.mem_cons.mp hx with rfl | hx
      · exact Or.inr List.mem_cons_self
      · exact (ih hx).imp_right (List.mem_cons_of_mem y)

theorem lookup_replace_cases {m : AList fun _ : ℕ => ℕ} {k v j i : ℕ}
    (h : (m.replace k v).lookup j = some i) : j = k ∧ i = v ∨ m.lookup j = some i := by
  rcases mem_kreplace (AList.mem_lookup_iff.mp (Option.mem_def.mpr h)) with h | h
  · cases h
    exact Or.inl ⟨rfl, rfl⟩
  · exact Or.inr (AList.mem_lookup_iff.mpr h)

theorem lookup_insert_cases {β : Type*} {m : AList fun _ : ℕ => β} {k j : ℕ} {v x : β}
    (h : (m.insert k v).lookup j = some x) : j = k ∧ x = v ∨ j ≠ k ∧ m.lookup j = some x := by
  by_cases hj : j = k
  · subst hj
    rw [AList.lookup_insert] at h
    exact Or.inl ⟨rfl, (Option.some.inj h).symm⟩
  · rw [AList.lookup_insert_ne hj] at h
    exact Or.inr ⟨hj, h⟩

theorem mem_kreplace_self {k v i : ℕ} {l : List (Σ _ : ℕ, ℕ)} (h : ⟨k, i⟩ ∈ l) :
    ⟨k, v⟩ ∈ l.kreplace k v := by
  induction l with
  | nil => cases h
  | cons y l ih =>
    rw [List.kreplace]
    by_cases hk : k = y.1
    · rw [List.lookmap_cons_some _ l (if_pos hk)]
      exact List.mem_cons_self
    · rw [List.lookmap_cons_none _ l (if_neg hk)]
      rcases List.mem_cons.mp h with rfl | h
      · exact absurd rfl hk
      · exact List.mem_cons_of_mem y (ih h)

theorem lookup_replace_self {m : AList fun _ : ℕ => ℕ} {k i : ℕ} (h : m.lookup k = some i)
    (v : ℕ) : (m.replace k v).lookup k = some v :=
  AList.mem_lookup_iff.mpr (mem_kreplace_self (AList.mem_lookup_iff.mp h))

theorem lookup_foldl_insert (peers : List ℕ) (m : AList fun _ : ℕ => ℕ) (v j : ℕ) :
    (peers.foldl (fun m id => m.insert id v) m).lookup j =
      if j ∈ peers then some v else m.lookup j := by
  induction peers generalizing m with
  | nil => simp
  | cons p peers ih =>
    rw [List.foldl_cons, ih]
    by_cases hj : j ∈ peers
    · simp [hj]
    · by_cases hp : j = p
      · subst hp
        simp [hj]
      · simp [hj, hp, AList.lookup_insert_ne hp]

/-- At least half of a list is at or above its median. -/
theorem length_le_two_mul_countP {l : List ℕ} {v : ℕ} (hl : l ≠ [])
    (h : v ≤ (l.insertionSort (· ≤ ·)).getD (l.length / 2) 0) :
    l.length ≤ 2 * l.countP fun x => v ≤ x := by
  set s := l.insertionSort (· ≤ ·) with hs
  have hlen : s.length = l.length := List.length_insertionSort _ l
  have hpos : 0 < l.length := List.length_pos_iff.mpr hl
  have hlt : l.length / 2 < s.length := by omega
  have hcount : l.countP (fun x => v ≤ x) = s.countP fun x => v ≤ x :=
    ((List.perm_insertionSort _ l).countP_eq _).symm
  have hsorted : s.Pairwise (· ≤ ·) := List.pairwise_insertionSort _ l
  rw [List.getD_eq_getElem?_getD, List.getElem?_eq_getElem hlt, Option.getD_some] at h
  -- everything from the middle on is at least the median
  have hdrop :
      (s.drop (l.length / 2)).countP (fun x => v ≤ x) = (s.drop (l.length / 2)).length := by
    rw [List.countP_eq_length]
    intro x hx
    obtain ⟨i, hi, rfl⟩ := List.mem_drop_iff_getElem.mp hx
    refine decide_eq_true (h.trans ?_)
    rcases Nat.eq_zero_or_pos i with rfl | hi0
    · exact le_rfl
    · exact List.pairwise_iff_getElem.mp hsorted _ _ hlt (by omega) (by omega)
  have hsub : (s.drop (l.length / 2)).countP (fun x => v ≤ x) ≤ s.countP fun x => v ≤ x :=
    (List.drop_sublist _ s).countP_le
  rw [List.length_drop] at hdrop
  omega

/-! ## Moves -/

namespace RaftCore

variable {core core' : RaftCore} {rnd : ℕ} {request : Request} {actions : List Action}

/-- The indices two cores have in common. -/
structure SameIndices (core core' : RaftCore) : Prop where
  commitIndex : core'.commitIndex = core.commitIndex
  lastApplied : core'.lastApplied = core.lastApplied
  matchIndex : core'.matchIndex = core.matchIndex
  nextIndex : core'.nextIndex = core.nextIndex

/-- What a call does to the indices. -/
inductive IndexMove (core : RaftCore) (rnd : ℕ) : Request → RaftCore → Prop
  | keep {request : Request} {core' : RaftCore} (h : core.SameIndices core')
      (hs : core'.StillLeads core) : IndexMove core rnd request core'
  /-- A new leader knows nothing of its peers. -/
  | reset {request : Request} {core' : RaftCore} (hs' : core'.state = .leader)
      (hc : core'.commitIndex = core.commitIndex) (ha : core'.lastApplied = core.lastApplied)
      (hm : core'.matchIndex = core.peers.foldl (fun m id => m.insert id 0) core.matchIndex)
      (hn : core'.nextIndex =
        core.peers.foldl (fun m id => m.insert id (core.lastLogIndex + 1 + 1)) core.nextIndex) :
    IndexMove core rnd request core'
  /-- A follower commits what the leader has committed, as far as its log reaches. -/
  | follow {req : AppendEntriesRPC} {core' : RaftCore} (hs' : core'.state = .follower)
      (hacc : core.Accepts rnd req core') (hm : core'.matchIndex = core.matchIndex)
      (hn : core'.nextIndex = core.nextIndex)
      (hc : core'.commitIndex = min req.leaderCommit core'.lastLogIndex)
      (ha : core'.lastApplied = core'.commitIndex) :
    IndexMove core rnd (.message (.appendEntries req)) core'
  | install {req : InstallSnapshotRPC} {core' : RaftCore} (hm : core'.matchIndex = core.matchIndex)
      (hn : core'.nextIndex = core.nextIndex) (hc : core'.commitIndex = req.lastIncludedIndex)
      (ha : core'.lastApplied = req.lastIncludedIndex)
      (ht : core'.currentTerm = req.term)
      (hb : core'.tip = ⟨req.lastIncludedIndex, req.lastIncludedTerm⟩)
      (hs' : core'.state = .follower ∨ core'.state = core.state ∧ req.term = core.currentTerm) :
    IndexMove core rnd (.message (.installSnapshot req)) core'
  | record {resp : AppendEntriesResponseRPC} {core' : RaftCore} {recorded : List Action}
      (hs : resp.success = true)
      (hr : (core.termChecked resp.term rnd).Records resp core' recorded) :
    IndexMove core rnd (.message (.appendEntriesResponse resp)) core'
  | backOff {resp : AppendEntriesResponseRPC} (hs : resp.success = false) :
    IndexMove core rnd (.message (.appendEntriesResponse resp))
      ((core.termChecked resp.term rnd).backOff resp)
  | matched {resp : InstallSnapshotResponseRPC} (ht : resp.term ≤ core.currentTerm)
      (hl : core.state = .leader) :
    IndexMove core rnd (.message (.installSnapshotResponse resp))
      (core.recordMatch resp.id resp.lastIncludedIndex)

theorem sameIndices_of_termChecked {t : ℕ}
    (hc : core'.commitIndex = (core.termChecked t rnd).commitIndex)
    (ha : core'.lastApplied = (core.termChecked t rnd).lastApplied)
    (hm : core'.matchIndex = (core.termChecked t rnd).matchIndex)
    (hn : core'.nextIndex = (core.termChecked t rnd).nextIndex) : core.SameIndices core' :=
  ⟨hc.trans (termChecked_commitIndex core t rnd), ha.trans (termChecked_lastApplied core t rnd),
    hm.trans (termChecked_matchIndex core t rnd), hn.trans (termChecked_nextIndex core t rnd)⟩

/-- Every call moves the indices in one of these ways. -/
theorem Outcome.indexMove (h : core.Outcome rnd request core' actions) :
    core.IndexMove rnd request core' := by
  cases h with
  | win => exact .reset rfl rfl rfl rfl rfl
  | @acceptAppend req _ _ ht hl hv ha =>
    obtain ⟨merged, persist, applies, -, hm, hF, -, -⟩ := acceptEntries_spec ha
    have hf := hF.frame
    rw [hm] at hf
    have hmc : merged.commitIndex = core.commitIndex := by
      rw [hm]
      exact termChecked_commitIndex core req.term rnd
    have hma : merged.lastApplied = core.lastApplied := by
      rw [hm]
      exact termChecked_lastApplied core req.term rnd
    have hmi : core'.matchIndex = core.matchIndex := by
      rw [hf]
      exact termChecked_matchIndex core req.term rnd
    have hni : core'.nextIndex = core.nextIndex := by
      rw [hf]
      exact termChecked_nextIndex core req.term rnd
    have hst : core'.state = .follower := by
      rw [hf]
      exact follow_state_of_ne_leader req.leaderId rnd hl
    rcases hF.commit with ⟨-, hc, ha', -⟩ | ⟨-, hc, ha', -⟩
    · exact .keep ⟨hc.trans hmc, ha'.trans hma, hmi, hni⟩ fun h => by simp [hst] at h
    · refine .follow hst ⟨ht, hl, hv, _, ha⟩ hmi hni ?_ ha'
      rw [hc, hm, hf]
      rfl
  | success hs hr => exact .record hs (recordSuccess_spec hr)
  | failure hs hb => exact .backOff hs
  | @installSnapshot req ht hi hh =>
    refine .install (termChecked_matchIndex core _ rnd) (termChecked_nextIndex core _ rnd) rfl rfl
      ((termChecked_currentTerm core _ rnd).trans (max_eq_right ht)) rfl ?_
    rcases Nat.lt_or_ge core.currentTerm req.term with hlt | hge
    · rw [termChecked_of_lt hlt]
      exact Or.inl rfl
    · rw [termChecked_of_le hge]
      by_cases hc : core.state = .candidate
      · exact Or.inl (if_pos hc)
      · exact Or.inr ⟨if_neg hc, by omega⟩
  | recordSnapshotResponse ht hl => exact .matched ht hl
  | barrier =>
    unfold requestReadBarrier
    split_ifs <;> exact .keep ⟨rfl, rfl, rfl, rfl⟩ fun h => ⟨h, rfl⟩
  | compact hp hc =>
    rcases completeSnapshot_spec hp hc with ⟨-, rfl⟩ | ⟨k, -, -, -, -, rfl⟩ <;>
      exact .keep ⟨rfl, rfl, rfl, rfl⟩ fun h => ⟨h, rfl⟩
  | stand => exact .keep ⟨rfl, rfl, rfl, rfl⟩ fun h => by cases h
  | wait | heartbeat | refuse | append | collectVote | staleSnapshot =>
    exact .keep ⟨rfl, rfl, rfl, rfl⟩ fun h => ⟨h, rfl⟩
  | conflictAppend | oldSnapshot | haveSnapshot =>
    exact .keep (sameIndices_of_termChecked rfl rfl rfl rfl)
      (stillLeads_of_termChecked rfl leader_of_follow)
  | denyVote | grantVote | ignoreVote | rejectAppend | ignoreSnapshotResponse =>
    exact .keep (sameIndices_of_termChecked rfl rfl rfl rfl)
      (stillLeads_of_termChecked rfl fun h => h)

/-- A call leaves everything committed applied. -/
theorem Outcome.lastApplied_eq (h : core.Outcome rnd request core' actions)
    (happ : core.lastApplied = core.commitIndex) : core'.lastApplied = core'.commitIndex := by
  cases h.indexMove with
  | keep h => rw [h.lastApplied, h.commitIndex, happ]
  | reset _ hc ha => rw [ha, hc, happ]
  | follow _ _ _ _ _ ha => exact ha
  | install _ _ hc ha => rw [ha, hc]
  | record _ hr => exact congrArg lastApplied hr.frame
  | backOff =>
    exact (termChecked_lastApplied _ _ _).trans (happ.trans (termChecked_commitIndex _ _ _).symm)
  | matched => exact happ

end RaftCore

end FerrisFerry
