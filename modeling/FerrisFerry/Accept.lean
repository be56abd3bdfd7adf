import FerrisFerry.Backoff
import FerrisFerry.Links

/-!
# Requests that are accepted

What `handle_append_entries` does when it answers with a success. The request's entries are
compared with the log from `prev_log_index + 1` on, up to the first that is not there
(`RaftCore.Diverges`). `RaftCore.merge_of_success` gives the log after the call and says that
the request is idempotent : the same request once more changes neither the log nor the commit
index and applies nothing.

The commit index goes up to the end of the log, not to the end of the request. So a request
can commit entries it says nothing about; `RaftCore.commits_verified_iff` says when.
-/

namespace FerrisFerry

namespace RaftCore

variable {core core' : RaftCore} {rnd : ℕ} {req : AppendEntriesRPC} {actions : List Action}

/-- The sender is told that its request has been accepted. -/
def Succeeds (req : AppendEntriesRPC) (actions : List Action) : Prop :=
  ∃ resp, .sendMessage req.leaderId (.appendEntriesResponse resp) ∈ actions ∧ resp.success = true

/-- The entry at position `k` of the request is not in the log : its index is past the end or
holds another term. -/
def Diverges (core : RaftCore) (req : AppendEntriesRPC) (k : ℕ) : Prop :=
  ∃ e, req.entries[k]? = some e ∧ (core.lastLogIndex < req.prevLogIndex + 1 + k ∨
    ∃ t, core.logTermAt (req.prevLogIndex + 1 + k) = some t ∧ t ≠ e.term)

theorem not_diverges {k : ℕ}
    (h : ∀ e, req.entries[k]? = some e → core.logTermAt (req.prevLogIndex + 1 + k) = some e.term) :
    ¬core.Diverges req k := by
  rintro ⟨e, he, hlt | ⟨t, ht, hne⟩⟩
  · have := (logTermAt_eq_some.mp (h e he)).2.1
    omega
  · rw [h e he] at ht
    exact hne (Option.some.inj ht).symm

/-- Above the snapshot an entry is in the log or diverges. -/
theorem diverges_of_ne {k : ℕ} {e : LogEntry} (he : req.entries[k]? = some e)
    (hlo : core.lastIncludedIndex ≤ req.prevLogIndex + 1 + k)
    (hne : core.logTermAt (req.prevLogIndex + 1 + k) ≠ some e.term) : core.Diverges req k := by
  refine ⟨e, he, ?_⟩
  rcases Nat.lt_or_ge core.lastLogIndex (req.prevLogIndex + 1 + k) with hlt | hle
  · exact Or.inl hlt
  · obtain ⟨t, ht⟩ := exists_logTermAt hlo hle
    exact Or.inr ⟨t, ht, fun h => hne (h ▸ ht)⟩

/-! ## The accepting branch -/

/-- The core that merges the request : the term is checked and the leader recognized. -/
def accepting (core : RaftCore) (req : AppendEntriesRPC) (rnd : ℕ) : RaftCore :=
  (core.termChecked req.term rnd).follow req.leaderId rnd

section accepting

variable (core : RaftCore) (req : AppendEntriesRPC) (rnd : ℕ)

@[simp] theorem accepting_base : (core.accepting req rnd).base = core.base :=
  termChecked_base core req.term rnd

@[simp] theorem accepting_log : (core.accepting req rnd).log = core.log :=
  termChecked_log core req.term rnd

@[simp] theorem accepting_commitIndex : (core.accepting req rnd).commitIndex = core.commitIndex :=
  termChecked_commitIndex core req.term rnd

@[simp] theorem accepting_lastIncludedIndex :
    (core.accepting req rnd).lastIncludedIndex = core.lastIncludedIndex :=
  congrArg Point.index (accepting_base core req rnd)

theorem accepting_logTermAt (i : ℕ) : (core.accepting req rnd).logTermAt i = core.logTermAt i :=
  logTermAt_congr (accepting_base core req rnd) (accepting_log core req rnd) i

theorem accepting_lastLogIndex : (core.accepting req rnd).lastLogIndex = core.lastLogIndex :=
  lastLogIndex_congr (accepting_base core req rnd) (accepting_log core req rnd)

end accepting

/-- A success comes from the accepting branch. -/
theorem acceptEntries_of_success (h : core.handleAppendEntries req rnd = some (core', actions))
    (hs : Succeeds req actions) : core.Accepting req ∧
      ∃ accepted, (core.accepting req rnd).acceptEntries req = some (core', accepted) ∧
        actions = core.termActions req.term ++ accepted := by
  obtain ⟨resp, hmem, hsucc⟩ := hs
  -- the term check sends nothing, so the answer is that of the branch
  have hanswer : ∀ {answer : AppendEntriesResponseRPC}, actions = core.termActions req.term ++
      [.sendMessage req.leaderId (.appendEntriesResponse answer)] → answer.success = true := by
    rintro answer rfl
    rcases List.mem_append.mp hmem with hm | hm
    · unfold termActions at hm
      split_ifs at hm <;> simp at hm
    · cases List.mem_singleton.mp hm
      exact hsucc
  rw [handleAppendEntries_eq] at h
  split_ifs at h with hrej hv
  · obtain ⟨-, ha⟩ := Prod.mk.inj (Option.some.inj h)
    exact absurd (hanswer ha.symm) (by simp [rejection])
  · obtain ⟨⟨c', accepted⟩, hacc, hr⟩ := Option.map_eq_some_iff.mp h
    obtain ⟨rfl, ha⟩ := Prod.mk.inj hr
    exact ⟨(accepting_iff rnd).mpr ⟨hrej, hv⟩, accepted, hacc, ha.symm⟩
  · obtain ⟨-, ha⟩ := Prod.mk.inj (Option.some.inj h)
    refine absurd (hanswer ha.symm) ?_
    unfold conflictResponse
    split_ifs <;> simp [rejection]

/-- The log after a success : the old one if the request's entries are all there, else cut at
the first that is not and continued by the request. -/
theorem log_of_success (h : core.handleAppendEntries req rnd = some (core', actions))
    (hs : Succeeds req actions) : core'.base = core.base ∧
      ((∀ k e, req.entries[k]? = some e →
          core.logTermAt (req.prevLogIndex + 1 + k) = some e.term) ∧ core'.log = core.log ∨
        ∃ k, core.Diverges req k ∧
          (∀ j < k, ∀ e, req.entries[j]? = some e →
            core.logTermAt (req.prevLogIndex + 1 + j) = some e.term) ∧
          core.lastIncludedIndex < req.prevLogIndex + 1 + k ∧
          req.prevLogIndex + k ≤ core.lastLogIndex ∧ k < req.entries.length ∧
          core'.log = core.log.take (req.prevLogIndex + k - core.lastIncludedIndex) ++
            req.entries.drop k) := by
  obtain ⟨ha, accepted, hacc, -⟩ := acceptEntries_of_success h hs
  obtain ⟨merged, persist, applies, hme, hm, hF, -, -⟩ := acceptEntries_spec hacc
  have hbase : core'.base = core.base := by
    rw [hF.frame, hm]
    exact accepting_base core req rnd
  have hlog : core'.log = merged.log := by rw [hm]
  have hstart := start_le_of_valid ha.2.2
  rw [← accepting_lastLogIndex core req rnd] at hstart
  refine ⟨hbase, ?_⟩
  rw [hlog]
  rcases mergeEntries_cases req.entries hme hstart with ⟨rfl, hall⟩ |
    ⟨k, e, he, hne, hall, hlo, hhi, rfl⟩
  · simp only [accepting_logTermAt] at hall
    exact Or.inl ⟨hall, accepting_log core req rnd⟩
  · simp only [accepting_logTermAt] at hne hall
    rw [accepting_lastIncludedIndex] at hlo
    rw [accepting_lastLogIndex] at hhi
    refine Or.inr ⟨k, diverges_of_ne he hlo.le hne, hall, hlo, by omega,
      (List.getElem?_eq_some_iff.mp he).1, ?_⟩
    dsimp only
    rw [accepting_log, accepting_lastIncludedIndex,
      show req.prevLogIndex + 1 + k - (core.lastIncludedIndex + 1) =
        req.prevLogIndex + k - core.lastIncludedIndex by omega]

/-- The entries behind a cut. -/
theorem logEntryAt_of_cut {k : ℕ} (hb : core'.base = core.base)
    (hlo : core.lastIncludedIndex < req.prevLogIndex + 1 + k)
    (hhi : req.prevLogIndex + k ≤ core.lastLogIndex)
    (hl : core'.log = core.log.take (req.prevLogIndex + k - core.lastIncludedIndex) ++
      req.entries.drop k) (n : ℕ) :
    core'.logEntryAt n = if n < req.prevLogIndex + 1 + k then core.logEntryAt n
      else req.entries[n - (req.prevLogIndex + 1)]? := by
  rw [logEntryAt_cut hlo (by omega) (congrArg Point.index hb)
    (by rw [hl, show req.prevLogIndex + k - core.lastIncludedIndex =
      req.prevLogIndex + 1 + k - (core.lastIncludedIndex + 1) by omega]), List.getElem?_drop]
  split_ifs with hn
  · rfl
  · rw [show k + (n - (req.prevLogIndex + 1 + k)) = n - (req.prevLogIndex + 1) by omega]

/-- Up to the previous entry of the request the log stays as it is. -/
theorem logEntryAt_of_success (h : core.handleAppendEntries req rnd = some (core', actions))
    (hs : Succeeds req actions) {i : ℕ} (hi : i ≤ req.prevLogIndex) :
    core'.logEntryAt i = core.logEntryAt i := by
  obtain ⟨hb, ⟨-, hl⟩ | ⟨k, -, -, hlo, hhi, -, hl⟩⟩ := log_of_success h hs
  · rw [logEntryAt, logEntryAt, hl, show core'.lastIncludedIndex = core.lastIncludedIndex from
      congrArg Point.index hb]
  · rw [logEntryAt_of_cut hb hlo hhi hl, if_pos (by omega)]

theorem logTermAt_of_success (h : core.handleAppendEntries req rnd = some (core', actions))
    (hs : Succeeds req actions) {i : ℕ} (hi : i ≤ req.prevLogIndex) :
    core'.logTermAt i = core.logTermAt i := by
  obtain ⟨hbi, hbt⟩ := Point.mk.inj (log_of_success h hs).1
  rw [logTermAt, logTermAt, logEntryAt_of_success h hs hi, hbi, hbt]

/-- After a success the request's entries are all in the log. -/
theorem agrees_of_success (h : core.handleAppendEntries req rnd = some (core', actions))
    (hs : Succeeds req actions) (k : ℕ) (e : LogEntry) (he : req.entries[k]? = some e) :
    core'.logTermAt (req.prevLogIndex + 1 + k) = some e.term := by
  obtain ⟨hb, ⟨hall, hl⟩ | ⟨m, -, hall, hlo, hhi, -, hl⟩⟩ := log_of_success h hs
  · rw [logTermAt_congr hb hl, hall k e he]
  · have hcut := logEntryAt_of_cut hb hlo hhi hl (req.prevLogIndex + 1 + k)
    rcases Nat.lt_or_ge k m with hkm | hkm
    · rw [if_pos (by omega)] at hcut
      obtain ⟨hbi, hbt⟩ := Point.mk.inj hb
      rw [logTermAt, hcut, hbi, hbt]
      exact hall k hkm e he
    · rw [if_neg (by omega), show req.prevLogIndex + 1 + k - (req.prevLogIndex + 1) = k by omega,
        he] at hcut
      exact logTermAt_of_logEntryAt hcut

/-- Where the log ends after a success. -/
theorem lastLogIndex_of_success (h : core.handleAppendEntries req rnd = some (core', actions))
    (hs : Succeeds req actions) :
    core'.lastLogIndex = core.lastLogIndex ∧ (∀ k, ¬core.Diverges req k) ∨
      core'.lastLogIndex = req.prevLogIndex + req.entries.length ∧ ∃ k, core.Diverges req k := by
  obtain ⟨hb, ⟨hall, hl⟩ | ⟨k, hd, -, hlo, hhi, hk, hl⟩⟩ := log_of_success h hs
  · exact Or.inl ⟨lastLogIndex_congr hb hl, fun k => not_diverges (hall k)⟩
  · refine Or.inr ⟨?_, k, hd⟩
    unfold lastLogIndex at hhi
    rw [lastLogIndex, hl, show core'.lastIncludedIndex = core.lastIncludedIndex from
      congrArg Point.index hb, List.length_append, List.length_take, List.length_drop]
    omega

/-- What a success commits : up to the leader's commit index, as far as the log reaches. -/
theorem commit_of_success (h : core.handleAppendEntries req rnd = some (core', actions))
    (hs : Succeeds req actions) :
    req.leaderCommit ≤ core.commitIndex ∧ core'.commitIndex = core.commitIndex ∨
      core.commitIndex < req.leaderCommit ∧
        core'.commitIndex = min req.leaderCommit core'.lastLogIndex := by
  obtain ⟨-, accepted, hacc, -⟩ := acceptEntries_of_success h hs
  obtain ⟨merged, persist, applies, hme, hm, hF, -, -⟩ := acceptEntries_spec hacc
  have hcommit : merged.commitIndex = core.commitIndex := by
    rw [hm]
    exact accepting_commitIndex core req rnd
  have hlast : core'.lastLogIndex = merged.lastLogIndex := by
    rw [hF.frame]
    rfl
  rw [hlast, ← hcommit]
  exact hF.commit.imp (fun h => ⟨h.1, h.2.1⟩) fun h => ⟨h.1, h.2.1⟩

/-- What a success applies lies between the old and the new commit index. -/
theorem applied_of_success (h : core.handleAppendEntries req rnd = some (core', actions))
    (hs : Succeeds req actions) {i : ℕ} {command : Bytes}
    (ha : .applyToStateMachine i command ∈ actions) :
    core.commitIndex < i ∧ i ≤ core'.commitIndex := by
  obtain ⟨-, accepted, hacc, rfl⟩ := acceptEntries_of_success h hs
  obtain ⟨merged, persist, applies, hme, hm, hF, hp, rfl⟩ := acceptEntries_spec hacc
  have hcommit : merged.commitIndex = core.commitIndex := by
    rw [hm]
    exact accepting_commitIndex core req rnd
  have hterm : .applyToStateMachine i command ∉ core.termActions req.term := by
    unfold termActions
    split_ifs <;> simp
  have hpersist : .applyToStateMachine i command ∉ persist := by
    rcases hp with ⟨-, rfl⟩ | ⟨-, entries, -, rfl⟩ <;> simp
  have hmem : .applyToStateMachine i command ∈ applies := by
    simpa [hterm, hpersist] using ha
  rcases hF.commit with ⟨-, -, -, rfl⟩ | ⟨-, -, -, entries, hslice, rfl⟩
  · simp at hmem
  · obtain ⟨j, e, heq, hlo, hhi, -⟩ := mem_applyActions hslice hmem
    cases heq
    omega

/-! ## The merge -/

/-- Entries that are all in the log leave it as it is. -/
theorem mergeEntries_of_agrees {i : ℕ} {es : List LogEntry} (hlo : core.lastIncludedIndex < i)
    (hhi : i ≤ core.lastLogIndex + 1)
    (hall : ∀ k e, es[k]? = some e → core.logTermAt (i + k) = some e.term) :
    core.mergeEntries i es = some core := by
  obtain ⟨merged, hm⟩ := Option.ne_none_iff_exists'.mp (mergeEntries_ne_none es hlo)
  rcases mergeEntries_cases es hm hhi with ⟨rfl, -⟩ | ⟨k, e, he, hne, -⟩
  · exact hm
  · exact absurd (hall k e he) hne

/-- After a success the node follows in the request's term. -/
theorem follower_of_success (h : core.handleAppendEntries req rnd = some (core', actions))
    (hs : Succeeds req actions) : core'.state = .follower ∧ req.term = core'.currentTerm := by
  obtain ⟨hacc, accepted, ha, -⟩ := acceptEntries_of_success h hs
  have hrej := ((accepting_iff rnd).mp hacc).1
  rw [not_or] at hrej
  have haccepts : core.Accepts rnd req core' := ⟨hacc.1, hrej.1, hacc.2.2, accepted, ha⟩
  obtain ⟨hst, hterm, -⟩ := haccepts.frame
  exact ⟨hst, hterm.symm⟩

/-- The request of a success is still valid after it. -/
theorem valid_of_success (h : core.handleAppendEntries req rnd = some (core', actions))
    (hs : Succeeds req actions) :
    core'.appendEntriesValid req = true ∧ req.prevLogIndex ≤ core'.lastLogIndex := by
  have hv := (acceptEntries_of_success h hs).1.2.2
  have hstart := start_le_of_valid hv
  have hlast : req.prevLogIndex ≤ core'.lastLogIndex := by
    rcases lastLogIndex_of_success h hs with ⟨hl, -⟩ | ⟨hl, -⟩ <;> omega
  refine ⟨?_, hlast⟩
  rw [appendEntriesValid, decide_eq_true_iff] at hv ⊢
  rw [logTermAt_of_success h hs le_rfl]
  exact hv.imp_right fun hv => ⟨hlast, hv.2⟩

/-- A commit index that is reached already, as far as the log goes, is followed by nothing. -/
theorem followCommit_reached {n : ℕ}
    (h : core.commitIndex < n → core.commitIndex = min n core.lastLogIndex) :
    ∃ core' applies, core.followCommit n = some (core', applies) ∧ core'.log = core.log ∧
      core'.commitIndex = core.commitIndex ∧
      ∀ i command, .applyToStateMachine i command ∉ applies := by
  have hfollow : core.followCommit n ≠ none := by
    rw [ne_eq, followCommit_eq_none_iff]
    rintro ⟨hlt, hl⟩
    have := h hlt
    omega
  obtain ⟨⟨core', applies⟩, hf⟩ := Option.ne_none_iff_exists'.mp hfollow
  have hF := followCommit_spec hf
  refine ⟨core', applies, hf, by rw [hF.frame], ?_, fun i command hm => ?_⟩
  · rcases hF.commit with ⟨-, hci, -, -⟩ | ⟨hlt, hci, -, -⟩
    · exact hci
    · rw [hci, ← h hlt]
  · rcases hF.commit with ⟨-, -, -, rfl⟩ | ⟨hlt, hci, -, entries, hslice, rfl⟩
    · cases hm
    · obtain ⟨j, e, -, hlo, hhi, -⟩ := mem_applyActions hslice hm
      have := h hlt
      omega

theorem not_apply_of_persistMerged {persist : List Action}
    (h : core.persistMerged req = some persist) (i : ℕ) (command : Bytes) :
    .applyToStateMachine i command ∉ persist := by
  unfold persistMerged at h
  split_ifs at h
  · obtain rfl := Option.some.inj h
    exact List.not_mem_nil
  · obtain ⟨entries, -, rfl⟩ := Option.map_eq_some_iff.mp h
    intro hm
    cases List.mem_singleton.mp hm

/-- The same request once more : accepted, with nothing to merge and nothing to apply. -/
theorem again_of_success (h : core.handleAppendEntries req rnd = some (core', actions))
    (hs : Succeeds req actions) (hp : core.lastIncludedIndex ≤ req.prevLogIndex) (rnd' : ℕ) :
    ∃ core'' actions', core'.handleAppendEntries req rnd' = some (core'', actions') ∧
      core''.log = core'.log ∧ core''.commitIndex = core'.commitIndex ∧
      ∀ i command, .applyToStateMachine i command ∉ actions' := by
  obtain ⟨hst, ht⟩ := follower_of_success h hs
  obtain ⟨hv, hprev⟩ := valid_of_success h hs
  have hbi : core'.lastIncludedIndex = core.lastIncludedIndex :=
    congrArg Point.index (log_of_success h hs).1
  have hmerge : (core'.follow req.leaderId rnd').mergeEntries (req.prevLogIndex + 1) req.entries =
      some (core'.follow req.leaderId rnd') := by
    refine mergeEntries_of_agrees ?_ (Nat.succ_le_succ hprev) fun k e he => ?_
    · change core'.lastIncludedIndex < _
      omega
    · change core'.logTermAt _ = _
      exact agrees_of_success h hs k e he
  obtain ⟨persist, hpersist⟩ := Option.ne_none_iff_exists'.mp
    (persistMerged_ne_none (show req.prevLogIndex ≤ (core'.follow req.leaderId rnd').lastLogIndex
      from hprev))
  -- a commit index below the leader's is at the end of the log already
  have hend : core'.commitIndex < req.leaderCommit →
      core'.commitIndex = min req.leaderCommit core'.lastLogIndex := by
    intro hlt
    rcases commit_of_success h hs with ⟨hle, hci⟩ | ⟨-, hci⟩
    · omega
    · exact hci
  obtain ⟨core'', applies, hf, hlog, hcommit, happ⟩ :=
    (core'.follow req.leaderId rnd').followCommit_reached hend
  refine ⟨core'', persist ++ applies ++
    [.sendMessage req.leaderId (.appendEntriesResponse core''.acceptance)], ?_, hlog, hcommit, ?_⟩
  · rw [handleAppendEntries_of_follower hst ht, if_pos hv]
    simp only [acceptEntries, hmerge, hpersist, hf, bind, Option.bind_some]
    rfl
  · intro i command hm
    rcases List.mem_append.mp hm with hm | hm
    · rcases List.mem_append.mp hm with hm | hm
      · exact not_apply_of_persistMerged hpersist i command hm
      · exact happ i command hm
    · cases List.mem_singleton.mp hm

/-- An accepted request that starts behind the snapshot : without a diverging entry the log
stays, else it is cut at the first one and continued by the rest of the request. The snapshot
and the entries up to the previous one stay, and the same request once more is accepted
without any effect. -/
theorem merge_of_success (h : core.handleAppendEntries req rnd = some (core', actions))
    (hs : Succeeds req actions) (hp : core.lastIncludedIndex ≤ req.prevLogIndex) :
    ((∀ k, ¬core.Diverges req k) → core'.log = core.log) ∧
      (∀ k, core.Diverges req k → (∀ j < k, ¬core.Diverges req j) →
        core'.log = core.log.take (req.prevLogIndex + k - core.lastIncludedIndex) ++
          req.entries.drop k) ∧
      core'.lastIncludedIndex = core.lastIncludedIndex ∧
      (∀ i ≤ req.prevLogIndex, core'.logEntryAt i = core.logEntryAt i) ∧
      ∀ rnd', ∃ core'' actions', core'.handleAppendEntries req rnd' = some (core'', actions') ∧
        core''.log = core'.log ∧ core''.commitIndex = core'.commitIndex ∧
        ∀ i command, .applyToStateMachine i command ∉ actions' := by
  obtain ⟨hb, hlog⟩ := log_of_success h hs
  refine ⟨fun hno => ?_, fun k hk hfirst => ?_, congrArg Point.index hb,
    fun i hi => logEntryAt_of_success h hs hi, again_of_success h hs hp⟩
  · rcases hlog with ⟨-, hl⟩ | ⟨k, hd, -⟩
    · exact hl
    · exact absurd hd (hno k)
  · rcases hlog with ⟨hall, -⟩ | ⟨m, hd, hall, -, -, -, hl⟩
    · exact absurd hk (not_diverges (hall k))
    · -- both are the first
      obtain rfl : k = m := by
        refine le_antisymm (Nat.not_lt.mp fun hlt => hfirst m hlt hd) ?_
        exact Nat.not_lt.mp fun hlt => not_diverges (hall k hlt) hk
      exact hl

/-- A follower with the entries of term 1 at indices 1, 2 and 3, of which one is committed. -/
def staleTail : RaftCore :=
  { RaftCore.restore 2 [1, 2, 3] none (10, 20) 15 2 none [⟨1, []⟩, ⟨1, [7]⟩, ⟨1, [8]⟩] with
    commitIndex := 1
    lastApplied := 1 }

/-- The leader of term 2 has another entry at index 2. -/
theorem merge_of_success_staleTail :
    ∃ core' actions, staleTail.handleAppendEntries ⟨2, 1, 1, 1, [⟨2, []⟩], 1⟩ 15 =
        some (core', actions) ∧ core'.log = [⟨1, []⟩, ⟨2, []⟩] ∧
      ∀ rnd', ∃ core'' actions', core'.handleAppendEntries ⟨2, 1, 1, 1, [⟨2, []⟩], 1⟩ rnd' =
        some (core'', actions') ∧ core''.log = core'.log := by
  obtain ⟨core', hc⟩ : ∃ core', staleTail.handleAppendEntries ⟨2, 1, 1, 1, [⟨2, []⟩], 1⟩ 15 =
      some (core', [.persistLogEntries 2 [⟨2, []⟩],
        .sendMessage 1 (.appendEntriesResponse ⟨2, 2, 2, true, none, none⟩)]) := ⟨_, rfl⟩
  have hm := merge_of_success hc ⟨_, List.mem_cons_of_mem _ List.mem_cons_self, rfl⟩
    (Nat.zero_le _)
  have hd : staleTail.Diverges ⟨2, 1, 1, 1, [⟨2, []⟩], 1⟩ 0 :=
    ⟨⟨2, []⟩, rfl, Or.inr ⟨1, rfl, by decide⟩⟩
  refine ⟨core', _, hc, hm.2.1 0 hd (fun j hj => absurd hj (Nat.not_lt_zero j)), fun rnd' => ?_⟩
  obtain ⟨core'', actions', h, hl, -⟩ := hm.2.2.2.2 rnd'
  exact ⟨core'', actions', h, hl⟩

/-! ## The commit -/

/-- An accepted request commits no further than it reaches exactly if one of its entries
diverges, which makes its end the end of the log, or if the leader's commit index or the log
ends there anyway. -/
theorem commits_verified_iff (h : core.handleAppendEntries req rnd = some (core', actions))
    (hs : Succeeds req actions) :
    ((∀ i, core.commitIndex < i → i ≤ core'.commitIndex →
          i ≤ min req.leaderCommit (req.prevLogIndex + req.entries.length)) ∧
        ∀ i command, .applyToStateMachine i command ∈ actions →
          i ≤ min req.leaderCommit (req.prevLogIndex + req.entries.length)) ↔
      (∃ k, core.Diverges req k) ∨
        min req.leaderCommit core.lastLogIndex ≤
          max core.commitIndex (req.prevLogIndex + req.entries.length) := by
  have hcommit := commit_of_success h hs
  have hlast := lastLogIndex_of_success h hs
  constructor
  · rintro ⟨hall, -⟩
    rcases hlast with ⟨hl, -⟩ | ⟨-, hd⟩
    · refine Or.inr (Nat.not_lt.mp fun hlt => ?_)
      have := hall core'.commitIndex
      omega
    · exact Or.inl hd
  · intro hcond
    have hbound : ∀ i, core.commitIndex < i → i ≤ core'.commitIndex →
        i ≤ min req.leaderCommit (req.prevLogIndex + req.entries.length) := by
      intro i hlo hhi
      rcases hlast with ⟨hl, hno⟩ | ⟨hl, -⟩
      · have hle := hcond.resolve_left fun ⟨k, hk⟩ => hno k hk
        omega
      · omega
    refine ⟨hbound, fun i command ha => ?_⟩
    obtain ⟨hlo, hhi⟩ := applied_of_success h hs ha
    exact hbound i hlo hhi

/-- A heartbeat that reaches the end of the log. -/
theorem commits_verified_iff_heartbeat : ∃ core' actions,
    staleTail.handleAppendEntries ⟨2, 1, 3, 1, [], 3⟩ 15 = some (core', actions) ∧
      core'.commitIndex = 3 ∧ ∀ i, 1 < i → i ≤ core'.commitIndex → i ≤ 3 := by
  obtain ⟨core', hc, hci⟩ : ∃ core', staleTail.handleAppendEntries ⟨2, 1, 3, 1, [], 3⟩ 15 =
      some (core', [.applyToStateMachine 2 [7], .applyToStateMachine 3 [8],
        .sendMessage 1 (.appendEntriesResponse ⟨2, 2, 3, true, none, none⟩)]) ∧
      core'.commitIndex = 3 := ⟨_, rfl, rfl⟩
  have hiff := commits_verified_iff hc ⟨_, List.mem_cons_of_mem _ (List.mem_cons_of_mem _
    List.mem_cons_self), rfl⟩
  exact ⟨core', _, hc, hci, (hiff.mpr (Or.inr (by decide))).1⟩

/-- The request a leader sends to a peer whose next index is 0 : it names no previous entry and
has no entries, and it commits what it has not looked at. -/
theorem unverified_commit_of_staleTail :
    ¬∀ (core core' : RaftCore) (req : AppendEntriesRPC) (rnd : ℕ) (actions : List Action),
      core.handleAppendEntries req rnd = some (core', actions) → Succeeds req actions →
      ∀ i, core.commitIndex < i → i ≤ core'.commitIndex →
        i ≤ min req.leaderCommit (req.prevLogIndex + req.entries.length) := by
  intro hall
  obtain ⟨core', hc, hci⟩ : ∃ core', staleTail.handleAppendEntries ⟨2, 1, 0, 0, [], 3⟩ 15 =
      some (core', [.applyToStateMachine 2 [7], .applyToStateMachine 3 [8],
        .sendMessage 1 (.appendEntriesResponse ⟨2, 2, 3, true, none, none⟩)]) ∧
      core'.commitIndex = 3 := ⟨_, rfl, rfl⟩
  have := hall staleTail core' _ 15 _ hc ⟨_, List.mem_cons_of_mem _ (List.mem_cons_of_mem _
    List.mem_cons_self), rfl⟩ 3 (by decide) hci.ge
  simp at this

end RaftCore

end FerrisFerry
