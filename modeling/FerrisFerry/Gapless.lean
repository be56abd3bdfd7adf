import FerrisFerry.Delivery

/-!
# Applied without a gap

One core from any of its constructors, over any calls. As long as no AppendEntries and no
snapshot names another term for an entry at or below the commit index
(`RaftCore.Contradicted`), everything committed is applied and in the log
(`RaftCore.Level`), the commit index does not go back, and a call hands to the application
the entries between the old and the new `last_applied`, each once and in order, or one
snapshot and no entry (`RaftCore.applied_gapless`).

The merge loop may cut the log below the commit index only where a request that ends there
contradicts it (`RaftCore.Shortens`).
-/

namespace FerrisFerry

/-- The index and the command an action applies. -/
def Action.applied : Action → Option (ℕ × Option Bytes)
  | .applyToStateMachine index command => some (index, some command)
  | _ => none

theorem applied_of_not_reaches {actions : List Action} (h : ∀ a ∈ actions, ¬a.Reaches) :
    actions.filterMap Action.applied = [] := by
  refine List.filterMap_eq_nil_iff.mpr fun a ha => ?_
  cases a with
  | applyToStateMachine => exact absurd trivial (h _ ha)
  | _ => rfl

namespace Applies

variable {n m : ℕ} {actions : List Action}

theorem no_install (h : Applies n actions m) :
    ∀ i t data, .installSnapshot i t data ∉ actions := by
  induction h with
  | nil => simp
  | apply _ ih =>
    intro i t data hm
    rcases List.mem_cons.mp hm with h | h
    · cases h
    · exact ih i t data h
  | skip ha _ ih =>
    intro i t data hm
    rcases List.mem_cons.mp hm with rfl | h
    · exact ha trivial
    · exact ih i t data h

/-- The applied entries are those of the log, index by index. -/
theorem applied_eq {f : ℕ → Option Bytes} (h : Applies n actions m)
    (hf : ∀ i command, .applyToStateMachine i command ∈ actions → f i = some command) :
    actions.filterMap Action.applied = (List.range' (n + 1) (m - n)).map fun i => (i, f i) := by
  induction h with
  | nil => simp
  | @apply n m command actions h ih =>
    have hle := h.le
    have hcons : (Action.applyToStateMachine (n + 1) command :: actions).filterMap Action.applied =
        (n + 1, some command) :: actions.filterMap Action.applied := rfl
    rw [hcons, ih fun i c hm => hf i c (List.mem_cons_of_mem _ hm),
      show m - n = (m - (n + 1)) + 1 by omega, List.range'_succ, List.map_cons,
      hf (n + 1) command List.mem_cons_self]
  | @skip n m a actions ha _ ih =>
    have hnone : a.applied = none := by
      cases a with
      | applyToStateMachine => exact absurd trivial ha
      | _ => rfl
    rw [List.filterMap_cons_none hnone]
    exact ih fun i c hm => hf i c (List.mem_cons_of_mem _ hm)

end Applies

namespace RaftCore

variable {core core' : RaftCore} {rnd : ℕ} {request : Request} {actions : List Action}

/-! ## Requests against the committed log -/

/-- The request names another term for an entry at or below the commit index. -/
def Contradicted (core : RaftCore) : Request → Prop
  | .message (.appendEntries req) => ∃ k : Fin req.entries.length,
      req.prevLogIndex + 1 + k ≤ core.commitIndex ∧
      core.logTermAt (req.prevLogIndex + 1 + k) ≠ none ∧
      core.logTermAt (req.prevLogIndex + 1 + k) ≠ some req.entries[k].term
  | .message (.installSnapshot req) => req.lastIncludedIndex ≤ core.commitIndex ∧
      core.logTermAt req.lastIncludedIndex ≠ none ∧
      core.logTermAt req.lastIncludedIndex ≠ some req.lastIncludedTerm
  | _ => False

instance (core : RaftCore) : (request : Request) → Decidable (core.Contradicted request)
  | .message (.appendEntries req) => inferInstanceAs (Decidable (∃ k : Fin req.entries.length,
      req.prevLogIndex + 1 + k ≤ core.commitIndex ∧
      core.logTermAt (req.prevLogIndex + 1 + k) ≠ none ∧
      core.logTermAt (req.prevLogIndex + 1 + k) ≠ some req.entries[k].term))
  | .message (.installSnapshot req) =>
    inferInstanceAs (Decidable (req.lastIncludedIndex ≤ core.commitIndex ∧
      core.logTermAt req.lastIncludedIndex ≠ none ∧
      core.logTermAt req.lastIncludedIndex ≠ some req.lastIncludedTerm))
  | .message (.requestVote _) | .message (.requestVoteResponse _)
  | .message (.appendEntriesResponse _) | .message (.installSnapshotResponse _) | .tick
  | .propose _ | .readBarrier | .snapshot _ => inferInstanceAs (Decidable False)

/-- The node takes over the entries of a request, as far as it does not panic. -/
def Accepting (core : RaftCore) (req : AppendEntriesRPC) : Prop :=
  core.currentTerm ≤ req.term ∧ (core.state = .leader → core.currentTerm < req.term) ∧
    core.appendEntriesValid req = true

instance (core : RaftCore) (req : AppendEntriesRPC) : Decidable (core.Accepting req) :=
  inferInstanceAs (Decidable (_ ∧ _ ∧ _))

/-- An accepted request names another term for an entry and ends below the commit index. -/
def Shortens (core : RaftCore) (req : AppendEntriesRPC) : Prop :=
  core.Accepting req ∧ req.prevLogIndex + req.entries.length < core.commitIndex ∧
    core.Contradicted (.message (.appendEntries req))

instance (core : RaftCore) (req : AppendEntriesRPC) : Decidable (core.Shortens req) :=
  inferInstanceAs (Decidable (_ ∧ _ ∧ _))

/-- Where a merged log ends : where it ended, or, behind a conflict, with the request. -/
theorem mergeEntries_last {i : ℕ} (es : List LogEntry) (h : core.mergeEntries i es = some core')
    (hi : i ≤ core.lastLogIndex + 1) :
    (core'.lastLogIndex = core.lastLogIndex ∧
      ∀ k e, es[k]? = some e → core.logTermAt (i + k) = some e.term) ∨
    core'.lastLogIndex + 1 = i + es.length ∧ ∃ k e, es[k]? = some e ∧
      core.logTermAt (i + k) ≠ some e.term ∧ core.lastIncludedIndex < i + k := by
  rcases mergeEntries_cases es h hi with ⟨rfl, hall⟩ | ⟨k, e, he, hne, -, hlo, hhi, rfl⟩
  · exact Or.inl ⟨rfl, hall⟩
  · have hk : k < es.length := (List.getElem?_eq_some_iff.mp he).1
    refine Or.inr ⟨?_, k, e, he, hne, hlo⟩
    unfold lastLogIndex at hhi
    simp only [lastLogIndex, List.length_append, List.length_take, List.length_drop]
    omega

/-- The same for a request that is accepted : the term check leaves the log as it is. -/
theorem merged_last_cases {req : AppendEntriesRPC} {merged : RaftCore}
    (hme : ((core.termChecked req.term rnd).follow req.leaderId rnd).mergeEntries
      (req.prevLogIndex + 1) req.entries = some merged)
    (hv : core.appendEntriesValid req = true) :
    (merged.lastLogIndex = core.lastLogIndex ∧
      ∀ k e, req.entries[k]? = some e → core.logTermAt (req.prevLogIndex + 1 + k) = some e.term) ∨
    merged.lastLogIndex = req.prevLogIndex + req.entries.length ∧
      ∃ k e, req.entries[k]? = some e ∧ core.logTermAt (req.prevLogIndex + 1 + k) ≠ some e.term ∧
        core.lastIncludedIndex < req.prevLogIndex + 1 + k := by
  have hb : ((core.termChecked req.term rnd).follow req.leaderId rnd).base = core.base :=
    termChecked_base core req.term rnd
  have hl : ((core.termChecked req.term rnd).follow req.leaderId rnd).log = core.log :=
    termChecked_log core req.term rnd
  have hstart := start_le_of_valid hv
  rw [← lastLogIndex_congr hb hl] at hstart
  have hlast := mergeEntries_last req.entries hme hstart
  simp only [lastLogIndex_congr hb hl, logTermAt_congr hb hl] at hlast
  refine hlast.imp_right ?_
  rintro ⟨h, k, e, he, hne, hlo⟩
  refine ⟨by omega, k, e, he, hne, ?_⟩
  rwa [show ((core.termChecked req.term rnd).follow req.leaderId rnd).lastIncludedIndex =
    core.lastIncludedIndex from congrArg Point.index hb] at hlo

/-! ## One call -/

/-- Everything committed is applied and in the log. -/
structure Level (core : RaftCore) : Prop extends core.CaughtUp where
  commit : core.commitIndex ≤ core.lastLogIndex

/-- A merged log ends below the commit index exactly if the request shortens it. -/
theorem Level.merged_last_lt_iff {req : AppendEntriesRPC} {merged : RaftCore} (hc : core.Level)
    (ha : core.Accepting req)
    (hme : ((core.termChecked req.term rnd).follow req.leaderId rnd).mergeEntries
      (req.prevLogIndex + 1) req.entries = some merged) :
    merged.lastLogIndex < core.commitIndex ↔ core.Shortens req := by
  have hcl := hc.commit
  rcases merged_last_cases hme ha.2.2 with ⟨hlast, hall⟩ | ⟨hlast, k, e, he, hne, hlo⟩
  · refine iff_of_false (by omega) ?_
    rintro ⟨-, -, k, -, -, hne⟩
    exact hne (hall k _ (List.getElem?_eq_getElem k.isLt))
  · obtain ⟨hk, rfl⟩ := List.getElem?_eq_some_iff.mp he
    rw [hlast]
    constructor
    · intro hlt
      obtain ⟨t, ht⟩ := exists_logTermAt hlo.le (show _ ≤ core.lastLogIndex by omega)
      exact ⟨ha, hlt, ⟨k, hk⟩, show req.prevLogIndex + 1 + k ≤ core.commitIndex by omega,
        by simp [ht], hne⟩
    · exact fun hs => hs.2.1

/-- An accepted request that does not shorten the log keeps the commit index in it. -/
theorem Level.accept {req : AppendEntriesRPC} {accepted : List Action} (hc : core.Level)
    (hreq : core.Accepting req) (hok : ¬core.Shortens req)
    (ha : ((core.termChecked req.term rnd).follow req.leaderId rnd).acceptEntries req =
      some (core', accepted)) :
    core.commitIndex ≤ core'.commitIndex ∧ core'.commitIndex ≤ core'.lastLogIndex := by
  obtain ⟨merged, persist, applies, hme, hm, hF, -, -⟩ := acceptEntries_spec ha
  have hmc : merged.commitIndex = core.commitIndex := by
    rw [hm]
    exact termChecked_commitIndex core req.term rnd
  have hkeep : core.commitIndex ≤ merged.lastLogIndex :=
    Nat.not_lt.mp fun hlt => hok ((hc.merged_last_lt_iff hreq hme).mp hlt)
  have hlast : core'.lastLogIndex = merged.lastLogIndex := by
    rw [hF.frame]
    rfl
  rw [hlast]
  rcases hF.commit with ⟨-, hci, -, -⟩ | ⟨hlt, hci, -, -⟩
  · rw [hci, hmc]
    exact ⟨le_rfl, hkeep⟩
  · rw [hci]
    exact ⟨le_min (hmc ▸ hlt.le) hkeep, min_le_right _ _⟩

theorem accepting_of_termChecked {req : AppendEntriesRPC} (ht : core.currentTerm ≤ req.term)
    (hl : (core.termChecked req.term rnd).state ≠ .leader)
    (hv : core.appendEntriesValid req = true) : core.Accepting req := by
  refine ⟨ht, fun hs => lt_of_le_of_ne ht fun heq => hl ?_, hv⟩
  rwa [termChecked_of_le heq.ge]

/-- Every call that does not shorten the log below the commit index keeps the latter in it. If
the request contradicts nothing committed, the commit index does not go back. -/
theorem Outcome.commit_le (h : core.Outcome rnd request core' actions) (hc : core.Level)
    (hok : ∀ req, request = .message (.appendEntries req) → ¬core.Shortens req) :
    (¬core.Contradicted request → core.commitIndex ≤ core'.commitIndex) ∧
      core'.commitIndex ≤ core'.lastLogIndex := by
  -- the commit index stays and the log does not get shorter
  have hidle : ∀ {c : RaftCore}, c.commitIndex = core.commitIndex →
      core.lastLogIndex ≤ c.lastLogIndex →
      (¬core.Contradicted request → core.commitIndex ≤ c.commitIndex) ∧
        c.commitIndex ≤ c.lastLogIndex := fun hci hl =>
    ⟨fun _ => hci.ge, hci.le.trans (hc.commit.trans hl)⟩
  have hchecked : ∀ (t : ℕ) {c : RaftCore}, c.base = (core.termChecked t rnd).base →
      c.log = (core.termChecked t rnd).log →
      c.commitIndex = (core.termChecked t rnd).commitIndex →
      (¬core.Contradicted request → core.commitIndex ≤ c.commitIndex) ∧
        c.commitIndex ≤ c.lastLogIndex := fun t c hb hl hci =>
    hidle (hci.trans (termChecked_commitIndex core t rnd))
      (lastLogIndex_congr (hb.trans (termChecked_base core t rnd))
        (hl.trans (termChecked_log core t rnd))).ge
  cases h with
  | barrier =>
    unfold requestReadBarrier
    split_ifs <;> exact hidle rfl le_rfl
  | append | win =>
    refine hidle rfl ?_
    change _ ≤ core.lastIncludedIndex + (core.log ++ [_]).length
    rw [List.length_append]
    exact Nat.add_le_add_left (Nat.le_add_right _ _) _
  | compact hp hs =>
    refine hidle ?_ ?_
    · rcases completeSnapshot_spec hp hs with ⟨-, rfl⟩ | ⟨k, -, -, -, -, rfl⟩ <;> rfl
    · rw [← tip_index, ← tip_index, completeSnapshot_tip hp hs]
  | acceptAppend ht hl hv ha =>
    exact (hc.accept (accepting_of_termChecked ht hl hv) (hok _ rfl) ha).imp_left fun h _ => h
  | @success resp _ _ hs hr =>
    have hR := recordSuccess_spec hr
    have hlast : core'.lastLogIndex = core.lastLogIndex := by
      rw [hR.frame]
      exact lastLogIndex_congr (termChecked_base core resp.term rnd) (termChecked_log core _ rnd)
    have hci : (core.termChecked resp.term rnd).commitIndex = core.commitIndex :=
      termChecked_commitIndex core resp.term rnd
    rcases hR.commit with h | ⟨hlt, -, ht⟩
    · exact hidle (h.trans hci) hlast.ge
    · refine ⟨fun _ => hci ▸ hlt.le, ?_⟩
      have hle := (logTermAt_eq_some.mp ht).2.1
      rwa [lastLogIndex_congr (termChecked_base core resp.term rnd)
        (termChecked_log core resp.term rnd), ← hlast] at hle
  | @installSnapshot req ht hi hh =>
    refine ⟨fun hok => ?_, le_rfl⟩
    change core.commitIndex ≤ req.lastIncludedIndex
    by_contra hlt
    -- a point at or below the commit index is on the log, with another term
    obtain ⟨t, hterm⟩ := exists_logTermAt hi.le ((Nat.not_le.mp hlt).le.trans hc.commit)
    exact hok ⟨(Nat.not_le.mp hlt).le, by simp [hterm], hh⟩
  | wait | heartbeat | stand | refuse | collectVote | staleSnapshot | recordSnapshotResponse =>
    exact hidle rfl le_rfl
  | _ => exact hchecked _ rfl rfl rfl

theorem Outcome.level (h : core.Outcome rnd request core' actions) (hc : core.Level)
    (hok : ∀ req, request = .message (.appendEntries req) → ¬core.Shortens req) : core'.Level :=
  { (h.delivers hc.toCaughtUp).2 with commit := (h.commit_le hc hok).2 }

theorem not_shortens_of_not_contradicted (h : ¬core.Contradicted request) :
    ∀ req, request = .message (.appendEntries req) → ¬core.Shortens req := by
  rintro req rfl hs
  exact h hs.2.2

/-! ## What is handed out -/

/-- A call hands out the entries between the old and the new `last_applied`, or a snapshot
and no entry. -/
def HandsOut (core core' : RaftCore) (actions : List Action) : Prop :=
  ((∀ i t data, .installSnapshot i t data ∉ actions) ∧ actions.filterMap Action.applied =
    (List.range' (core.lastApplied + 1) (core'.lastApplied - core.lastApplied)).map fun i =>
      (i, (core'.logEntryAt i).map LogEntry.command)) ∨
  ∃ i t data, .installSnapshot i t data ∈ actions ∧ core'.lastApplied = i ∧
    actions.filterMap Action.applied = []

theorem Outcome.handsOut (h : core.Outcome rnd request core' actions) (hc : core.CaughtUp) :
    core.HandsOut core' actions := by
  have hlog : ∀ i command, .applyToStateMachine i command ∈ actions →
      (core'.logEntryAt i).map LogEntry.command = some command := by
    intro i command ha
    cases h.emits ha with
    | leading hb => exact (leading_of_build hb).elim
    | apply _ he => rw [he, Option.map_some]
  obtain ⟨hd, -⟩ := h.delivers hc
  cases hd with
  | entries happ => exact Or.inl ⟨happ.no_install, happ.applied_eq hlog⟩
  | snapshot hm hr hla =>
    refine Or.inr ⟨_, _, _, List.mem_append_right _ List.mem_cons_self, hla, ?_⟩
    rw [List.filterMap_append, List.filterMap_cons_none rfl, applied_of_not_reaches hm,
      applied_of_not_reaches hr, List.append_nil]

/-! ## Runs of one core -/

/-- The cores the constructors make. -/
inductive Started : RaftCore → Prop
  | new (id : NodeId) (nodes : List NodeId) (heartbeatInterval : Option ℕ)
      (electionRange : ℕ × ℕ) (rnd : ℕ) : Started (new id nodes heartbeatInterval electionRange rnd)
  | restore (id : NodeId) (nodes : List NodeId) (heartbeatInterval : Option ℕ)
      (electionRange : ℕ × ℕ) (rnd term : ℕ) (votedFor : Option NodeId) (log : List LogEntry) :
    Started (restore id nodes heartbeatInterval electionRange rnd term votedFor log)
  | restoreWithSnapshot (id : NodeId) (nodes : List NodeId) (heartbeatInterval : Option ℕ)
      (electionRange : ℕ × ℕ) (rnd term : ℕ) (votedFor : Option NodeId) (log : List LogEntry)
      (lastIncludedIndex lastIncludedTerm : ℕ) :
    Started (restoreWithSnapshot id nodes heartbeatInterval electionRange rnd term votedFor log
      lastIncludedIndex lastIncludedTerm)

theorem Started.level (h : core.Started) : core.Level := by
  cases h with
  | new | restore => exact ⟨⟨rfl, Nat.zero_le _⟩, Nat.zero_le _⟩
  | restoreWithSnapshot => exact ⟨⟨rfl, le_rfl⟩, Nat.le_add_right _ _⟩

end RaftCore

/-- One core as a machine : a call with the timeout it draws. -/
def RaftCore.machine : Machine RaftCore (Request × ℕ) where
  step core input := (core.call input.2 input.1).map Prod.fst

namespace RaftCore

variable {core₀ core core' : RaftCore} {rnd : ℕ} {request : Request} {actions : List Action}

theorem level_run (h₀ : core₀.Started)
    (h : machine.Run (fun core input => ¬core.Contradicted input.1) core₀ core) : core.Level := by
  refine h.invariant h₀.level ?_
  intro core input core' hc hok hs
  obtain ⟨⟨after, actions⟩, hcall, rfl⟩ := Option.map_eq_some_iff.mp hs
  exact (call_outcome hcall).level hc (not_shortens_of_not_contradicted hok)

/-- The applied sequence has no gap : after every call of a run that contradicts nothing
committed, everything committed is applied and in the log, nothing committed is taken back,
and the call has handed out exactly the newly applied entries. -/
theorem applied_gapless (h₀ : core₀.Started)
    (h : machine.Run (fun core input => ¬core.Contradicted input.1) core₀ core)
    (hok : ¬core.Contradicted request) (hc : core.call rnd request = some (core', actions)) :
    core'.lastIncludedIndex ≤ core'.lastApplied ∧ core'.lastApplied = core'.commitIndex ∧
      core'.commitIndex ≤ core'.lastLogIndex ∧ core.commitIndex ≤ core'.commitIndex ∧
      core.HandsOut core' actions := by
  have hlevel := level_run h₀ h
  have ho := call_outcome hc
  have hkeep := not_shortens_of_not_contradicted hok
  have hlevel' := ho.level hlevel hkeep
  exact ⟨hlevel'.base, hlevel'.applied, hlevel'.commit, (ho.commit_le hlevel hkeep).1 hok,
    ho.handsOut hlevel.toCaughtUp⟩

/-- A follower takes two entries, compacts the first, and is told that the second is
committed. -/
theorem applied_gapless_follower : ∃ core core' actions,
    machine.Run (fun core input => ¬core.Contradicted input.1)
      (RaftCore.new 2 [1, 2, 3] none (1, 2) 1) core ∧ core.lastIncludedIndex = 1 ∧
    core.call 1 (.message (.appendEntries ⟨1, 1, 2, 1, [], 2⟩)) = some (core', actions) ∧
    core'.lastApplied = 2 ∧ core.HandsOut core' actions := by
  obtain ⟨core, hrun, hi, hok, hc⟩ := machine.exists_run_of_exec
    (fun core input => ¬core.Contradicted input.1) (RaftCore.new 2 [1, 2, 3] none (1, 2) 1)
    [(.message (.appendEntries ⟨1, 1, 0, 0, [⟨1, []⟩, ⟨1, [7]⟩], 1⟩), 1), (.snapshot [], 1)]
    (fun core => core.lastIncludedIndex = 1 ∧
      ¬core.Contradicted (.message (.appendEntries ⟨1, 1, 2, 1, [], 2⟩)) ∧
      (core.call 1 (.message (.appendEntries ⟨1, 1, 2, 1, [], 2⟩))).any
        (fun r => r.1.lastApplied = 2) = true)
    (by decide +kernel) (by decide +kernel)
  obtain ⟨⟨core', actions⟩, hcall, hla⟩ := (Option.any_eq_true _ _).mp hc
  exact ⟨core, core', actions, hrun, hi, hcall, of_decide_eq_true hla,
    (applied_gapless (.new _ _ _ _ _) hrun hok hcall).2.2.2.2⟩

end RaftCore

end FerrisFerry
