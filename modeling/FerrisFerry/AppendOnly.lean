import FerrisFerry.Log

/-!
# A leader only appends

A leader that stays leader of its term loses no index of its log and changes no entry above
its snapshot (`RaftCore.Extends`), with one exception. `handle_append_entries` turns away
every request while the node leads; `handle_install_snapshot` does not, and a snapshot of the
leader's own term whose point is not on its log replaces all of it (`RaftCore.Overrun`).
`RaftCore.extends_iff_not_overrun` : this is the only way.
-/

namespace FerrisFerry

namespace RaftCore

variable {core core' : RaftCore} {rnd : ℕ} {request : Request} {actions : List Action}

/-- Every index of the log is still there, with its entry if that is above the snapshot. -/
def Extends (core core' : RaftCore) : Prop :=
  ∀ i ≤ core.lastLogIndex, i ≤ core'.lastLogIndex ∧
    (core'.lastIncludedIndex < i → core'.logEntryAt i = core.logEntryAt i)

/-- A snapshot of the node's own term, to an index inside its log that holds another term. -/
def Overrun (core : RaftCore) (request : Request) : Prop :=
  ∃ req, request = .message (.installSnapshot req) ∧ req.term = core.currentTerm ∧
    core.lastIncludedIndex < req.lastIncludedIndex ∧
    req.lastIncludedIndex < core.lastLogIndex ∧
    core.logTermAt req.lastIncludedIndex ≠ some req.lastIncludedTerm

theorem logEntryAt_congr (hbase : core'.base = core.base) (hlog : core'.log = core.log) (i : ℕ) :
    core'.logEntryAt i = core.logEntryAt i := by
  simp only [logEntryAt, (Point.mk.inj hbase).1, hlog]

/-- Above both snapshots the terms are those of the entries. -/
theorem logTermAt_of_entry {i : ℕ} (hlo : core.lastIncludedIndex < i)
    (hlo' : core'.lastIncludedIndex < i) (h : core'.logEntryAt i = core.logEntryAt i) :
    core'.logTermAt i = core.logTermAt i := by
  rw [logTermAt, logTermAt, if_neg (by omega), if_neg (by omega), if_neg (by omega),
    if_neg (by omega), h]

theorem Extends.keep (hb : core'.base = core.base) (hl : core'.log = core.log) :
    core.Extends core' := by
  intro i hi
  rw [lastLogIndex_congr hb hl]
  exact ⟨hi, fun _ => logEntryAt_congr hb hl i⟩

theorem Extends.push {entries : List LogEntry} (hb : core'.base = core.base)
    (hl : core'.log = core.log ++ entries) : core.Extends core' := by
  have hi : core'.lastIncludedIndex = core.lastIncludedIndex := congrArg Point.index hb
  intro i hle
  refine ⟨?_, fun hlo => ?_⟩
  · rw [lastLogIndex, hi, hl, List.length_append]
    unfold lastLogIndex at hle
    omega
  · have hlt : i - core.lastIncludedIndex - 1 < core.log.length := by
      unfold lastLogIndex at hle
      omega
    rw [logEntryAt, logEntryAt, hi, hl, List.getElem?_append_left hlt]

/-- Above a snapshot the entries stay where they are. -/
theorem logEntryAt_drop {k i : ℕ}
    (hi : core'.lastIncludedIndex = core.lastIncludedIndex + k) (hl : core'.log = core.log.drop k)
    (hlo : core'.lastIncludedIndex < i) : core'.logEntryAt i = core.logEntryAt i := by
  have hpos : k + (i - core'.lastIncludedIndex - 1) = i - core.lastIncludedIndex - 1 := by omega
  rw [logEntryAt, logEntryAt, if_neg (by omega), if_neg (by omega), hl, List.getElem?_drop, hpos]

theorem Extends.compact {k : ℕ} (hk : k ≤ core.log.length)
    (hb : core'.base = endPoint core.base (core.log.take k)) (hl : core'.log = core.log.drop k) :
    core.Extends core' := by
  have hi : core'.lastIncludedIndex = core.lastIncludedIndex + k := by
    rw [← base_index, hb, endPoint_index, List.length_take, min_eq_left hk, base_index]
  intro i hle
  refine ⟨?_, logEntryAt_drop hi hl⟩
  unfold lastLogIndex at hle
  rw [lastLogIndex, hi, hl, List.length_drop]
  omega

/-- A node that leads after an AppendEntries has turned it away. -/
theorem Outcome.leader_of_appendEntries {req : AppendEntriesRPC}
    (h : core.Outcome rnd (.message (.appendEntries req)) core' actions)
    (hl' : core'.state = .leader) : core'.base = core.base ∧ core'.log = core.log := by
  rcases h.appendEntries_cases with hkeep | hacc
  · exact hkeep
  · rw [hacc.frame.1] at hl'
    cases hl'

/-- Without a snapshot to install, a leader that stays one extends its log. -/
theorem Outcome.extends_of_leader (h : core.Outcome rnd request core' actions)
    (hl' : core'.state = .leader) (hreq : ∀ req, request ≠ .message (.installSnapshot req)) :
    core.Extends core' := by
  by_cases hae : ∃ req, request = .message (.appendEntries req)
  · obtain ⟨req, rfl⟩ := hae
    obtain ⟨hb, hlog⟩ := h.leader_of_appendEntries hl'
    exact .keep hb hlog
  · cases h.logMove fun req hr => absurd ⟨req, hr⟩ hae with
    | keep hb hl => exact .keep hb hl
    | push _ _ _ hb hl => exact .push hb hl
    | merge hm => exact absurd ⟨_, rfl⟩ hae
    | install => exact absurd rfl (hreq _)
    | compact _ hk _ hb hl => exact .compact hk hb hl

/-- A snapshot replaces the log by what lies below its index. -/
theorem extends_install_iff {req : InstallSnapshotRPC} :
    core.Extends (core'.install req) ↔ core.lastLogIndex ≤ req.lastIncludedIndex := by
  have hlast : (core'.install req).lastLogIndex = req.lastIncludedIndex := rfl
  constructor
  · intro h
    exact hlast ▸ (h _ le_rfl).1
  · intro h i hi
    rw [hlast]
    refine ⟨hi.trans h, fun hlt => ?_⟩
    have : req.lastIncludedIndex < i := hlt
    omega

/-- Leader Append-Only : a node that is leader of its term after a call, one that was leader
before in particular, keeps its log unless a snapshot of that term overruns it. -/
theorem extends_iff_not_overrun (hc : core.call rnd request = some (core', actions))
    (hl' : core'.state = .leader) (ht : core'.currentTerm = core.currentTerm) :
    core.Extends core' ↔ ¬core.Overrun request := by
  have ho := call_outcome hc
  by_cases hreq : ∃ req, request = .message (.installSnapshot req)
  · obtain ⟨req, rfl⟩ := hreq
    have hov : core.Overrun (.message (.installSnapshot req)) ↔ req.term = core.currentTerm ∧
        core.lastIncludedIndex < req.lastIncludedIndex ∧
        req.lastIncludedIndex < core.lastLogIndex ∧
        core.logTermAt req.lastIncludedIndex ≠ some req.lastIncludedTerm := by
      constructor
      · rintro ⟨r, hr, h⟩
        cases hr
        exact h
      · exact fun h => ⟨req, rfl, h⟩
    have hb := termChecked_base core req.term rnd
    have hlog := termChecked_log core req.term rnd
    rw [hov]
    cases ho with
    | staleSnapshot hlt => exact iff_of_true (.keep rfl rfl) fun h => by omega
    | oldSnapshot _ hi => exact iff_of_true (.keep hb hlog) fun h => by omega
    | haveSnapshot _ _ hh => exact iff_of_true (.keep hb hlog) fun h => h.2.2.2 hh
    | installSnapshot hle hi hh =>
      have hterm : req.term = core.currentTerm := by
        have : max core.currentTerm req.term = core.currentTerm :=
          (termChecked_currentTerm core req.term rnd).symm.trans ht
        omega
      rw [extends_install_iff]
      constructor
      · rintro h ⟨-, -, hlt, -⟩
        omega
      · intro h
        by_contra hlt
        exact h ⟨hterm, hi, Nat.not_le.mp hlt, hh⟩
  · refine iff_of_true (ho.extends_of_leader hl' fun req hr => hreq ⟨req, hr⟩) ?_
    rintro ⟨req, hr, -⟩
    exact hreq ⟨req, hr⟩

/-- The leader of term 2 with a proposed entry behind its dummy. -/
def secondTermLeader : Option RaftCore := do
  let core := RaftCore.new 1 [1, 2, 3] (some 1) (1, 2) 1
  let (core, _) ← core.call 1 .tick
  let (core, _) ← core.call 1 .tick
  let (core, _) ← core.call 1 (.message (.requestVoteResponse ⟨2, 2, true⟩))
  let (core, _) ← core.call 1 (.propose [7])
  some core

/-- A call of that leader with decidable facts about it, by computation. -/
theorem exists_call_of_any (request : Request) (P : RaftCore → RaftCore → Prop)
    [∀ core core', Decidable (P core core')]
    (h : (secondTermLeader.any fun core => (core.call 1 request).any fun r => P core r.1) = true) :
    ∃ core core' actions, secondTermLeader = some core ∧
      core.call 1 request = some (core', actions) ∧ P core core' := by
  obtain ⟨core, hcore, hr⟩ := (Option.any_eq_true _ _).mp h
  obtain ⟨⟨core', actions⟩, hc, hP⟩ := (Option.any_eq_true _ _).mp hr
  exact ⟨core, core', actions, hcore, hc, of_decide_eq_true hP⟩

theorem extends_iff_not_overrun_propose : ∃ core core' actions, secondTermLeader = some core ∧
    core.state = .leader ∧ core.call 1 (.propose [8]) = some (core', actions) ∧
    core.lastLogIndex = 2 ∧ core'.lastLogIndex = 3 ∧ core.Extends core' := by
  obtain ⟨core, core', actions, hcore, hc, hl, hl', ht, h2, h3⟩ :=
    exists_call_of_any (.propose [8]) (fun core core' => core.state = .leader ∧
      core'.state = .leader ∧ core'.currentTerm = core.currentTerm ∧ core.lastLogIndex = 2 ∧
      core'.lastLogIndex = 3) (by decide +kernel)
  refine ⟨core, core', actions, hcore, hl, hc, h2, h3, ?_⟩
  rw [extends_iff_not_overrun hc hl' ht]
  rintro ⟨req, hr, -⟩
  cases hr

/-- Another leader of term 2 sends a snapshot that ends with an entry of term 1 : the leader
takes it, stays leader and is left with an empty log. -/
theorem leader_overrun : ∃ core core' actions, secondTermLeader = some core ∧
    core.state = .leader ∧
    core.call 1 (.message (.installSnapshot ⟨2, 3, 1, 1, []⟩)) = some (core', actions) ∧
    core'.state = .leader ∧ core'.currentTerm = core.currentTerm ∧ ¬core.Extends core' := by
  obtain ⟨core, core', actions, hcore, hc, hl, hl', ht, h2, h1⟩ :=
    exists_call_of_any (.message (.installSnapshot ⟨2, 3, 1, 1, []⟩)) (fun core core' =>
      core.state = .leader ∧ core'.state = .leader ∧ core'.currentTerm = core.currentTerm ∧
      core.lastLogIndex = 2 ∧ core'.lastLogIndex = 1) (by decide +kernel)
  refine ⟨core, core', actions, hcore, hl, hc, hl', ht, fun h => ?_⟩
  have hlast := (h 2 h2.ge).1
  omega

end RaftCore

end FerrisFerry
