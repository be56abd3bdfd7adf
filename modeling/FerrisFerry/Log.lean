import FerrisFerry.Emit

/-!
# What a call does to the log

`RaftCore.LogMove` says what a call does to the log and the snapshot point of a node : keep
them, append an entry as the leader, merge a request, replace all by a snapshot, or drop a
prefix behind a snapshot. `RaftCore.Outcome.logMove` : every call is one of these moves,
given that a request whose previous index is `0` meets a node without a snapshot
(`RaftCore.Grounded`). Such a request is never compared with the log, and on a compacted
node the merge would count from the wrong end.

Under the same condition the persist actions of a call rebuild its log on disk
(`Mirror.LogOf.afterCall`).
-/

namespace FerrisFerry

/-! ## Paths -/

/-- The points along a path. -/
theorem endPoint_take_succ (p : Point) {es : List LogEntry} {i : ℕ} (h : i < es.length) :
    endPoint p (es.take (i + 1)) = ⟨p.index + i + 1, es[i].term⟩ := by
  rw [List.take_add_one, List.getElem?_eq_getElem h, endPoint_append]
  simp only [Option.toList_some, endPoint_cons, endPoint_nil, endPoint_index, List.length_take,
    min_eq_left h.le]

theorem mem_pathLinks {p : Point} {es : List LogEntry} {l : Point × Point × Bytes} :
    l ∈ pathLinks p es ↔ ∃ i, ∃ h : i < es.length,
      l = (endPoint p (es.take i), ⟨p.index + i + 1, es[i].term⟩, es[i].command) := by
  induction es generalizing p with
  | nil => simp
  | cons e es ih =>
    rw [pathLinks_cons, List.mem_cons, ih]
    constructor
    · rintro (rfl | ⟨i, hi, rfl⟩)
      · exact ⟨0, by simp, rfl⟩
      · refine ⟨i + 1, by simpa using hi, ?_⟩
        simp only [List.take_succ_cons, endPoint_cons, List.getElem_cons_succ, Prod.mk.injEq,
          Point.mk.injEq, and_true, true_and]
        omega
    · rintro ⟨i, hi, rfl⟩
      cases i with
      | zero => exact Or.inl rfl
      | succ i =>
        refine Or.inr ⟨i, by simpa using hi, ?_⟩
        simp only [List.take_succ_cons, endPoint_cons, List.getElem_cons_succ, Prod.mk.injEq,
          Point.mk.injEq, and_true, true_and]
        omega

/-- Every entry of a path from `p` is one of the links `L`. -/
def PathIn (L : Point → Point → Bytes → Prop) (p : Point) (es : List LogEntry) : Prop :=
  ∀ l ∈ pathLinks p es, L l.1 l.2.1 l.2.2

namespace PathIn

variable {L L' : Point → Point → Bytes → Prop} {p : Point} {es es' : List LogEntry}

theorem nil (L : Point → Point → Bytes → Prop) (p : Point) : PathIn L p [] := by
  intro l hl
  simp at hl

theorem mono (h : PathIn L p es) (hL : ∀ p q a, L p q a → L' p q a) : PathIn L' p es :=
  fun l hl => hL _ _ _ (h l hl)

theorem append_iff : PathIn L p (es ++ es') ↔ PathIn L p es ∧ PathIn L (endPoint p es) es' := by
  simp only [PathIn, pathLinks_append, List.mem_append, or_imp, forall_and]

theorem take (h : PathIn L p es) (i : ℕ) : PathIn L p (es.take i) := by
  rw [← List.take_append_drop i es] at h
  exact (append_iff.mp h).1

theorem drop (h : PathIn L p es) (i : ℕ) : PathIn L (endPoint p (es.take i)) (es.drop i) := by
  rw [← List.take_append_drop i es] at h
  exact (append_iff.mp h).2

/-- The end of a path is its start or the end of a link. -/
theorem end_cases (h : PathIn L p es) : es = [] ∨ ∃ q a, L q (endPoint p es) a := by
  rcases List.eq_nil_or_concat es with rfl | ⟨es₀, e, rfl⟩
  · exact Or.inl rfl
  · rw [List.concat_eq_append] at h ⊢
    have hl := (append_iff.mp h).2 _ List.mem_cons_self
    rw [endPoint_append]
    exact Or.inr ⟨_, _, hl⟩

/-- Terms do not decrease along a path. -/
theorem term_le (h : PathIn L p es) (hL : ∀ p q a, L p q a → p.term ≤ q.term) :
    p.term ≤ (endPoint p es).term := by
  induction es generalizing p with
  | nil => exact le_rfl
  | cons e es ih =>
    rw [PathIn, pathLinks_cons, List.forall_mem_cons] at h
    exact (hL _ _ _ h.1).trans (ih h.2)

end PathIn

/-! ## Moves -/

namespace RaftCore

variable {core core' : RaftCore} {rnd : ℕ} {request : Request} {actions : List Action}

theorem take_of_mergedAt {log log' es : List LogEntry} {m : ℕ} (h : MergedAt log m es log') :
    log'.take m = log.take m := by
  rcases h with ⟨rfl, -⟩ | ⟨k, -, hle, rfl, -, -⟩
  · rfl
  · rw [List.take_append_of_le_length (by rw [List.length_take]; omega), List.take_take,
      min_eq_left (by omega)]

theorem mergedAt_nil {log log' : List LogEntry} {m : ℕ} (h : MergedAt log m [] log') :
    log' = log := by
  rcases h with ⟨rfl, -⟩ | ⟨k, hk, -⟩
  · rfl
  · simp at hk

/-- Where the points of the log and of the request meet, the merged log is a path again, and
the request ends on it. -/
theorem MergedAt.path {L : Point → Point → Bytes → Prop} {b p : Point}
    {log log' es : List LogEntry} {m : ℕ} (h : MergedAt log m es log') (hlog : PathIn L b log)
    (hes : PathIn L p es) (hm : m ≤ log.length) (hp : endPoint b (log.take m) = p) :
    PathIn L b log' ∧ (∃ j ≤ log'.length, endPoint b (log'.take j) = endPoint p es) ∧
      (log' = log ∨ endPoint b log' = endPoint p es) := by
  subst hp
  have hadd : ∀ k, log.take (m + k) = log.take m ++ (log.drop m).take k := fun k => List.take_add
  rcases h with ⟨rfl, ht⟩ | ⟨k, hk, hle, rfl, ht, -⟩
  · refine ⟨hlog, ⟨m + es.length, ?_, ?_⟩, Or.inl rfl⟩
    · have := congrArg List.length ht
      simp only [List.length_map, List.length_take, List.length_drop] at this
      omega
    · rw [hadd, endPoint_append, endPoint_congr ht]
  · have hmeet :
        endPoint b (log.take (m + k)) = endPoint (endPoint b (log.take m)) (es.take k) := by
      rw [hadd, endPoint_append, endPoint_congr ht]
    have hend : endPoint b (log.take (m + k) ++ es.drop k) =
        endPoint (endPoint b (log.take m)) es := by
      rw [endPoint_append, hmeet, ← endPoint_append, List.take_append_drop]
    refine ⟨PathIn.append_iff.mpr ⟨hlog.take _, ?_⟩, ⟨_, le_rfl, ?_⟩, Or.inr hend⟩
    · rw [hmeet]
      exact hes.drop k
    · rw [List.take_length, hend]

/-- The request passes the checks of its term, of the node's role and of the previous entry. -/
def Heeds (core : RaftCore) (req : AppendEntriesRPC) : Prop :=
  core.currentTerm ≤ req.term ∧ (core.state = .leader → core.currentTerm < req.term) ∧
    core.appendEntriesValid req = true

instance (core : RaftCore) (req : AppendEntriesRPC) : Decidable (core.Heeds req) :=
  inferInstanceAs (Decidable (_ ∧ _ ∧ _))

theorem Accepts.heeds {req : AppendEntriesRPC} (h : core.Accepts rnd req core') :
    core.Heeds req := by
  refine ⟨h.term_le, fun hs => Nat.lt_of_not_le fun hle => h.not_leader ?_, h.valid⟩
  rwa [termChecked_of_le hle]

/-- A request that is accepted unread, its previous index being `0`, meets a node without a
snapshot. -/
def Grounded (core : RaftCore) (request : Request) : Prop :=
  ∀ req, request = .message (.appendEntries req) → core.Heeds req → req.prevLogIndex = 0 →
    core.lastIncludedIndex = 0

/-- The same for requests with entries. -/
def GroundedEntries (core : RaftCore) (request : Request) : Prop :=
  ∀ req, request = .message (.appendEntries req) → core.Heeds req → req.entries ≠ [] →
    req.prevLogIndex = 0 → core.lastIncludedIndex = 0

theorem Grounded.entries {request : Request} (h : core.Grounded request) :
    core.GroundedEntries request :=
  fun req hr hheeds _ => h req hr hheeds

/-- If the core leads, it led the same term before. -/
def StillLeads (core' core : RaftCore) : Prop :=
  core'.state = .leader → core.state = .leader ∧ core'.currentTerm = core.currentTerm

theorem stillLeads_of_termChecked {t : ℕ}
    (ht : core'.currentTerm = (core.termChecked t rnd).currentTerm)
    (hs : core'.state = .leader → (core.termChecked t rnd).state = .leader) :
    core'.StillLeads core := by
  intro hl
  have hl' := hs hl
  have hle : t ≤ core.currentTerm := le_of_termChecked_state (by rw [hl']; simp)
  rw [termChecked_of_le hle] at hl' ht
  exact ⟨hl', ht⟩

theorem leader_of_follow {leaderId : NodeId} (h : (core.follow leaderId rnd).state = .leader) :
    core.state = .leader := by
  unfold follow at h
  dsimp only at h
  split_ifs at h
  exact h

theorem follow_state_of_ne_leader (leaderId : NodeId) (rnd : ℕ) (h : core.state ≠ .leader) :
    (core.follow leaderId rnd).state = .follower := by
  change (if core.state = .candidate then RaftState.follower else core.state) = .follower
  cases hs : core.state with
  | leader => exact absurd hs h
  | follower => rfl
  | candidate => rfl

/-- A follower takes over the entries of a request from a position `m` of its log on. -/
structure Merges (core : RaftCore) (req : AppendEntriesRPC) (core' : RaftCore) : Prop where
  state : core'.state = .follower
  term_le : core.currentTerm ≤ req.term
  term_eq : core'.currentTerm = req.term
  base_eq : core'.base = core.base
  merged : ∃ m ≤ core.log.length, req.prevLogIndex = core.lastIncludedIndex + m ∧
    (req.prevLogIndex = 0 ∨
      endPoint core.base (core.log.take m) = ⟨req.prevLogIndex, req.prevLogTerm⟩) ∧
    MergedAt core.log m req.entries core'.log

/-- What a call does to the log and the snapshot point. -/
inductive LogMove (core : RaftCore) : Request → RaftCore → Prop
  | keep {request : Request} {core' : RaftCore} (hb : core'.base = core.base)
      (hl : core'.log = core.log) (hs : core'.StillLeads core) : LogMove core request core'
  /-- A leader, or a candidate that wins, appends an entry of its term. -/
  | push {request : Request} {core' : RaftCore} {command : Bytes} (hs : core.state ≠ .follower)
      (hs' : core'.state = .leader) (ht : core'.currentTerm = core.currentTerm)
      (hb : core'.base = core.base) (hl : core'.log = core.log ++ [⟨core.currentTerm, command⟩]) :
    LogMove core request core'
  /-- A follower takes over the entries of a request. -/
  | merge {req : AppendEntriesRPC} {core' : RaftCore} (h : core.Merges req core') :
    LogMove core (.message (.appendEntries req)) core'
  /-- A snapshot whose point is not on the log replaces it. -/
  | install {req : InstallSnapshotRPC} {core' : RaftCore} (ht : core.currentTerm ≤ req.term)
      (ht' : core'.currentTerm = req.term)
      (hs' : core'.state = .follower ∨ core'.state = core.state ∧ req.term = core.currentTerm)
      (hi : core.lastIncludedIndex < req.lastIncludedIndex)
      (hh : core.logTermAt req.lastIncludedIndex ≠ some req.lastIncludedTerm)
      (hb : core'.base = ⟨req.lastIncludedIndex, req.lastIncludedTerm⟩) (hl : core'.log = []) :
    LogMove core (.message (.installSnapshot req)) core'
  /-- The first `k` entries, applied all, go into a local snapshot. -/
  | compact {data : Bytes} {core' : RaftCore} {k : ℕ} (h0 : 0 < k) (hk : k ≤ core.log.length)
      (hi : core.lastApplied = core.lastIncludedIndex + k)
      (hb : core'.base = endPoint core.base (core.log.take k))
      (hl : core'.log = core.log.drop k) (hs : core'.StillLeads core) :
    LogMove core (.snapshot data) core'

/-- The position of a valid request in the log. -/
theorem position_of_valid {req : AppendEntriesRPC} (hv : core.appendEntriesValid req = true)
    (hg : req.prevLogIndex = 0 → core.lastIncludedIndex = 0) :
    ∃ m ≤ core.log.length, req.prevLogIndex = core.lastIncludedIndex + m ∧
      (req.prevLogIndex = 0 ∨
        endPoint core.base (core.log.take m) = ⟨req.prevLogIndex, req.prevLogTerm⟩) := by
  rw [appendEntriesValid, decide_eq_true_iff] at hv
  rcases hv with h0 | ⟨-, ht⟩
  · have := hg h0
    exact ⟨0, Nat.zero_le _, by omega, Or.inl h0⟩
  · obtain ⟨hlo, hhi, hp⟩ := logTermAt_eq_some.mp ht
    unfold lastLogIndex at hhi
    exact ⟨req.prevLogIndex - core.lastIncludedIndex, by omega, by omega, Or.inr hp⟩

/-- An accepted request without entries leaves the log as it is. -/
theorem acceptEntries_nil {req : AppendEntriesRPC}
    (h : core.acceptEntries req = some (core', actions)) (hnil : req.entries = []) :
    core'.log = core.log ∧ core'.base = core.base ∧
      ∀ a ∈ actions, (∃ i command, a = .applyToStateMachine i command) ∨
        a = .sendMessage req.leaderId (.appendEntriesResponse core'.acceptance) := by
  obtain ⟨merged, persist, applies, hme, -, hF, hp, rfl⟩ := acceptEntries_spec h
  obtain rfl : core = merged := by simpa [hnil, mergeEntries] using hme
  have hf := hF.frame
  refine ⟨by rw [hf], by rw [hf]; rfl, fun a ha => ?_⟩
  rcases hp with ⟨-, rfl⟩ | ⟨hne, -⟩
  · rcases List.mem_append.mp ha with ha | ha
    · rcases hF.commit with ⟨-, -, -, rfl⟩ | ⟨-, -, -, entries, hs, rfl⟩
      · simp at ha
      · obtain ⟨i, e, rfl, -⟩ := mem_applyActions hs ha
        exact Or.inl ⟨i, e.command, rfl⟩
    · exact Or.inr (List.mem_singleton.mp ha)
  · exact absurd hnil hne

/-- An accepted request, as a merge at its position. -/
theorem acceptEntries_merged {req : AppendEntriesRPC} {m : ℕ}
    (h : core.acceptEntries req = some (core', actions))
    (hm : req.prevLogIndex = core.lastIncludedIndex + m) (hle : m ≤ core.log.length) :
    core'.base = core.base ∧ core'.currentTerm = core.currentTerm ∧ core'.state = core.state ∧
      MergedAt core.log m req.entries core'.log ∧
      ∃ persist rest, actions = persist ++ rest ∧
        (∀ a ∈ rest, (∃ i command, a = .applyToStateMachine i command) ∨
          a = .sendMessage req.leaderId (.appendEntriesResponse core'.acceptance)) ∧
        (core'.log = core.log ∧ persist = [] ∨
          persist = [.persistLogEntries (req.prevLogIndex + 1) (core'.log.drop m)]) := by
  obtain ⟨merged, persist, applies, hme, hfr, hF, hp, rfl⟩ := acceptEntries_spec h
  have hf := hF.frame
  rw [hfr] at hf
  have hM := (mergeEntries_spec _ hme (by omega) (by unfold lastLogIndex; omega)).2
  have hpos : req.prevLogIndex + 1 - core.lastIncludedIndex - 1 = m := by omega
  have hlog : merged.log = core'.log := by rw [hfr]
  rw [hpos, hlog] at hM
  refine ⟨by rw [hf]; rfl, by rw [hf], by rw [hf], hM, persist, _, List.append_assoc _ _ _,
    fun a ha => ?_, ?_⟩
  · rcases List.mem_append.mp ha with ha | ha
    · rcases hF.commit with ⟨-, -, -, rfl⟩ | ⟨-, -, -, entries, -, rfl⟩
      · simp at ha
      · obtain ⟨j, hj, rfl⟩ := List.mem_mapIdx.mp ha
        exact Or.inl ⟨_, _, rfl⟩
    · exact Or.inr (List.mem_singleton.mp ha)
  · rcases hp with ⟨he, rfl⟩ | ⟨he, entries, hsl, rfl⟩
    · rw [he] at hM
      exact Or.inl ⟨mergedAt_nil hM, rfl⟩
    · -- the slice from the request on is the merged log from its position on
      have hlen : m ≤ merged.log.length := by
        rw [hlog]
        have := congrArg List.length (take_of_mergedAt hM)
        simp only [List.length_take] at this
        omega
      have hi : merged.lastIncludedIndex = core.lastIncludedIndex := by rw [hfr]
      rw [logSlice_end (by omega) (by unfold lastLogIndex; omega), hi, hpos, hlog] at hsl
      rw [← Option.some.inj hsl]
      exact Or.inr rfl

theorem Accepts.merges {req : AppendEntriesRPC} (h : core.Accepts rnd req core')
    (hg : req.prevLogIndex = 0 → core.lastIncludedIndex = 0) : core.Merges req core' := by
  obtain ⟨ht, hl, hv, accepted, ha⟩ := h
  obtain ⟨m, hle, hm, hp⟩ := position_of_valid hv hg
  have hbase := termChecked_base core req.term rnd
  have hi := congrArg Point.index hbase
  have hlog := termChecked_log core req.term rnd
  obtain ⟨hb, ht', hs, hM, -⟩ := acceptEntries_merged ha
    (hm.trans (congrArg (· + m) hi.symm)) (by rw [← hlog] at hle; exact hle)
  refine ⟨?_, ht, ?_, hb.trans hbase, m, hle, hm, hp, hlog ▸ hM⟩
  · rw [hs]
    exact follow_state_of_ne_leader _ _ hl
  · rw [ht', follow]
    exact (termChecked_currentTerm core _ rnd).trans (max_eq_right ht)

/-- A request with entries and without a previous one, on a node that has compacted one entry :
the first entry is the compacted one, and the rest goes on behind it. Everywhere else the
merge panics. -/
theorem mergeEntries_compacted {e : LogEntry} {es : List LogEntry}
    (h : core.mergeEntries 1 (e :: es) = some core') (hi : core.lastIncludedIndex ≠ 0) :
    core.lastIncludedIndex = 1 ∧ core.lastIncludedTerm = e.term ∧
      core.mergeEntries 2 es = some core' := by
  rw [mergeEntries, if_pos (by unfold lastLogIndex; omega)] at h
  rcases Nat.lt_or_ge 1 core.lastIncludedIndex with hlt | hge
  · rw [show core.logTermAt 1 = none from if_pos hlt] at h
    cases h
  · have h1 : core.lastIncludedIndex = 1 := by omega
    have ht : core.logTermAt 1 = some core.lastIncludedTerm := h1 ▸ core.logTermAt_base
    have hsub : checkedSub 1 (core.lastIncludedIndex + 1) = none := if_neg (by omega)
    simp only [ht, hsub] at h
    split_ifs at h with hne
    exact ⟨h1, not_not.mp hne, h⟩

/-- A request leaves the log alone unless it is accepted. -/
theorem Outcome.appendEntries_cases {req : AppendEntriesRPC}
    (h : core.Outcome rnd (.message (.appendEntries req)) core' actions) :
    core'.base = core.base ∧ core'.log = core.log ∨ core.Accepts rnd req core' := by
  cases h with
  | rejectAppend => exact Or.inl ⟨termChecked_base core _ rnd, termChecked_log core _ rnd⟩
  | conflictAppend => exact Or.inl ⟨termChecked_base core _ rnd, termChecked_log core _ rnd⟩
  | acceptAppend ht hl hv ha => exact Or.inr ⟨ht, hl, hv, _, ha⟩

/-- Who accepts a request follows in its term. -/
theorem Accepts.frame {req : AppendEntriesRPC} (h : core.Accepts rnd req core') :
    core'.state = .follower ∧ core'.currentTerm = req.term ∧ core'.base = core.base := by
  obtain ⟨ht, hl, -, accepted, ha⟩ := h
  rw [acceptEntries_frame ha]
  exact ⟨follow_state_of_ne_leader req.leaderId rnd hl,
    (termChecked_currentTerm core _ rnd).trans (max_eq_right ht), termChecked_base core _ rnd⟩

/-- Every call moves the log in one of these ways. -/
theorem Outcome.logMove (h : core.Outcome rnd request core' actions) (hg : core.Grounded request) :
    core.LogMove request core' := by
  cases h with
  | append hl hs => exact .push (by simp [hl]) hl rfl rfl rfl
  | win ht hc hg hq hs => exact .push (by simp [hc]) rfl rfl rfl rfl
  | acceptAppend ht hl hv ha =>
    have hacc : core.Accepts rnd _ core' := ⟨ht, hl, hv, _, ha⟩
    exact .merge (hacc.merges (hg _ rfl hacc.heeds))
  | @installSnapshot req ht hi hh =>
    refine .install ht ?_ ?_ hi hh rfl rfl
    · exact (termChecked_currentTerm core _ rnd).trans (max_eq_right ht)
    · rcases Nat.lt_or_ge core.currentTerm req.term with hlt | hge
      · rw [termChecked_of_lt hlt]
        exact Or.inl rfl
      · rw [termChecked_of_le hge]
        by_cases hc : core.state = .candidate
        · exact Or.inl (if_pos hc)
        · exact Or.inr ⟨if_neg hc, by omega⟩
  | compact hp hc =>
    rcases completeSnapshot_spec hp hc with ⟨-, rfl⟩ | ⟨k, h0, hk, hi, hpt, rfl⟩
    · exact .keep rfl rfl fun h => ⟨h, rfl⟩
    · exact .compact h0 hk hi hpt.symm rfl fun h => ⟨h, rfl⟩
  | barrier =>
    unfold requestReadBarrier
    split_ifs <;> exact .keep rfl rfl fun h => ⟨h, rfl⟩
  | success hs hr =>
    have hf := (recordSuccess_spec hr).frame
    refine .keep ?_ ?_ (stillLeads_of_termChecked (by rw [hf]) fun h => by rwa [hf] at h)
    · rw [hf]
      exact termChecked_base core _ rnd
    · rw [hf]
      exact termChecked_log core _ rnd
  | stand => exact .keep rfl rfl fun h => by cases h
  | wait | heartbeat | refuse | collectVote | staleSnapshot | recordSnapshotResponse =>
    exact .keep rfl rfl fun h => ⟨h, rfl⟩
  | conflictAppend | oldSnapshot | haveSnapshot =>
    exact .keep (termChecked_base core _ rnd) (termChecked_log core _ rnd)
      (stillLeads_of_termChecked rfl leader_of_follow)
  | _ =>
    exact .keep (termChecked_base core _ rnd) (termChecked_log core _ rnd)
      (stillLeads_of_termChecked rfl fun h => h)

end RaftCore

/-! ## The durable log -/

/-- The actions that touch neither the log nor the snapshot on disk. -/
def Action.KeepsLog : Action → Prop
  | .persistLogEntries _ _ => False
  | .installSnapshot _ _ _ => False
  | _ => True

theorem Action.Leading.keepsLog {a : Action} (h : a.Leading) : a.KeepsLog := by
  cases a with
  | sendMessage | sendInstallSnapshot => trivial
  | _ => exact h.elim

namespace Mirror

variable {m : Mirror} {core core' : RaftCore} {rnd : ℕ} {request : Request}
  {actions : List Action}

/-- The snapshot point on disk. -/
def base (m : Mirror) : Point :=
  ⟨m.lastIncludedIndex, m.lastIncludedTerm⟩

/-- The log and the snapshot point on disk are those of the core. -/
def LogOf (m : Mirror) (core : RaftCore) : Prop :=
  m.log = core.log ∧ m.base = core.base

theorem replay_keepsLog (m : Mirror) {actions : List Action} (h : ∀ a ∈ actions, a.KeepsLog) :
    (m.replay actions).log = m.log ∧ (m.replay actions).base = m.base ∧
      (m.replay actions).snapshot = m.snapshot := by
  induction actions generalizing m with
  | nil => exact ⟨rfl, rfl, rfl⟩
  | cons a actions ih =>
    obtain ⟨h1, h2, h3⟩ := ih (m.apply a) fun b hb => h b (List.mem_cons_of_mem a hb)
    have ha := h a List.mem_cons_self
    have hm : (m.apply a).log = m.log ∧ (m.apply a).base = m.base ∧
        (m.apply a).snapshot = m.snapshot := by
      cases a with
      | persistLogEntries | installSnapshot => exact ha.elim
      | _ => exact ⟨rfl, rfl, rfl⟩
    exact ⟨h1.trans hm.1, h2.trans hm.2.1, h3.trans hm.2.2⟩

/-- The stored snapshot changes by an install only. -/
theorem replay_snapshot (m : Mirror) {actions : List Action}
    (h : ∀ i l data, .installSnapshot i l data ∉ actions) :
    (m.replay actions).snapshot = m.snapshot := by
  induction actions generalizing m with
  | nil => rfl
  | cons a actions ih =>
    refine (ih (m.apply a) fun i l data hm => h i l data (List.mem_cons_of_mem a hm)).trans ?_
    cases a with
    | installSnapshot i l data => exact absurd List.mem_cons_self (h i l data)
    | _ => rfl

theorem LogOf.keep (hm : m.LogOf core) (h : ∀ a ∈ actions, a.KeepsLog)
    (hl : core'.log = core.log) (hb : core'.base = core.base) : (m.replay actions).LogOf core' := by
  obtain ⟨h1, h2, -⟩ := m.replay_keepsLog h
  exact ⟨h1.trans (hm.1.trans hl.symm), h2.trans (hm.2.trans hb.symm)⟩

theorem keepsLog_of_termActions {t : ℕ} {a : Action} (ha : a ∈ core.termActions t) :
    a.KeepsLog := by
  unfold RaftCore.termActions at ha
  split_ifs at ha
  · obtain rfl := List.mem_singleton.mp ha
    trivial
  · simp at ha

theorem LogOf.termActions (hm : m.LogOf core) (t : ℕ) :
    (m.replay (core.termActions t)).LogOf core :=
  hm.keep (fun _ => keepsLog_of_termActions) rfl rfl

/-- The appended entry of a leader on disk. -/
theorem LogOf.push {e : LogEntry} {sends : List Action} (hm : m.LogOf core)
    (hs : ∀ a ∈ sends, a.KeepsLog) (hb : core'.base = core.base)
    (hl : core'.log = core.log ++ [e]) :
    (m.replay (.persistLogEntries (core.lastLogIndex + 1) [e] :: sends)).LogOf core' := by
  obtain ⟨hlog, hbase⟩ := hm
  have hi : m.lastIncludedIndex = core.lastIncludedIndex := congrArg Point.index hbase
  have hlen : core.lastLogIndex + 1 - m.lastIncludedIndex - 1 = core.log.length := by
    rw [hi, RaftCore.lastLogIndex]
    omega
  have happly : (m.apply (.persistLogEntries (core.lastLogIndex + 1) [e])).LogOf core' := by
    refine ⟨?_, hbase.trans hb.symm⟩
    rw [apply, hlen, hlog, List.take_length, hl]
  exact happly.keep hs rfl rfl

/-- The merged entries of a request on disk. -/
theorem LogOf.merge {req : AppendEntriesRPC} {k : ℕ} (hm : m.LogOf core)
    (h : core.acceptEntries req = some (core', actions))
    (hk : req.prevLogIndex = core.lastIncludedIndex + k) (hle : k ≤ core.log.length) :
    (m.replay actions).LogOf core' := by
  obtain ⟨hb, -, -, hM, persist, rest, rfl, hrest, hp⟩ := RaftCore.acceptEntries_merged h hk hle
  have hkeep : ∀ a ∈ rest, a.KeepsLog := by
    intro a ha
    rcases hrest a ha with ⟨i, command, rfl⟩ | rfl <;> trivial
  rcases hp with ⟨hl, rfl⟩ | rfl
  · exact hm.keep hkeep hl hb
  · obtain ⟨hlog, hbase⟩ := hm
    have hi : m.lastIncludedIndex = core.lastIncludedIndex := congrArg Point.index hbase
    have hpos : req.prevLogIndex + 1 - m.lastIncludedIndex - 1 = k := by omega
    have happly : (m.apply (.persistLogEntries (req.prevLogIndex + 1)
        (core'.log.drop k))).LogOf core' := by
      refine ⟨?_, hbase.trans hb.symm⟩
      rw [apply, hpos, hlog, ← RaftCore.take_of_mergedAt hM, List.take_append_drop]
    exact happly.keep hkeep rfl rfl

/-- A local snapshot on disk. -/
theorem LogOf.storeSnapshot {metadata : SnapshotMetadata} (hm : m.LogOf core) (data : Bytes)
    (hp : core.prepareSnapshot = some metadata) (hc : core.completeSnapshot metadata = some core') :
    (m.storeSnapshot metadata data).LogOf core' := by
  obtain ⟨hla, ht⟩ := RaftCore.prepareSnapshot_eq_some.mp hp
  obtain ⟨-, -, hpt⟩ := RaftCore.logTermAt_eq_some.mp ht
  have hi : m.lastIncludedIndex = core.lastIncludedIndex := congrArg Point.index hm.2
  have hbase : (m.storeSnapshot metadata data).base =
      ⟨core.lastApplied, metadata.lastAppliedTerm⟩ := by
    rw [← hla]
    rfl
  rcases RaftCore.completeSnapshot_spec hp hc with ⟨heq, rfl⟩ | ⟨k, -, -, hk, -, rfl⟩
  · refine ⟨?_, hbase.trans ?_⟩
    · rw [Mirror.storeSnapshot, hla, heq, hi, Nat.sub_self]
      exact hm.1
    · rw [← hpt, heq, Nat.sub_self]
      rfl
  · refine ⟨?_, hbase⟩
    rw [Mirror.storeSnapshot, hla, hk, hi, Nat.add_sub_cancel_left, hm.1]

/-- A call leaves its log and snapshot point on disk. -/
theorem LogOf.afterCall (hm : m.LogOf core) (h : core.Outcome rnd request core' actions)
    (hg : core.GroundedEntries request) : (m.afterCall core request actions).LogOf core' := by
  have hterm : ∀ {t : ℕ} {rest : List Action}, (∀ a ∈ rest, a.KeepsLog) →
      ∀ a ∈ core.termActions t ++ rest, a.KeepsLog := fun hr a ha =>
    (List.mem_append.mp ha).elim keepsLog_of_termActions (hr a)
  have hchecked : ∀ (t : ℕ) {c : RaftCore}, c.log = (core.termChecked t rnd).log →
      c.base = (core.termChecked t rnd).base → ∀ {rest : List Action},
      (∀ a ∈ rest, a.KeepsLog) → (m.replay (core.termActions t ++ rest)).LogOf c :=
    fun t c hl hb rest hr => hm.keep (hterm hr) (hl.trans (RaftCore.termChecked_log core t rnd))
      (hb.trans (RaftCore.termChecked_base core t rnd))
  cases h with
  | wait | refuse | collectVote | recordSnapshotResponse => exact hm
  | barrier =>
    refine hm.keep (by simp) ?_ ?_ <;> unfold RaftCore.requestReadBarrier <;> split_ifs <;> rfl
  | heartbeat hl hs =>
    exact hm.keep (fun a ha => (RaftCore.leading_of_appendEntries hs ha).keepsLog) rfl rfl
  | stand hl =>
    refine hm.keep (fun a ha => ?_) rfl rfl
    rcases List.mem_cons.mp ha with rfl | ha
    · trivial
    · obtain ⟨peer, -, rfl⟩ := List.mem_map.mp ha
      trivial
  | append _ hs | win _ _ _ _ hs =>
    exact hm.push (fun a ha => (RaftCore.leading_of_appendEntries hs ha).keepsLog) rfl rfl
  | compact hp hc =>
    simp only [Mirror.afterCall, hp]
    exact hm.storeSnapshot _ hp hc
  | @acceptAppend req _ _ ht hl hv ha =>
    by_cases hnil : req.entries = []
    · obtain ⟨hlog, hbase, hrest⟩ := RaftCore.acceptEntries_nil ha hnil
      refine hchecked _ hlog hbase fun a ha => ?_
      rcases hrest a ha with ⟨i, command, rfl⟩ | rfl <;> trivial
    have hacc : core.Accepts rnd req core' := ⟨ht, hl, hv, _, ha⟩
    obtain ⟨k, hle, hk, -⟩ := RaftCore.position_of_valid hv (hg _ rfl hacc.heeds hnil)
    have hbase := RaftCore.termChecked_base core req.term rnd
    have hlog := RaftCore.termChecked_log core req.term rnd
    have hm' : (m.replay (core.termActions req.term)).LogOf
        ((core.termChecked req.term rnd).follow req.leaderId rnd) :=
      hm.keep (fun _ => keepsLog_of_termActions) hlog hbase
    change (m.replay (core.termActions req.term ++ _)).LogOf _
    rw [Mirror.replay, List.foldl_append]
    exact hm'.merge ha (hk.trans (congrArg (· + k) (congrArg Point.index hbase).symm))
      (by rw [← hlog] at hle; exact hle)
  | success hs hr =>
    have hf := (RaftCore.recordSuccess_spec hr).frame
    refine hchecked _ (by rw [hf]) (by rw [hf]; rfl) fun a ha => ?_
    rcases RaftCore.mem_recordSuccess hr ha with ⟨i, command, rfl⟩ | ⟨barrier, rfl⟩ <;> trivial
  | failure hs hb =>
    exact hchecked _ rfl rfl fun a ha =>
      List.mem_singleton.mp ha ▸ (RaftCore.leading_of_build hb).keepsLog
  | staleSnapshot => exact hm.keep (by simp [RaftCore.snapshotReply, Action.KeepsLog]) rfl rfl
  | installSnapshot ht hi hh =>
    change (m.replay (core.termActions _ ++ _)).LogOf _
    rw [Mirror.replay, List.foldl_append]
    exact ⟨rfl, rfl⟩
  | ignoreVote | ignoreSnapshotResponse =>
    exact hm.keep (fun _ => keepsLog_of_termActions) (RaftCore.termChecked_log core _ rnd)
      (RaftCore.termChecked_base core _ rnd)
  | grantVote => exact hchecked _ rfl rfl (by simp [Action.KeepsLog])
  | denyVote | rejectAppend | conflictAppend =>
    exact hchecked _ rfl rfl (by simp [Action.KeepsLog])
  | oldSnapshot | haveSnapshot =>
    exact hchecked _ rfl rfl (by simp [RaftCore.snapshotReply, Action.KeepsLog])

end Mirror

/-- A node restarts at the snapshot point on disk; without a snapshot, at the root. -/
theorem Config.restart_base (cfg : Config) (n : NodeId) {disk : Mirror} (rnd : ℕ)
    (h : disk.base.index = 0 → disk.base = Point.root) :
    (cfg.restart n disk rnd).base = disk.base := by
  unfold Config.restart
  split_ifs with h0
  · rw [h h0]
    rfl
  · rfl

end FerrisFerry
