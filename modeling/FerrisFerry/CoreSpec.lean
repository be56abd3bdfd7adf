import FerrisFerry.Cluster
import FerrisFerry.EntryTree

/-!
# What one call can do

One specification per function of the core, so that no later proof unfolds a handler.

The log of a core is read as a path : `RaftCore.base` is the snapshot's point,
`RaftCore.tip` the point of the last entry.
-/

namespace FerrisFerry

/-! ## Paths -/

/-- The point reached from `p` by appending `entries`. -/
def endPoint (p : Point) (entries : List LogEntry) : Point :=
  entries.foldl (fun p e => ⟨p.index + 1, e.term⟩) p

/-- Each entry with the point it sits on and its own. -/
def pathLinks : Point → List LogEntry → List (Point × Point × Bytes)
  | _, [] => []
  | p, e :: es => (p, ⟨p.index + 1, e.term⟩, e.command) :: pathLinks ⟨p.index + 1, e.term⟩ es

@[simp] theorem endPoint_nil (p : Point) : endPoint p [] = p := rfl

@[simp] theorem endPoint_cons (p : Point) (e : LogEntry) (es : List LogEntry) :
    endPoint p (e :: es) = endPoint ⟨p.index + 1, e.term⟩ es := rfl

@[simp] theorem pathLinks_nil (p : Point) : pathLinks p [] = [] := rfl

@[simp] theorem pathLinks_cons (p : Point) (e : LogEntry) (es : List LogEntry) :
    pathLinks p (e :: es) =
      (p, ⟨p.index + 1, e.term⟩, e.command) :: pathLinks ⟨p.index + 1, e.term⟩ es := rfl

theorem endPoint_append (p : Point) (es es' : List LogEntry) :
    endPoint p (es ++ es') = endPoint (endPoint p es) es' :=
  List.foldl_append

theorem pathLinks_append (es' : List LogEntry) : ∀ (p : Point) (es : List LogEntry),
    pathLinks p (es ++ es') = pathLinks p es ++ pathLinks (endPoint p es) es'
  | _, [] => rfl
  | p, e :: es => by simp [pathLinks_append es' _ es]

@[simp] theorem endPoint_index : ∀ (p : Point) (es : List LogEntry),
    (endPoint p es).index = p.index + es.length
  | _, [] => rfl
  | p, e :: es => by
    rw [endPoint_cons, endPoint_index, List.length_cons]
    change p.index + 1 + es.length = _
    omega

/-- The actions that speak for a leader. -/
def Action.Leading : Action → Prop
  | .sendMessage _ (.appendEntries _) => True
  | .sendMessage _ (.installSnapshot _) => True
  | .sendInstallSnapshot _ _ _ _ => True
  | _ => False

namespace RaftCore

variable {core core' : RaftCore} {rnd : ℕ} {actions : List Action}

/-! ## Reading the log -/

/-- The point of the snapshot. -/
def base (core : RaftCore) : Point :=
  ⟨core.lastIncludedIndex, core.lastIncludedTerm⟩

/-- The point of the last entry. -/
def tip (core : RaftCore) : Point :=
  endPoint core.base core.log

/-- The entries of the log with their points. -/
def links (core : RaftCore) : List (Point × Point × Bytes) :=
  pathLinks core.base core.log

@[simp] theorem base_index : core.base.index = core.lastIncludedIndex := rfl

@[simp] theorem tip_index : core.tip.index = core.lastLogIndex := by
  simp [tip, lastLogIndex]

/-- The point of the log at `index`. -/
theorem logTermAt_eq_some {i t : ℕ} : core.logTermAt i = some t ↔
    core.lastIncludedIndex ≤ i ∧ i ≤ core.lastLogIndex ∧
      endPoint core.base (core.log.take (i - core.lastIncludedIndex)) = ⟨i, t⟩ := by
  unfold logTermAt logEntryAt lastLogIndex
  split_ifs with h1 h2 h3
  · simp only [false_iff]
    omega
  · subst h2
    simp [base, Point.ext_iff]
  · omega
  · obtain ⟨j, rfl⟩ : ∃ j, i = core.lastIncludedIndex + 1 + j :=
      ⟨i - core.lastIncludedIndex - 1, by omega⟩
    have hj : core.lastIncludedIndex + 1 + j - core.lastIncludedIndex - 1 = j := by omega
    have hj' : core.lastIncludedIndex + 1 + j - core.lastIncludedIndex = j + 1 := by omega
    rw [hj, hj', Option.map_eq_some_iff]
    constructor
    · rintro ⟨e, he, rfl⟩
      obtain ⟨hlt, rfl⟩ := List.getElem?_eq_some_iff.mp he
      refine ⟨by omega, by omega, ?_⟩
      rw [List.take_add_one, List.getElem?_eq_getElem hlt, endPoint_append]
      simp only [Option.toList_some, endPoint_cons, endPoint_nil, Point.ext_iff, endPoint_index,
        base_index, List.length_take, and_true]
      omega
    · rintro ⟨-, hle, hp⟩
      have hlt : j < core.log.length := by omega
      refine ⟨core.log[j], List.getElem?_eq_getElem hlt, ?_⟩
      rw [List.take_add_one, List.getElem?_eq_getElem hlt, endPoint_append] at hp
      exact congrArg Point.term hp

/-- Every index from the snapshot to the end of the log has a term. -/
theorem exists_logTermAt {i : ℕ} (hlo : core.lastIncludedIndex ≤ i) (hhi : i ≤ core.lastLogIndex) :
    ∃ t, core.logTermAt i = some t := by
  refine ⟨_, logTermAt_eq_some.mpr ⟨hlo, hhi, Point.ext ?_ rfl⟩⟩
  unfold lastLogIndex at hhi
  simp only [endPoint_index, base_index, List.length_take]
  omega

theorem logEntryAt_eq_some {i : ℕ} {e : LogEntry} : core.logEntryAt i = some e ↔
    ∃ j, ∃ h : j < core.log.length, i = core.lastIncludedIndex + j + 1 ∧ core.log[j] = e := by
  unfold logEntryAt
  constructor
  · intro h
    split_ifs at h with hi
    obtain ⟨hj, rfl⟩ := List.getElem?_eq_some_iff.mp h
    exact ⟨_, hj, by omega, rfl⟩
  · rintro ⟨j, hj, rfl, rfl⟩
    rw [if_neg (by omega), show core.lastIncludedIndex + j + 1 - core.lastIncludedIndex - 1 = j by
      omega, List.getElem?_eq_getElem hj]

theorem logTermAt_of_logEntryAt {i : ℕ} {e : LogEntry} (h : core.logEntryAt i = some e) :
    core.logTermAt i = some e.term := by
  obtain ⟨j, hj, rfl, rfl⟩ := logEntryAt_eq_some.mp h
  rw [logTermAt, if_neg (by omega), if_neg (by omega), h, Option.map_some]

theorem exists_logEntryAt {i : ℕ} (hlo : core.lastIncludedIndex < i) (hhi : i ≤ core.lastLogIndex) :
    ∃ e, core.logEntryAt i = some e := by
  unfold lastLogIndex at hhi
  exact ⟨_, logEntryAt_eq_some.mpr ⟨i - core.lastIncludedIndex - 1, by omega, by omega, rfl⟩⟩

theorem logEntryAt_of_logTermAt {i t : ℕ} (hlo : core.lastIncludedIndex < i)
    (h : core.logTermAt i = some t) : ∃ e, core.logEntryAt i = some e ∧ e.term = t := by
  rw [logTermAt, if_neg (by omega), if_neg (by omega)] at h
  exact Option.map_eq_some_iff.mp h

theorem logTermAt_base (core : RaftCore) :
    core.logTermAt core.lastIncludedIndex = some core.lastIncludedTerm := by
  rw [logTermAt, if_neg (lt_irrefl _), if_pos rfl]

theorem lt_of_logEntryAt {i : ℕ} {e : LogEntry} (h : core.logEntryAt i = some e) :
    core.lastIncludedIndex < i := by
  obtain ⟨j, -, rfl, -⟩ := logEntryAt_eq_some.mp h
  omega

theorem lastLogTerm_eq : core.lastLogTerm = some core.tip.term := by
  rw [lastLogTerm, logTermAt_eq_some]
  refine ⟨by simp [lastLogIndex], le_rfl, ?_⟩
  simp [lastLogIndex, tip, Point.ext_iff]

/-- A slice up to the end of the log. -/
theorem logSlice_end {i : ℕ} (h : core.lastIncludedIndex < i) (h' : i ≤ core.lastLogIndex + 1) :
    core.logSlice i (core.lastLogIndex + 1) =
      some (core.log.drop (i - core.lastIncludedIndex - 1)) := by
  unfold lastLogIndex at h' ⊢
  have h1 : core.lastIncludedIndex + 1 ≤ core.lastIncludedIndex + core.log.length + 1 := by omega
  have h2 : core.lastIncludedIndex + core.log.length + 1 - (core.lastIncludedIndex + 1) =
      core.log.length := by omega
  have h3 : i - core.lastIncludedIndex - 1 ≤ core.log.length := by omega
  simp only [logSlice, if_neg (Nat.not_le.mpr h), checkedSub, if_pos h1, h2, bind,
    Option.bind_some, min_self, if_pos h3, Option.some.injEq]
  rw [List.take_of_length_le (by rw [List.length_drop])]

/-! ## The term check -/

/-- The core after `check_msg_term`. -/
def termChecked (core : RaftCore) (msgTerm rnd : ℕ) : RaftCore :=
  (core.checkMsgTerm msgTerm rnd).1

/-- The actions of `check_msg_term`. -/
def termActions (core : RaftCore) (msgTerm : ℕ) : List Action :=
  if core.currentTerm < msgTerm then [.persistMetadata msgTerm none] else []

theorem checkMsgTerm_eq (core : RaftCore) (msgTerm rnd : ℕ) :
    core.checkMsgTerm msgTerm rnd = (core.termChecked msgTerm rnd, core.termActions msgTerm) := by
  unfold termChecked termActions checkMsgTerm
  split_ifs <;> rfl

theorem termChecked_of_le {t : ℕ} (h : t ≤ core.currentTerm) :
    core.termChecked t rnd = core := by
  rw [termChecked, checkMsgTerm, if_neg (Nat.not_lt.mpr h)]

theorem termChecked_of_lt {t : ℕ} (h : core.currentTerm < t) :
    core.termChecked t rnd =
      { core with
        currentTerm := t, state := .follower, votedFor := none, ticksSinceLastHeartbeat := 0,
        electionTimeoutTicks := rnd, readBarriers := ∅, currentLeader := none } := by
  rw [termChecked, checkMsgTerm, if_pos h]
  rfl

section termChecked

variable (core) (t rnd : ℕ)

@[simp] theorem termChecked_currentTerm :
    (core.termChecked t rnd).currentTerm = max core.currentTerm t := by
  rcases Nat.lt_or_ge core.currentTerm t with h | h
  · rw [termChecked_of_lt h]
    exact (max_eq_right h.le).symm
  · rw [termChecked_of_le h]
    exact (max_eq_left h).symm

@[simp] theorem termChecked_id : (core.termChecked t rnd).id = core.id := by
  unfold termChecked checkMsgTerm
  split_ifs <;> rfl

@[simp] theorem termChecked_peers : (core.termChecked t rnd).peers = core.peers := by
  unfold termChecked checkMsgTerm
  split_ifs <;> rfl

@[simp] theorem termChecked_log : (core.termChecked t rnd).log = core.log := by
  unfold termChecked checkMsgTerm
  split_ifs <;> rfl

@[simp] theorem termChecked_base : (core.termChecked t rnd).base = core.base := by
  unfold termChecked checkMsgTerm
  split_ifs <;> rfl

@[simp] theorem termChecked_tip : (core.termChecked t rnd).tip = core.tip := by
  simp [tip]

@[simp] theorem termChecked_commitIndex :
    (core.termChecked t rnd).commitIndex = core.commitIndex := by
  unfold termChecked checkMsgTerm
  split_ifs <;> rfl

@[simp] theorem termChecked_lastApplied :
    (core.termChecked t rnd).lastApplied = core.lastApplied := by
  unfold termChecked checkMsgTerm
  split_ifs <;> rfl

@[simp] theorem termChecked_matchIndex :
    (core.termChecked t rnd).matchIndex = core.matchIndex := by
  unfold termChecked checkMsgTerm
  split_ifs <;> rfl

@[simp] theorem termChecked_nextIndex :
    (core.termChecked t rnd).nextIndex = core.nextIndex := by
  unfold termChecked checkMsgTerm
  split_ifs <;> rfl

end termChecked

/-! ## Requests to peers -/

/-- The request `build_append_entries_for_peer` makes from a point of the log. -/
def requestFrom (core : RaftCore) (p : Point) (entries : List LogEntry) : AppendEntriesRPC where
  term := core.currentTerm
  leaderId := core.id
  prevLogIndex := p.index
  prevLogTerm := p.term
  entries := entries
  leaderCommit := core.commitIndex

/-- A snapshot, or the log from a point of it on. A next index of `0` makes the request
empty instead. -/
theorem buildAppendEntriesForPeer_cases {peer : NodeId} {a : Action}
    (h : core.buildAppendEntriesForPeer peer = some a) :
    a = core.installSnapshotForPeer peer ∨
      ∃ k ≤ core.log.length, ∃ es,
        a = .sendMessage peer (.appendEntries
          (core.requestFrom (endPoint core.base (core.log.take k)) es)) ∧
        (es = core.log.drop k ∨ es = [] ∧ k = 0 ∧ core.lastIncludedIndex = 0 ∧
          (core.nextIndex.lookup peer).getD core.lastLogIndex = 0) := by
  unfold buildAppendEntriesForPeer at h
  set next := (core.nextIndex.lookup peer).getD core.lastLogIndex with hnext
  cases ht : core.logTermAt (next - 1) with
  | none =>
    simp only [ht, Option.some.injEq] at h
    exact Or.inl h.symm
  | some t =>
    simp only [ht, bind, Option.bind_eq_some_iff, Option.some.injEq] at h
    obtain ⟨es, hes, rfl⟩ := h
    obtain ⟨hlo, hhi, hp⟩ := logTermAt_eq_some.mp ht
    have hlen : core.lastLogIndex = core.lastIncludedIndex + core.log.length := rfl
    refine Or.inr ⟨next - 1 - core.lastIncludedIndex, by omega, es, by rw [hp]; rfl, ?_⟩
    rcases Nat.lt_or_ge core.lastIncludedIndex next with hn | hn
    · rw [logSlice_end hn (by omega)] at hes
      have : next - core.lastIncludedIndex - 1 = next - 1 - core.lastIncludedIndex := by omega
      rw [this] at hes
      exact Or.inl (Option.some.inj hes).symm
    · rw [logSlice, if_pos hn] at hes
      exact Or.inr ⟨(Option.some.inj hes).symm, by omega, by omega, by omega⟩

theorem leading_of_build {peer : NodeId} {a : Action}
    (h : core.buildAppendEntriesForPeer peer = some a) : a.Leading := by
  rcases buildAppendEntriesForPeer_cases h with rfl | ⟨k, -, es, rfl, -⟩ <;> trivial

/-- What goes to a peer reads the log, the term, the commit index and the peer's next index. -/
theorem buildAppendEntriesForPeer_congr {peer : NodeId} (hid : core'.id = core.id)
    (hterm : core'.currentTerm = core.currentTerm) (hbase : core'.base = core.base)
    (hlog : core'.log = core.log) (hcommit : core'.commitIndex = core.commitIndex)
    (hnext : core'.nextIndex = core.nextIndex) :
    core'.buildAppendEntriesForPeer peer = core.buildAppendEntriesForPeer peer := by
  cases core
  cases core'
  obtain ⟨rfl, rfl⟩ := Point.mk.inj hbase
  dsimp only at hid hterm hlog hcommit hnext
  subst hid hterm hlog hcommit hnext
  rfl

theorem mem_appendEntries {sends : List Action} {a : Action} (h : core.appendEntries = some sends)
    (ha : a ∈ sends) : ∃ peer ∈ core.peers, core.buildAppendEntriesForPeer peer = some a := by
  unfold appendEntries at h
  generalize core.peers = peers at h ⊢
  induction peers generalizing sends with
  | nil =>
    obtain rfl : sends = [] := by simpa using h.symm
    simp at ha
  | cons p peers ih =>
    simp only [List.mapM_cons, bind, pure, Option.bind_eq_some_iff, Option.some.injEq] at h
    obtain ⟨a', ha', sends', hs', rfl⟩ := h
    rcases List.mem_cons.mp ha with rfl | ha
    · exact ⟨p, by simp, ha'⟩
    · obtain ⟨p', hp', hb⟩ := ih ha hs'
      exact ⟨p', by simp [hp'], hb⟩

theorem leading_of_appendEntries {sends : List Action} {a : Action}
    (h : core.appendEntries = some sends) (ha : a ∈ sends) : a.Leading := by
  obtain ⟨peer, -, hb⟩ := mem_appendEntries h ha
  exact leading_of_build hb

/-! ## Merging -/

/-- The end of a path depends on the terms only. -/
theorem endPoint_congr {es es' : List LogEntry}
    (h : es.map LogEntry.term = es'.map LogEntry.term) (p : Point) :
    endPoint p es = endPoint p es' := by
  induction es generalizing es' p with
  | nil =>
    obtain rfl : es' = [] := by simpa using h.symm
    rfl
  | cons e es ih =>
    cases es' with
    | nil => simp at h
    | cons e' es' =>
      simp only [List.map_cons, List.cons.injEq] at h
      rw [endPoint_cons, endPoint_cons, h.1, ih h.2]

/-- The merged log, from position `m` of the log on : the request's terms are there, or
the log is cut at the first position `m + k` whose term differs or is missing. -/
def MergedAt (log : List LogEntry) (m : ℕ) (es log' : List LogEntry) : Prop :=
  (log' = log ∧ ((log.drop m).take es.length).map LogEntry.term = es.map LogEntry.term) ∨
    ∃ k < es.length, m + k ≤ log.length ∧ log' = log.take (m + k) ++ es.drop k ∧
      ((log.drop m).take k).map LogEntry.term = (es.take k).map LogEntry.term ∧
      (log[m + k]?).map LogEntry.term ≠ (es[k]?).map LogEntry.term

/-- Past the end of the log every entry is appended. -/
theorem mergeEntries_append : ∀ (core : RaftCore) (es : List LogEntry),
    core.mergeEntries (core.lastLogIndex + 1) es = some { core with log := core.log ++ es }
  | core, [] => by simp [mergeEntries]
  | core, e :: es => by
    have h := mergeEntries_append { core with log := core.log ++ [e] } es
    have hl : ({ core with log := core.log ++ [e] } : RaftCore).lastLogIndex + 1 =
        core.lastLogIndex + 1 + 1 := by simp [lastLogIndex, Nat.add_assoc]
    rw [hl] at h
    rw [mergeEntries, if_neg (by omega), h]
    simp

/-- The merge loop from any index : the request's terms are all there and the log stays, or it
is cut at the first index whose term differs or is missing and continued by the request. -/
theorem mergeEntries_cases : ∀ (es : List LogEntry) {i : ℕ},
    core.mergeEntries i es = some core' → i ≤ core.lastLogIndex + 1 →
      (core' = core ∧ ∀ j e, es[j]? = some e → core.logTermAt (i + j) = some e.term) ∨
        ∃ k e, es[k]? = some e ∧ core.logTermAt (i + k) ≠ some e.term ∧
          (∀ j < k, ∀ e, es[j]? = some e → core.logTermAt (i + j) = some e.term) ∧
          core.lastIncludedIndex < i + k ∧ i + k ≤ core.lastLogIndex + 1 ∧
          core' = { core with
            log := core.log.take (i + k - (core.lastIncludedIndex + 1)) ++ es.drop k }
  | [], i, h, _ => by
    obtain rfl : core = core' := by simpa [mergeEntries] using h
    exact Or.inl ⟨rfl, by simp⟩
  | e :: es, i, h, hlast => by
    have hbase : core.lastIncludedIndex ≤ core.lastLogIndex := Nat.le_add_right _ _
    rcases Nat.lt_or_ge core.lastLogIndex i with hi | hi
    · -- one past the end : append everything
      obtain rfl : i = core.lastLogIndex + 1 := by omega
      rw [mergeEntries_append] at h
      obtain rfl := Option.some.inj h
      refine Or.inr ⟨0, e, rfl, fun ht => ?_, nofun, by omega, le_rfl, ?_⟩
      · have := (logTermAt_eq_some.mp ht).2.1
        omega
      · rw [List.take_of_length_le (by unfold lastLogIndex; omega), List.drop_zero]
    · rw [mergeEntries, if_pos hi] at h
      split at h
      next => cases h
      next t ht =>
        split_ifs at h with hne
        · -- a conflict : cut here, then append the rest
          unfold checkedSub at h
          split_ifs at h with hle
          dsimp only at h
          have hcut : ({ core with
              log := core.log.take (i - (core.lastIncludedIndex + 1)) ++ [e] } :
              RaftCore).lastLogIndex = i := by
            unfold lastLogIndex at hi
            simp only [lastLogIndex, List.length_append, List.length_take, List.length_singleton]
            omega
          have happ := mergeEntries_append { core with
            log := core.log.take (i - (core.lastIncludedIndex + 1)) ++ [e] } es
          rw [hcut, h] at happ
          obtain rfl := Option.some.inj happ
          refine Or.inr ⟨0, e, rfl, by simpa [ht] using hne, nofun, hle, by omega, ?_⟩
          simp only [Nat.add_zero, List.drop_zero, List.append_assoc, List.singleton_append]
        · rw [ne_eq, not_not] at hne
          have hzero : ∀ e', (e :: es)[0]? = some e' → core.logTermAt (i + 0) = some e'.term := by
            rintro e' he
            cases he
            rw [Nat.add_zero, ht, hne]
          have hsucc : ∀ {j : ℕ},
              (∀ e', es[j]? = some e' → core.logTermAt (i + 1 + j) = some e'.term) →
              ∀ e', (e :: es)[j + 1]? = some e' → core.logTermAt (i + (j + 1)) = some e'.term := by
            intro j hj e' he
            rw [show i + (j + 1) = i + 1 + j by omega]
            exact hj e' he
          rcases mergeEntries_cases es h (by omega) with
            ⟨hc, hall⟩ | ⟨k, e', he, hne', hall, hlo, hhi, hc⟩
          · refine Or.inl ⟨hc, fun j => ?_⟩
            cases j with
            | zero => exact hzero
            | succ j => exact hsucc (hall j)
          · rw [show i + 1 + k = i + (k + 1) by omega] at hne' hlo hhi hc
            refine Or.inr ⟨k + 1, e', he, hne', fun j hj => ?_, hlo, hhi, hc⟩
            cases j with
            | zero => exact hzero
            | succ j => exact hsucc (hall j (by omega))

/-- Above the snapshot the terms of the log are its entries'. -/
theorem logTermAt_of_lt {i : ℕ} (h : core.lastIncludedIndex < i) :
    core.logTermAt i = (core.log[i - core.lastIncludedIndex - 1]?).map LogEntry.term := by
  rw [logTermAt, if_neg (by omega), if_neg (by omega), logEntryAt, if_neg (by omega)]

/-- The entries of a log that is cut before index `i` and continued by `es`. -/
theorem logEntryAt_cut {i : ℕ} {es : List LogEntry} (hi : core.lastIncludedIndex < i)
    (hlast : i ≤ core.lastLogIndex + 1) (hb : core'.lastIncludedIndex = core.lastIncludedIndex)
    (hl : core'.log = core.log.take (i - (core.lastIncludedIndex + 1)) ++ es) (n : ℕ) :
    core'.logEntryAt n = if n < i then core.logEntryAt n else es[n - i]? := by
  unfold lastLogIndex at hlast
  have hlen : (core.log.take (i - (core.lastIncludedIndex + 1))).length =
      i - (core.lastIncludedIndex + 1) := by
    rw [List.length_take]
    omega
  rw [logEntryAt, logEntryAt, hb, hl]
  split_ifs with hn hlt hlt
  · rfl
  · omega
  · rw [List.getElem?_append_left (by omega), List.getElem?_take_of_lt (by omega)]
  · rw [List.getElem?_append_right (by omega), hlen,
      show n - core.lastIncludedIndex - 1 - (i - (core.lastIncludedIndex + 1)) = n - i by omega]

/-- The merge loop changes the log only, and by `MergedAt`. The index is above the
snapshot and at most one past the end. -/
theorem mergeEntries_spec (es : List LogEntry) {i : ℕ} (h : core.mergeEntries i es = some core')
    (hlo : core.lastIncludedIndex < i) (hhi : i ≤ core.lastLogIndex + 1) :
    core' = { core with log := core'.log } ∧
      MergedAt core.log (i - core.lastIncludedIndex - 1) es core'.log := by
  -- the terms of the log from the position on
  have hterm : ∀ j, core.logTermAt (i + j) =
      (core.log[i - core.lastIncludedIndex - 1 + j]?).map LogEntry.term := by
    intro j
    rw [logTermAt_of_lt (by omega),
      show i + j - core.lastIncludedIndex - 1 = i - core.lastIncludedIndex - 1 + j by omega]
  have hagree : ∀ n ≤ es.length,
      (∀ j < n, ∀ e, es[j]? = some e → core.logTermAt (i + j) = some e.term) →
      ((core.log.drop (i - core.lastIncludedIndex - 1)).take n).map LogEntry.term =
        (es.take n).map LogEntry.term := by
    intro n hn hall
    refine List.ext_getElem? fun j => ?_
    rcases Nat.lt_or_ge j n with hj | hj
    · have he : es[j]? = some es[j] := List.getElem?_eq_getElem (by omega)
      rw [List.getElem?_map, List.getElem?_map, List.getElem?_take_of_lt hj,
        List.getElem?_take_of_lt hj, List.getElem?_drop, ← hterm, hall j hj _ he, he,
        Option.map_some]
    · rw [List.getElem?_eq_none (by simp; omega), List.getElem?_eq_none (by simp; omega)]
  rcases mergeEntries_cases es h hhi with ⟨rfl, hall⟩ | ⟨k, e, he, hne, hall, -, hend, hc⟩
  · refine ⟨rfl, Or.inl ⟨rfl, ?_⟩⟩
    have := hagree es.length le_rfl fun j _ => hall j
    rwa [List.take_length] at this
  · have hk : k < es.length := (List.getElem?_eq_some_iff.mp he).1
    have hlog : core'.log = core.log.take (i - core.lastIncludedIndex - 1 + k) ++ es.drop k := by
      rw [hc,
        show i - core.lastIncludedIndex - 1 + k = i + k - (core.lastIncludedIndex + 1) by omega]
    refine ⟨by rw [hc], Or.inr ⟨k, hk, ?_, hlog, hagree k hk.le hall, ?_⟩⟩
    · unfold lastLogIndex at hend
      omega
    · rw [← hterm, he, Option.map_some]
      exact hne

/-- A request whose previous entry is there starts at most one past the end. -/
theorem start_le_of_valid {req : AppendEntriesRPC} (hv : core.appendEntriesValid req = true) :
    req.prevLogIndex + 1 ≤ core.lastLogIndex + 1 := by
  rw [appendEntriesValid, decide_eq_true_iff] at hv
  omega

/-- Merging touches nothing but the log. -/
theorem mergeEntries_frame : ∀ (es : List LogEntry) {core : RaftCore} {i : ℕ},
    core.mergeEntries i es = some core' → core' = { core with log := core'.log }
  | [], core, i, h => by
    obtain rfl : core = core' := by simpa [mergeEntries] using h
    rfl
  | e :: es, core, i, h => by
    rw [mergeEntries] at h
    split_ifs at h
    · split at h
      · simp at h
      · split_ifs at h
        · split at h
          · simp at h
          · have hf := mergeEntries_frame es h
            exact hf
        · exact mergeEntries_frame es h
    · have hf := mergeEntries_frame es h
      exact hf

/-! ## Committing -/

/-- An applied entry is the log's entry at its index. -/
theorem mem_applyActions {start stop : ℕ} {entries : List LogEntry} {a : Action}
    (h : core.logSlice start (stop + 1) = some entries) (ha : a ∈ applyActions start entries) :
    ∃ i e, a = .applyToStateMachine i e.command ∧ start ≤ i ∧ i ≤ stop ∧
      core.logEntryAt i = some e := by
  obtain ⟨j, hj, rfl⟩ := List.mem_mapIdx.mp ha
  refine ⟨j + start, entries[j], rfl, by omega, ?_⟩
  unfold logSlice at h
  split_ifs at h with h1
  · obtain rfl := Option.some.inj h
    simp at hj
  · unfold checkedSub at h
    split_ifs at h with h2
    · simp only [bind, Option.bind_some] at h
      split_ifs at h with h3
      · obtain rfl := Option.some.inj h
        rw [List.length_take, List.length_drop] at hj
        have hk : j + start - core.lastIncludedIndex - 1 =
            start - core.lastIncludedIndex - 1 + j := by omega
        have hlt : start - core.lastIncludedIndex - 1 + j < core.log.length := by omega
        refine ⟨by omega, ?_⟩
        rw [logEntryAt, if_neg (by omega), hk, List.getElem?_eq_getElem hlt, List.getElem_take,
          List.getElem_drop]
    · simp at h

/-- What a follower commits : nothing new, or up to the leader's commit index as far as the
log reaches. -/
structure Follows (core : RaftCore) (leaderCommit : ℕ) (core' : RaftCore)
    (applies : List Action) : Prop where
  frame : core' = { core with
    commitIndex := core'.commitIndex, lastApplied := core'.lastApplied }
  commit : leaderCommit ≤ core.commitIndex ∧ core'.commitIndex = core.commitIndex ∧
      core'.lastApplied = core.lastApplied ∧ applies = [] ∨
    core.commitIndex < leaderCommit ∧ core'.commitIndex = min leaderCommit core.lastLogIndex ∧
      core'.lastApplied = core'.commitIndex ∧
      ∃ entries, core.logSlice (core.commitIndex + 1) (core'.commitIndex + 1) = some entries ∧
        applies = applyActions (core.commitIndex + 1) entries

theorem followCommit_spec {leaderCommit : ℕ}
    (h : core.followCommit leaderCommit = some (core', actions)) :
    core.Follows leaderCommit core' actions := by
  unfold followCommit at h
  split_ifs at h with hlt
  · simp only [bind, Option.bind_eq_some_iff, Option.some.injEq, Prod.mk.injEq] at h
    obtain ⟨entries, he, rfl, rfl⟩ := h
    exact ⟨rfl, Or.inr ⟨hlt, rfl, rfl, entries, he, rfl⟩⟩
  · obtain ⟨rfl, rfl⟩ := Prod.mk.inj (Option.some.inj h)
    exact ⟨rfl, Or.inl ⟨by omega, rfl, rfl, rfl⟩⟩

/-- The success reply of a follower. -/
def acceptance (core : RaftCore) : AppendEntriesResponseRPC :=
  ⟨core.id, core.currentTerm, core.lastLogIndex, true, none, none⟩

/-- An accepted request : the merge, then what it commits. -/
theorem acceptEntries_spec {req : AppendEntriesRPC}
    (h : core.acceptEntries req = some (core', actions)) :
    ∃ merged persist applies, core.mergeEntries (req.prevLogIndex + 1) req.entries = some merged ∧
      merged = { core with log := core'.log } ∧ merged.Follows req.leaderCommit core' applies ∧
      (req.entries = [] ∧ persist = [] ∨ req.entries ≠ [] ∧
        ∃ entries, merged.logSlice (req.prevLogIndex + 1) (merged.lastLogIndex + 1) = some entries ∧
          persist = [.persistLogEntries (req.prevLogIndex + 1) entries]) ∧
      actions = persist ++ applies ++
        [.sendMessage req.leaderId (.appendEntriesResponse core'.acceptance)] := by
  simp only [acceptEntries, bind, Option.bind_eq_some_iff, Option.some.injEq, Prod.mk.injEq] at h
  obtain ⟨merged, hm, persist, hp, ⟨c', applies⟩, hf, rfl, rfl⟩ := h
  have hF := followCommit_spec hf
  refine ⟨merged, persist, applies, hm, ?_, hF, ?_, rfl⟩
  · rw [hF.frame]
    exact mergeEntries_frame _ hm
  · unfold persistMerged at hp
    split_ifs at hp with he
    · exact Or.inl ⟨he, (Option.some.inj hp).symm⟩
    · obtain ⟨entries, hs, rfl⟩ := Option.map_eq_some_iff.mp hp
      exact Or.inr ⟨he, entries, hs, rfl⟩

/-- An accepted request changes the log and what is committed. -/
theorem acceptEntries_frame {req : AppendEntriesRPC}
    (h : core.acceptEntries req = some (core', actions)) :
    core' = { core with
      log := core'.log, commitIndex := core'.commitIndex, lastApplied := core'.lastApplied } := by
  obtain ⟨merged, persist, applies, -, hm, hF, -, -⟩ := acceptEntries_spec h
  have hf := hF.frame
  rw [hm] at hf
  exact hf

/-- The counted commit index is the old one, or a replicated index of the current term. -/
theorem newCommit_spec {replicated n : ℕ} (h : core.newCommit replicated = some n) :
    n = core.commitIndex ∨ core.commitIndex < n ∧ n ≤ replicated ∧
      core.logTermAt n = some core.currentTerm := by
  unfold newCommit at h
  -- generalize the start of the range : the accumulator is old or a good index below it
  suffices H : ∀ (len start acc n : ℕ),
      (List.range' start len).foldlM (fun newCommit index => do
        let term ← core.logTermAt index
        some (if term = core.currentTerm then index else newCommit)) acc = some n →
      n = acc ∨ start ≤ n ∧ n < start + len ∧ core.logTermAt n = some core.currentTerm by
    rcases H _ _ _ _ h with h | ⟨h1, h2, h3⟩
    · exact Or.inl h
    · exact Or.inr ⟨by omega, by omega, h3⟩
  intro len
  induction len with
  | zero =>
    intro start acc n h
    exact Or.inl (by simpa using h.symm)
  | succ len ih =>
    intro start acc n h
    simp only [List.range'_succ, List.foldlM_cons, bind, Option.bind_eq_some_iff,
      Option.some.injEq] at h
    obtain ⟨acc', ⟨t, ht, rfl⟩, h⟩ := h
    rcases ih _ _ _ h with h | ⟨h1, h2, h3⟩
    · split_ifs at h with hc
      · subst h hc
        exact Or.inr ⟨le_rfl, by omega, ht⟩
      · exact Or.inl h
    · exact Or.inr ⟨by omega, by omega, h3⟩

/-- A recorded success : the peer's indices, the commit by counting, the released barriers. -/
structure Records (core : RaftCore) (resp : AppendEntriesResponseRPC) (core' : RaftCore)
    (actions : List Action) : Prop where
  frame : core' = { core with
    matchIndex := core.matchIndex.insert resp.id resp.matchIndex
    nextIndex := core.nextIndex.insert resp.id (resp.matchIndex + 1)
    appendEntriesCount := core.appendEntriesCount + 1
    commitIndex := core'.commitIndex
    lastApplied := core'.commitIndex
    readBarriers := core'.readBarriers }
  commit : core'.commitIndex = core.commitIndex ∨
    core.commitIndex < core'.commitIndex ∧ core'.commitIndex ≤ core'.replicatedIndex ∧
      core.logTermAt core'.commitIndex = some core.currentTerm
  actions : ∃ entries, core.logSlice (core.lastApplied + 1) (core'.commitIndex + 1) = some entries ∧
    actions = applyActions (core.lastApplied + 1) entries ++
      ({ core' with readBarriers := core.readBarriers } : RaftCore).readyBarriers.map
        .readBarrierReady
  barriers : core'.readBarriers =
    ({ core' with readBarriers := core.readBarriers } : RaftCore).readyBarriers.foldl
      (fun m id => m.erase id) core.readBarriers

theorem recordSuccess_spec {resp : AppendEntriesResponseRPC}
    (h : core.recordSuccess resp = some (core', actions)) : core.Records resp core' actions := by
  simp only [recordSuccess, leaderCommit, extractBarriers, bind, Option.bind_eq_some_iff,
    Option.some.injEq, Prod.mk.injEq] at h
  obtain ⟨⟨c', applies⟩, ⟨n, hn, entries, he, hc⟩, rfl, rfl⟩ := h
  obtain ⟨rfl, rfl⟩ := Prod.mk.inj hc
  exact ⟨rfl, newCommit_spec hn, ⟨entries, he, rfl⟩, rfl⟩

/-- The actions of an accepted request. -/
theorem mem_acceptEntries {req : AppendEntriesRPC}
    (h : core.acceptEntries req = some (core', actions)) {a : Action} (ha : a ∈ actions) :
    (∃ start entries, a = .persistLogEntries start entries) ∨
      (∃ i command, a = .applyToStateMachine i command) ∨
      a = .sendMessage req.leaderId (.appendEntriesResponse core'.acceptance) := by
  obtain ⟨merged, persist, applies, -, -, hF, hp, rfl⟩ := acceptEntries_spec h
  rcases List.mem_append.mp ha with ha | ha
  · rcases List.mem_append.mp ha with ha | ha
    · rcases hp with ⟨-, rfl⟩ | ⟨-, entries, -, rfl⟩
      · simp at ha
      · exact Or.inl ⟨_, _, List.mem_singleton.mp ha⟩
    · rcases hF.commit with ⟨-, -, -, rfl⟩ | ⟨-, -, -, entries, -, rfl⟩
      · simp at ha
      · obtain ⟨j, hj, rfl⟩ := List.mem_mapIdx.mp ha
        exact Or.inr (Or.inl ⟨_, _, rfl⟩)
  · exact Or.inr (Or.inr (List.mem_singleton.mp ha))

/-- The actions of a recorded success. -/
theorem mem_recordSuccess {resp : AppendEntriesResponseRPC}
    (h : core.recordSuccess resp = some (core', actions)) {a : Action} (ha : a ∈ actions) :
    (∃ i command, a = .applyToStateMachine i command) ∨
      ∃ barrier, a = .readBarrierReady barrier := by
  obtain ⟨entries, -, rfl⟩ := (recordSuccess_spec h).actions
  rcases List.mem_append.mp ha with ha | ha
  · obtain ⟨j, hj, rfl⟩ := List.mem_mapIdx.mp ha
    exact Or.inl ⟨_, _, rfl⟩
  · obtain ⟨barrier, -, rfl⟩ := List.mem_map.mp ha
    exact Or.inr ⟨barrier, rfl⟩

/-! ## Snapshots -/

theorem prepareSnapshot_eq_some {metadata : SnapshotMetadata} :
    core.prepareSnapshot = some metadata ↔ metadata.lastApplied = core.lastApplied ∧
      core.logTermAt core.lastApplied = some metadata.lastAppliedTerm := by
  simp only [prepareSnapshot, bind, Option.bind_eq_some_iff, Option.some.injEq]
  constructor
  · rintro ⟨t, ht, rfl⟩
    exact ⟨rfl, ht⟩
  · rintro ⟨h, ht⟩
    exact ⟨_, ht, by rw [← h]⟩

/-- A local snapshot drops the applied entries; nothing if there is none beyond the last
snapshot. -/
theorem completeSnapshot_spec {metadata : SnapshotMetadata}
    (hp : core.prepareSnapshot = some metadata) (hc : core.completeSnapshot metadata = some core') :
    core.lastApplied = core.lastIncludedIndex ∧ core' = core ∨
      ∃ k, 0 < k ∧ k ≤ core.log.length ∧ core.lastApplied = core.lastIncludedIndex + k ∧
        endPoint core.base (core.log.take k) = ⟨core.lastApplied, metadata.lastAppliedTerm⟩ ∧
        core' = { core with
          log := core.log.drop k
          lastIncludedIndex := core.lastApplied
          lastIncludedTerm := metadata.lastAppliedTerm } := by
  obtain ⟨hm, ht⟩ := prepareSnapshot_eq_some.mp hp
  obtain ⟨hlo, hhi, hpt⟩ := logTermAt_eq_some.mp ht
  unfold completeSnapshot at hc
  rw [hm] at hc
  dsimp only at hc
  split_ifs at hc with h1 h2
  · exact Or.inl ⟨by omega, (Option.some.inj hc).symm⟩
  · exact Or.inr ⟨_, by omega, h2, by omega, hpt, (Option.some.inj hc).symm⟩

/-- A snapshot changes the log and the snapshot point only. -/
theorem completeSnapshot_frame {metadata : SnapshotMetadata}
    (hp : core.prepareSnapshot = some metadata) (hc : core.completeSnapshot metadata = some core') :
    core'.currentTerm = core.currentTerm ∧ core'.votedFor = core.votedFor ∧
      core'.state = core.state ∧ core'.lastApplied = core.lastApplied := by
  rcases completeSnapshot_spec hp hc with ⟨-, rfl⟩ | ⟨k, -, -, -, -, rfl⟩ <;>
    exact ⟨rfl, rfl, rfl, rfl⟩

/-- A local snapshot keeps the end of the log where it is. -/
theorem completeSnapshot_tip {metadata : SnapshotMetadata}
    (hp : core.prepareSnapshot = some metadata) (hc : core.completeSnapshot metadata = some core') :
    core'.tip = core.tip := by
  rcases completeSnapshot_spec hp hc with ⟨-, rfl⟩ | ⟨k, -, -, -, hpt, rfl⟩
  · rfl
  · have h : endPoint core.base core.log =
        endPoint (endPoint core.base (core.log.take k)) (core.log.drop k) := by
      rw [← endPoint_append, List.take_append_drop]
    rw [tip, tip, h, hpt]
    rfl

end RaftCore

end FerrisFerry
