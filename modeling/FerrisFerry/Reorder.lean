import FerrisFerry.Accept

/-!
# Requests out of order

A leader sends every AppendEntries with its log from `prev_log_index + 1` to the end, so of two
requests of one term the later one says all the earlier one says about the indices both reach.
A follower that accepts both ends with the same log, commit index and applied entries in
whichever order they arrive (`RaftCore.appends_commute`).

The one order that differs on the way is the earlier request first. It may cut the log and end
it where the leader's log ended then. The later request is accepted after it only if it starts
there or before, and by Log Matching it then starts below the cut : it cuts at the same index
(`RaftCore.Twice.log_later`). After the later request the earlier one finds all its entries
(`RaftCore.Twice.log_earlier`).
-/

namespace FerrisFerry

namespace RaftCore

variable {core core' l l' : RaftCore} {req : AppendEntriesRPC} {actions : List Action} {i k : ℕ}

/-! ## The leader -/

/-- The log of `l` grows to that of `l'` : no index is lost, and what both logs hold is the same.
A snapshot may have been taken in between. -/
structure Grows (l l' : RaftCore) : Prop where
  snapshot : l.lastIncludedIndex ≤ l'.lastIncludedIndex
  last : l.lastLogIndex ≤ l'.lastLogIndex
  entries : ∀ i, l'.lastIncludedIndex < i → i ≤ l.lastLogIndex → l'.logEntryAt i = l.logEntryAt i
  term : l'.lastIncludedIndex ≤ l.lastLogIndex →
    l.logTermAt l'.lastIncludedIndex = some l'.lastIncludedTerm

/-- `l'` is the leader `l` at a later moment of its term. -/
structure Continues (l l' : RaftCore) : Prop where
  leader : l.state = .leader ∧ l'.state = .leader
  id : l'.id = l.id
  term : l'.currentTerm = l.currentTerm
  log : l.Grows l'
  commit : l.commitIndex ≤ l'.commitIndex
  committed : l.commitIndex ≤ l.lastLogIndex ∧ l'.commitIndex ≤ l'.lastLogIndex

/-- The next AppendEntries to a peer, whose next index is at least 1. -/
def Builds (l : RaftCore) (peer : NodeId) (req : AppendEntriesRPC) : Prop :=
  1 ≤ (l.nextIndex.lookup peer).getD l.lastLogIndex ∧
    l.buildAppendEntriesForPeer peer = some (.sendMessage peer (.appendEntries req))

theorem Grows.logTermAt_eq (h : l.Grows l') (hlo : l'.lastIncludedIndex ≤ i)
    (hhi : i ≤ l.lastLogIndex) : l'.logTermAt i = l.logTermAt i := by
  rcases hlo.eq_or_lt with rfl | hlt
  · rw [logTermAt_base, h.term hhi]
  · exact logTermAt_of_entry (h.snapshot.trans_lt hlt) hlt (h.entries i hlt hhi)

theorem Grows.keep (hb : l'.base = l.base) (hl : l'.log = l.log) : l.Grows l' := by
  obtain ⟨hi, ht⟩ := Point.mk.inj hb
  exact ⟨hi.ge, (lastLogIndex_congr hb hl).ge, fun i _ _ => logEntryAt_congr hb hl i,
    fun _ => by rw [hi, ht, logTermAt_base]⟩

theorem Grows.push {entries : List LogEntry} (hb : l'.base = l.base)
    (hl : l'.log = l.log ++ entries) : l.Grows l' := by
  obtain ⟨hi, ht⟩ := Point.mk.inj hb
  have hext : l.Extends l' := .push hb hl
  exact ⟨hi.ge, (hext _ le_rfl).1, fun i hlo hhi => (hext i hhi).2 hlo,
    fun _ => by rw [hi, ht, logTermAt_base]⟩

theorem Grows.compact (hk : k ≤ l.log.length) (hb : l'.base = endPoint l.base (l.log.take k))
    (hl : l'.log = l.log.drop k) : l.Grows l' := by
  have hi : l'.lastIncludedIndex = l.lastIncludedIndex + k := by
    rw [← base_index, hb, endPoint_index, List.length_take, min_eq_left hk, base_index]
  have hext : l.Extends l' := .compact hk hb hl
  refine ⟨by omega, (hext _ le_rfl).1, fun i hlo hhi => (hext i hhi).2 hlo, fun hle => ?_⟩
  refine logTermAt_eq_some.mpr ⟨by omega, hle, ?_⟩
  rw [hi, Nat.add_sub_cancel_left, ← hi, ← hb]
  rfl

theorem Grows.trans {l'' : RaftCore} (h : l.Grows l') (h' : l'.Grows l'') : l.Grows l'' := by
  have hs := h'.snapshot
  refine ⟨h.snapshot.trans hs, h.last.trans h'.last, fun i hlo hhi => ?_, fun hle => ?_⟩
  · rw [h'.entries i hlo (hhi.trans h.last), h.entries i (hs.trans_lt hlo) hhi]
  · rw [← h.logTermAt_eq hs hle, h'.term (hle.trans h.last)]

/-- A leader that stays one and installs no snapshot only grows its log. -/
theorem Outcome.grows_of_leader {rnd : ℕ} {request : Request}
    (h : l.Outcome rnd request l' actions) (hl' : l'.state = .leader)
    (hreq : ∀ req, request ≠ .message (.installSnapshot req)) : l.Grows l' := by
  by_cases hae : ∃ req, request = .message (.appendEntries req)
  · obtain ⟨req, rfl⟩ := hae
    obtain ⟨hb, hlog⟩ := h.leader_of_appendEntries hl'
    exact .keep hb hlog
  · cases h.logMove fun req hr => absurd ⟨req, hr⟩ hae with
    | keep hb hl => exact .keep hb hl
    | push _ _ _ hb hl => exact .push hb hl
    | merge hm => exact absurd ⟨_, rfl⟩ hae
    | install => exact absurd rfl (hreq _)
    | compact _ hk _ hb hl => exact .compact hk hb hl

/-- A request carries the log behind its previous entry, to the end. -/
structure Carries (l : RaftCore) (req : AppendEntriesRPC) : Prop where
  lo : l.lastIncludedIndex ≤ req.prevLogIndex
  prev : l.logTermAt req.prevLogIndex = some req.prevLogTerm
  entry : ∀ k, req.entries[k]? = l.logEntryAt (req.prevLogIndex + 1 + k)
  last : req.prevLogIndex + req.entries.length = l.lastLogIndex
  commit : req.leaderCommit = l.commitIndex

theorem Builds.carries {peer : NodeId} (h : l.Builds peer req) : l.Carries req := by
  obtain ⟨hnext, hb⟩ := h
  rcases buildAppendEntriesForPeer_cases hb with hs | ⟨k, hk, es, ha, hes⟩
  · cases hs
  · cases ha
    obtain rfl : es = l.log.drop k := by
      rcases hes with hes | ⟨-, -, -, h0⟩
      · exact hes
      · omega
    have hindex : (endPoint l.base (l.log.take k)).index = l.lastIncludedIndex + k := by
      rw [endPoint_index, List.length_take, min_eq_left hk, base_index]
    refine ⟨?_, ?_, fun j => ?_, ?_, rfl⟩
    · change _ ≤ (endPoint l.base (l.log.take k)).index
      omega
    · change l.logTermAt (endPoint l.base (l.log.take k)).index = _
      rw [hindex, logTermAt_eq_some]
      refine ⟨by omega, Nat.add_le_add_left hk _, Point.ext ?_ ?_⟩
      · rw [Nat.add_sub_cancel_left, hindex]
      · rw [Nat.add_sub_cancel_left]
        rfl
    · change (l.log.drop k)[j]? = l.logEntryAt ((endPoint l.base (l.log.take k)).index + 1 + j)
      rw [hindex, logEntryAt, if_neg (by omega), List.getElem?_drop]
      congr 1
      omega
    · change (endPoint l.base (l.log.take k)).index + (l.log.drop k).length = _
      rw [hindex, List.length_drop, lastLogIndex]
      omega

/-! ## The follower -/

/-- A follower accepts a request. -/
def Takes (core : RaftCore) (req : AppendEntriesRPC) (core' : RaftCore) (actions : List Action) :
    Prop :=
  ∃ rnd, core.handleAppendEntries req rnd = some (core', actions) ∧ Succeeds req actions

/-- Where the request first differs from the log, if it does. -/
inductive Merged (core : RaftCore) (req : AppendEntriesRPC) (core' : RaftCore) : Prop
  | keep (hall : ∀ k e, req.entries[k]? = some e →
        core.logTermAt (req.prevLogIndex + 1 + k) = some e.term) (hl : core'.log = core.log)
  | cut (k : ℕ) (hd : core.Diverges req k)
      (hall : ∀ j < k, ∀ e, req.entries[j]? = some e →
        core.logTermAt (req.prevLogIndex + 1 + j) = some e.term)
      (hhi : req.prevLogIndex + k ≤ core.lastLogIndex)
      (hlast : core'.lastLogIndex = req.prevLogIndex + req.entries.length)
      (hentry : ∀ n, core'.logEntryAt n = if n < req.prevLogIndex + 1 + k then core.logEntryAt n
        else req.entries[n - (req.prevLogIndex + 1)]?)

namespace Takes

theorem base_eq (h : core.Takes req core' actions) : core'.base = core.base := by
  obtain ⟨rnd, h, hs⟩ := h
  exact (log_of_success h hs).1

theorem merged (h : core.Takes req core' actions) : core.Merged req core' := by
  obtain ⟨rnd, h, hs⟩ := h
  obtain ⟨hb, ⟨hall, hl⟩ | ⟨k, hd, hall, hlo, hhi, -, hl⟩⟩ := log_of_success h hs
  · exact .keep hall hl
  · refine .cut k hd hall hhi ?_ (logEntryAt_of_cut hb hlo hhi hl)
    rcases lastLogIndex_of_success h hs with ⟨-, hno⟩ | ⟨hlast, -⟩
    · exact absurd hd (hno k)
    · exact hlast

/-- The log up to the previous entry stays. -/
theorem logTermAt_eq (h : core.Takes req core' actions) (hi : i ≤ req.prevLogIndex) :
    core'.logTermAt i = core.logTermAt i := by
  obtain ⟨rnd, h, hs⟩ := h
  exact logTermAt_of_success h hs hi

theorem prev_le (h : core.Takes req core' actions) : req.prevLogIndex ≤ core.lastLogIndex := by
  obtain ⟨rnd, h, hs⟩ := h
  have := start_le_of_valid (acceptEntries_of_success h hs).1.2.2
  omega

/-- Behind the previous entry the log is the leader's. -/
theorem agrees (h : core.Takes req core' actions) (hc : l.Carries req) (hlo : req.prevLogIndex < i)
    (hhi : i ≤ l.lastLogIndex) : core'.logTermAt i = l.logTermAt i := by
  obtain ⟨rnd, h, hs⟩ := h
  obtain ⟨e, he⟩ := exists_logEntryAt (hc.lo.trans_lt hlo) hhi
  obtain ⟨k, rfl⟩ : ∃ k, i = req.prevLogIndex + 1 + k := ⟨i - (req.prevLogIndex + 1), by omega⟩
  rw [logTermAt_of_logEntryAt he]
  exact agrees_of_success h hs k e ((hc.entry k).trans he)

theorem valid (h : core.Takes req core' actions) (h0 : 0 < req.prevLogIndex) :
    core.logTermAt req.prevLogIndex = some req.prevLogTerm := by
  obtain ⟨rnd, h, hs⟩ := h
  have hv := (acceptEntries_of_success h hs).1.2.2
  rw [appendEntriesValid, decide_eq_true_iff] at hv
  rcases hv with hv | hv
  · omega
  · exact hv.2

/-- Before it, by Log Matching. -/
theorem matched (h : core.Takes req core' actions) (hc : l.Carries req) (hm : l.Matches core)
    (hl : l.lastIncludedIndex < i) (hf : core.lastIncludedIndex < i) (hi : i ≤ req.prevLogIndex) :
    core.logEntryAt i = l.logEntryAt i :=
  hm.entry_eq hl hf hi hc.prev (h.valid (by omega))

/-- Behind the end of the log the entries are those of the request. -/
theorem entry_beyond (h : core.Takes req core' actions) (hc : l.Carries req) {n : ℕ}
    (hn : core.lastLogIndex < n) : core'.logEntryAt n = l.logEntryAt n := by
  have hprev := h.prev_le
  obtain ⟨k, rfl⟩ : ∃ k, n = req.prevLogIndex + 1 + k := ⟨n - (req.prevLogIndex + 1), by omega⟩
  rw [← hc.entry]
  cases h.merged with
  | keep hall hl =>
    have hnone : req.entries[k]? = none := by
      refine Option.eq_none_iff_forall_ne_some.mpr fun e he => ?_
      have := (logTermAt_eq_some.mp (hall k e he)).2.1
      omega
    rw [hnone, logEntryAt_congr h.base_eq hl]
    refine Option.eq_none_iff_forall_ne_some.mpr fun e he => ?_
    have := (logTermAt_eq_some.mp (logTermAt_of_logEntryAt he)).2.1
    omega
  | cut m _ _ hhi _ hentry =>
    rw [hentry, if_neg (by omega)]
    congr 1
    omega

/-- The log reaches at least as far as the request. -/
theorem last_le (h : core.Takes req core' actions) (hc : l.Carries req) :
    l.lastLogIndex ≤ core'.lastLogIndex := by
  rcases Nat.lt_or_ge req.prevLogIndex l.lastLogIndex with hlt | hle
  · obtain ⟨t, ht⟩ := exists_logTermAt (hc.lo.trans hlt.le) le_rfl
    rw [← h.agrees hc hlt le_rfl] at ht
    exact (logTermAt_eq_some.mp ht).2.1
  · obtain ⟨rnd, h, hs⟩ := h
    exact hle.trans (valid_of_success h hs).2

/-- So the commit index follows the leader's. -/
theorem commitIndex_eq (h : core.Takes req core' actions) (hc : l.Carries req)
    (hle : l.commitIndex ≤ l.lastLogIndex) :
    core'.commitIndex = max core.commitIndex l.commitIndex := by
  have hlast := h.last_le hc
  have hcommit := hc.commit
  obtain ⟨rnd, h, hs⟩ := h
  rcases commit_of_success h hs with ⟨hle, heq⟩ | ⟨hlt, heq⟩ <;> omega

/-- What is applied : the entries up to the new commit index. -/
theorem applied_eq (h : core.Takes req core' actions) (hc : core.CaughtUp) :
    core'.CaughtUp ∧ actions.filterMap Action.applied =
      (List.range' (core.commitIndex + 1) (core'.commitIndex - core.commitIndex)).map fun i =>
        (i, (core'.logEntryAt i).map LogEntry.command) := by
  obtain ⟨rnd, h, -⟩ := h
  have ho : core.Outcome rnd (.message (.appendEntries req)) core' actions := call_outcome h
  obtain ⟨hd, hc'⟩ := ho.delivers hc
  refine ⟨hc', ?_⟩
  rw [← hc.applied, ← hc'.applied]
  cases hd with
  | entries happ =>
    rcases ho.handsOut hc with ⟨-, heq⟩ | ⟨i, t, data, hm, -⟩
    · exact heq
    · exact absurd hm (happ.no_install i t data)

end Takes

theorem log_ext (hb : core'.base = core.base) (h : ∀ n, core'.logEntryAt n = core.logEntryAt n) :
    core'.log = core.log := by
  refine List.ext_getElem? fun k => ?_
  have hk := h (core.lastIncludedIndex + 1 + k)
  have hi : core'.lastIncludedIndex = core.lastIncludedIndex := congrArg Point.index hb
  rw [logEntryAt, logEntryAt, hi, if_neg (by omega), if_neg (by omega)] at hk
  rwa [show core.lastIncludedIndex + 1 + k - core.lastIncludedIndex - 1 = k by omega] at hk

/-- The merge reads nothing but the log. -/
theorem Merged.congr {c c' : RaftCore} (hb : c.base = core.base) (hl : c.log = core.log)
    (h : c.Merged req c') : core.Merged req c' := by
  have hterm := logTermAt_congr hb hl
  cases h with
  | keep hall hl' =>
    simp only [hterm] at hall
    exact .keep hall (hl'.trans hl)
  | cut k hd hall hhi hlast hentry =>
    simp only [hterm] at hall
    rw [lastLogIndex_congr hb hl] at hhi
    simp only [logEntryAt_congr hb hl] at hentry
    simp only [Diverges, hterm, lastLogIndex_congr hb hl] at hd
    exact .cut k hd hall hhi hlast hentry

/-- The merge has one result. -/
theorem Merged.unique {c c' : RaftCore} (h : core.Merged req c) (h' : core.Merged req c')
    (hb : c'.base = c.base) : c'.log = c.log := by
  cases h with
  | keep hall hl =>
    cases h' with
    | keep _ hl' => rw [hl, hl']
    | cut k hd => exact absurd hd (not_diverges (hall k))
  | cut k hd hall _ _ hentry =>
    cases h' with
    | keep hall' => exact absurd hd (not_diverges (hall' k))
    | cut k' hd' hall' _ _ hentry' =>
      -- both are the first difference
      obtain rfl : k = k' := by
        refine le_antisymm (Nat.not_lt.mp fun hlt => ?_) (Nat.not_lt.mp fun hlt => ?_)
        · exact not_diverges (hall k' hlt) hd'
        · exact not_diverges (hall' k hlt) hd
      exact log_ext hb fun n => (hentry' n).trans (hentry n).symm

/-! ## Two requests -/

/-- Two requests of one leader, and a follower that accepts each of them first and the later one
after the earlier one. -/
structure Twice (l₁ l₂ : RaftCore) (A₁ A₂ : AppendEntriesRPC) (f f₁ f₂ : RaftCore) : Prop where
  grows : l₁.Grows l₂
  carries₁ : l₁.Carries A₁
  carries₂ : l₂.Carries A₂
  logs : l₁.Matches f
  lo₁ : f.lastIncludedIndex ≤ A₁.prevLogIndex
  lo₂ : f.lastIncludedIndex ≤ A₂.prevLogIndex
  takes₁ : ∃ actions, f.Takes A₁ f₁ actions
  takes₂ : ∃ actions, f.Takes A₂ f₂ actions
  prev_le : A₂.prevLogIndex ≤ f₁.lastLogIndex

namespace Twice

variable {l₁ l₂ f f₁ f₂ : RaftCore} {A₁ A₂ : AppendEntriesRPC}

/-- Below the start of the later request the follower has what the earlier one brings. -/
theorem term_eq (h : Twice l₁ l₂ A₁ A₂ f f₁ f₂) (hlo : A₁.prevLogIndex < i)
    (hhi : i ≤ A₂.prevLogIndex) (hi : i ≤ l₁.lastLogIndex) : f.logTermAt i = l₁.logTermAt i := by
  obtain ⟨_, h₁⟩ := h.takes₁
  obtain ⟨_, h₂⟩ := h.takes₂
  have hl : l₁.lastIncludedIndex < i := h.carries₁.lo.trans_lt hlo
  have hf : f.lastIncludedIndex < i := h.lo₁.trans_lt hlo
  cases h₁.merged with
  | keep hall =>
    obtain ⟨e, he⟩ := exists_logEntryAt hl hi
    obtain ⟨k, rfl⟩ : ∃ k, i = A₁.prevLogIndex + 1 + k := ⟨i - (A₁.prevLogIndex + 1), by omega⟩
    rw [logTermAt_of_logEntryAt he]
    exact hall k e ((h.carries₁.entry k).trans he)
  | cut k _ _ _ hlast =>
    -- the log ends where the leader's did, so the later request starts inside it
    have hprev : A₂.prevLogIndex ≤ l₁.lastLogIndex := by
      rw [← h.carries₁.last, ← hlast]
      exact h.prev_le
    have hterm : l₁.logTermAt A₂.prevLogIndex = some A₂.prevLogTerm := by
      rw [← h.grows.logTermAt_eq h.carries₂.lo hprev, h.carries₂.prev]
    exact logTermAt_of_entry hl hf (h.logs.entry_eq hl hf hhi hterm (h₂.valid (by omega)))

/-- After the earlier request, the log has what the later one brings to the same indices. -/
theorem term_eq_later (h : Twice l₁ l₂ A₁ A₂ f f₁ f₂) (hlo : A₂.prevLogIndex < i)
    (hhi : i ≤ l₁.lastLogIndex) : f₁.logTermAt i = l₂.logTermAt i := by
  obtain ⟨_, h₁⟩ := h.takes₁
  have hl₂ : l₂.lastIncludedIndex < i := h.carries₂.lo.trans_lt hlo
  have hl : l₁.lastIncludedIndex < i := h.grows.snapshot.trans_lt hl₂
  have hf : f.lastIncludedIndex < i := h.lo₂.trans_lt hlo
  rw [h.grows.logTermAt_eq hl₂.le hhi]
  rcases Nat.lt_or_ge A₁.prevLogIndex i with hi | hi
  · exact h₁.agrees h.carries₁ hi hhi
  · rw [h₁.logTermAt_eq hi]
    exact logTermAt_of_entry hl hf (h₁.matched h.carries₁ h.logs hl hf hi)

/-- After the later request, the log has what the earlier one brings. -/
theorem term_eq_earlier (h : Twice l₁ l₂ A₁ A₂ f f₁ f₂) (hlo : A₁.prevLogIndex < i)
    (hhi : i ≤ l₁.lastLogIndex) : f₂.logTermAt i = l₁.logTermAt i := by
  obtain ⟨_, h₂⟩ := h.takes₂
  rcases Nat.lt_or_ge A₂.prevLogIndex i with hi | hi
  · rw [h₂.agrees h.carries₂ hi (hhi.trans h.grows.last),
      h.grows.logTermAt_eq (h.carries₂.lo.trans hi.le) hhi]
  · rw [h₂.logTermAt_eq hi, h.term_eq hlo hi hhi]

/-- The earlier request changes nothing after the later one. -/
theorem log_earlier {f₂₁ : RaftCore} {actions : List Action} (h : Twice l₁ l₂ A₁ A₂ f f₁ f₂)
    (h₂₁ : f₂.Takes A₁ f₂₁ actions) : f₂₁.log = f₂.log := by
  have hall : ∀ k e, A₁.entries[k]? = some e →
      f₂.logTermAt (A₁.prevLogIndex + 1 + k) = some e.term := by
    intro k e he
    have hk : k < A₁.entries.length := (List.getElem?_eq_some_iff.mp he).1
    have hlast := h.carries₁.last
    rw [h.term_eq_earlier (by omega) (by omega)]
    exact logTermAt_of_logEntryAt ((h.carries₁.entry k).symm.trans he)
  cases h₂₁.merged with
  | keep _ hl => exact hl
  | cut k hd => exact absurd hd (not_diverges (hall k))

/-- The later request does not cut what the earlier one has brought. -/
theorem entry_later {f₁₂ : RaftCore} {actions : List Action} (h : Twice l₁ l₂ A₁ A₂ f f₁ f₂)
    (h₁₂ : f₁.Takes A₂ f₁₂ actions) (hi : i ≤ l₁.lastLogIndex) :
    f₁₂.logEntryAt i = f₁.logEntryAt i := by
  cases h₁₂.merged with
  | keep _ hl => exact logEntryAt_congr h₁₂.base_eq hl i
  | cut k hd _ _ _ hentry =>
    rw [hentry, if_pos]
    by_contra hlt
    refine not_diverges (fun e he => ?_) hd
    rw [h.term_eq_later (by omega) (by omega)]
    exact logTermAt_of_logEntryAt ((h.carries₂.entry k).symm.trans he)

/-- The later request starts below a cut of the earlier one. -/
theorem lt_of_diverges (h : Twice l₁ l₂ A₁ A₂ f f₁ f₂) (hd : f.Diverges A₁ k) :
    A₂.prevLogIndex < A₁.prevLogIndex + 1 + k := by
  by_contra hle
  refine not_diverges (fun e he => ?_) hd
  have hk : k < A₁.entries.length := (List.getElem?_eq_some_iff.mp he).1
  have hlast := h.carries₁.last
  rw [h.term_eq (by omega) (by omega) (by omega)]
  exact logTermAt_of_logEntryAt ((h.carries₁.entry k).symm.trans he)

/-- Between the start of the later request and a cut of the earlier one there is no difference. -/
theorem term_eq_before (h : Twice l₁ l₂ A₁ A₂ f f₁ f₂) (hk : k < A₁.entries.length)
    (hall : ∀ j < k, ∀ e, A₁.entries[j]? = some e →
      f.logTermAt (A₁.prevLogIndex + 1 + j) = some e.term) {n : ℕ} {e : LogEntry}
    (hlo : A₂.prevLogIndex < n) (hn : n < A₁.prevLogIndex + 1 + k)
    (he : l₂.logEntryAt n = some e) : f.logTermAt n = some e.term := by
  obtain ⟨_, h₁⟩ := h.takes₁
  have hlast := h.carries₁.last
  have hl₂ : l₂.lastIncludedIndex < n := h.carries₂.lo.trans_lt hlo
  rw [h.grows.entries n hl₂ (by omega)] at he
  rcases Nat.lt_or_ge A₁.prevLogIndex n with hi | hi
  · obtain ⟨j, rfl⟩ : ∃ j, n = A₁.prevLogIndex + 1 + j := ⟨n - (A₁.prevLogIndex + 1), by omega⟩
    exact hall j (by omega) e ((h.carries₁.entry j).trans he)
  · refine logTermAt_of_logEntryAt ?_
    rw [h₁.matched h.carries₁ h.logs (h.grows.snapshot.trans_lt hl₂) (h.lo₂.trans_lt hlo) hi, he]

/-- Where the earlier request cuts the log, the later one cuts it too. -/
theorem cut_later (h : Twice l₁ l₂ A₁ A₂ f f₁ f₂) (hd : f.Diverges A₁ k)
    (hall : ∀ j < k, ∀ e, A₁.entries[j]? = some e →
      f.logTermAt (A₁.prevLogIndex + 1 + j) = some e.term) (n : ℕ) :
    f₂.logEntryAt n = if n < A₁.prevLogIndex + 1 + k then f.logEntryAt n else l₂.logEntryAt n := by
  obtain ⟨_, h₂⟩ := h.takes₂
  have hprev := h.lt_of_diverges hd
  have ⟨e, he, _⟩ := hd
  have hk : k < A₁.entries.length := (List.getElem?_eq_some_iff.mp he).1
  have hlast := h.carries₁.last
  have hne : f.logTermAt (A₁.prevLogIndex + 1 + k) ≠ some e.term := by
    refine fun ht => not_diverges (fun e' he' => ?_) hd
    obtain rfl := Option.some.inj (he.symm.trans he')
    exact ht
  -- the later request has the same entry at the cut
  obtain ⟨m, hm⟩ : ∃ m, A₁.prevLogIndex + 1 + k = A₂.prevLogIndex + 1 + m :=
    ⟨A₁.prevLogIndex + k - A₂.prevLogIndex, by omega⟩
  have he₂ : A₂.entries[m]? = some e := by
    rw [h.carries₂.entry, ← hm, h.grows.entries _ (h.carries₂.lo.trans_lt hprev) (by omega),
      ← h.carries₁.entry, he]
  cases h₂.merged with
  | keep hall₂ => exact absurd (hm ▸ hall₂ m e he₂) hne
  | cut k₂ hd₂ hall₂ _ _ hentry₂ =>
    obtain rfl : k₂ = m := by
      refine le_antisymm (Nat.not_lt.mp fun hlt => ?_) (Nat.not_lt.mp fun hlt => ?_)
      · exact hne (hm ▸ hall₂ m hlt e he₂)
      · refine not_diverges (fun e' he' => ?_) hd₂
        rw [h.carries₂.entry] at he'
        exact h.term_eq_before hk hall (by omega) (by omega) he'
    rw [hentry₂, ← hm]
    split_ifs with hn
    · rfl
    · rw [h.carries₂.entry, show A₂.prevLogIndex + 1 + (n - (A₂.prevLogIndex + 1)) = n by omega]

/-- The later request leads to the same log with and without the earlier one before it. -/
theorem log_later {f₁₂ : RaftCore} {actions : List Action} (h : Twice l₁ l₂ A₁ A₂ f f₁ f₂)
    (h₁₂ : f₁.Takes A₂ f₁₂ actions) : f₁₂.log = f₂.log := by
  obtain ⟨_, h₁⟩ := h.takes₁
  obtain ⟨_, h₂⟩ := h.takes₂
  have hb : f₁₂.base = f₂.base := by rw [h₁₂.base_eq, h₁.base_eq, h₂.base_eq]
  cases h₁.merged with
  | keep _ hl => exact h₂.merged.unique (h₁₂.merged.congr h₁.base_eq hl) hb
  | cut k hd hall _ hlast hentry =>
    have hprev := h.lt_of_diverges hd
    have hlo := h.carries₂.lo
    have ⟨e, he, _⟩ := hd
    have hk : k < A₁.entries.length := (List.getElem?_eq_some_iff.mp he).1
    rw [h.carries₁.last] at hlast
    have hend := h.carries₁.last
    refine log_ext hb fun n => ?_
    rw [h.cut_later hd hall]
    rcases Nat.lt_or_ge l₁.lastLogIndex n with hn | hn
    · -- behind the end of the earlier request the entries are those of the later one
      rw [if_neg (by omega)]
      exact h₁₂.entry_beyond h.carries₂ (hlast.trans_lt hn)
    · rw [h.entry_later h₁₂ hn, hentry]
      split_ifs with hlt
      · rfl
      · rw [h.carries₁.entry, h.grows.entries n (by omega) hn]
        congr 1
        omega

end Twice

/-- A core stays caught up through any calls. -/
theorem caughtUp_run {core₀ : RaftCore} (h₀ : core₀.Started)
    (h : machine.Run (fun _ _ => True) core₀ core) : core.CaughtUp := by
  refine h.invariant h₀.level.toCaughtUp ?_
  intro core input core' hc _ hs
  obtain ⟨⟨after, actions⟩, hcall, rfl⟩ := Option.map_eq_some_iff.mp hs
  exact ((call_outcome hcall).delivers hc).2

section commute

variable {core₀ l₁ l₂ f f₁ f₂ f₁₂ f₂₁ : RaftCore} {peer : NodeId} {A₁ A₂ : AppendEntriesRPC}
  {a₁ a₂ a₁₂ a₂₁ : List Action}

/-- The entries applied by the earlier request and then by the later one are those that the later
one applies alone. -/
theorem Twice.applied_later (h : Twice l₁ l₂ A₁ A₂ f f₁ f₂) (hc : f.CaughtUp)
    (h₁ : f.Takes A₁ f₁ a₁) (h₁₂ : f₁.Takes A₂ f₁₂ a₁₂) (h₂ : f.Takes A₂ f₂ a₂)
    (hc₁ : l₁.commitIndex ≤ l₁.lastLogIndex) (hc₂ : l₂.commitIndex ≤ l₂.lastLogIndex)
    (hle : l₁.commitIndex ≤ l₂.commitIndex) :
    (a₁ ++ a₁₂).filterMap Action.applied = a₂.filterMap Action.applied := by
  have hbase : f₁₂.base = f₂.base := by rw [h₁₂.base_eq, h₁.base_eq, h₂.base_eq]
  have hlog := h.log_later h₁₂
  have hci₁ := h₁.commitIndex_eq h.carries₁ hc₁
  have hci₁₂ := h₁₂.commitIndex_eq h.carries₂ hc₂
  have hci₂ := h₂.commitIndex_eq h.carries₂ hc₂
  have hfirst : ∀ i ∈ List.range' (f.commitIndex + 1) (f₁.commitIndex - f.commitIndex),
      f₁.logEntryAt i = f₂.logEntryAt i := by
    intro i hi
    have hi' := List.mem_range'_1.mp hi
    rw [← h.entry_later h₁₂ (by omega), logEntryAt_congr hbase hlog]
  have hrange : List.range' (f.commitIndex + 1) (f₁.commitIndex - f.commitIndex) ++
      List.range' (f₁.commitIndex + 1) (f₁₂.commitIndex - f₁.commitIndex) =
        List.range' (f.commitIndex + 1) (f₂.commitIndex - f.commitIndex) := by
    rw [show f₁.commitIndex + 1 = f.commitIndex + 1 + (f₁.commitIndex - f.commitIndex) by omega,
      List.range'_append_1]
    congr 1
    omega
  obtain ⟨hcaught, ha₁⟩ := h₁.applied_eq hc
  rw [List.filterMap_append, ha₁, (h₁₂.applied_eq hcaught).2, (h₂.applied_eq hc).2, ← hrange,
    List.map_append]
  congr 1
  · exact List.map_congr_left fun i hi => by rw [hfirst i hi]
  · exact List.map_congr_left fun i _ => by rw [logEntryAt_congr hbase hlog]

/-- Two requests of a leader, the second built later in the same term, arrive at a follower whose
log matches the leader's and is not compacted beyond them. If the follower accepts them in either
order, the order does not matter : it ends with the same log and snapshot, the same commit index
and `last_applied`, and has applied the same entries in the same order. -/
theorem appends_commute (h₀ : core₀.Started) (hr : machine.Run (fun _ _ => True) core₀ f)
    (hl : l₁.Continues l₂) (hb₁ : l₁.Builds peer A₁) (hb₂ : l₂.Builds peer A₂)
    (hm : l₁.Matches f) (hp₁ : f.lastIncludedIndex ≤ A₁.prevLogIndex)
    (hp₂ : f.lastIncludedIndex ≤ A₂.prevLogIndex)
    (h₁ : f.Takes A₁ f₁ a₁) (h₁₂ : f₁.Takes A₂ f₁₂ a₁₂)
    (h₂ : f.Takes A₂ f₂ a₂) (h₂₁ : f₂.Takes A₁ f₂₁ a₂₁) :
    f₁₂.log = f₂₁.log ∧ f₁₂.base = f₂₁.base ∧ f₁₂.commitIndex = f₂₁.commitIndex ∧
      f₁₂.lastApplied = f₂₁.lastApplied ∧
      (a₁ ++ a₁₂).filterMap Action.applied = (a₂ ++ a₂₁).filterMap Action.applied := by
  have hcar₁ := hb₁.carries
  have hcar₂ := hb₂.carries
  have htwice : Twice l₁ l₂ A₁ A₂ f f₁ f₂ :=
    ⟨hl.log, hcar₁, hcar₂, hm, hp₁, hp₂, ⟨a₁, h₁⟩, ⟨a₂, h₂⟩, h₁₂.prev_le⟩
  have hbase₁ : f₁₂.base = f₂.base := by rw [h₁₂.base_eq, h₁.base_eq, h₂.base_eq]
  have hlog₁ := htwice.log_later h₁₂
  have hlog₂ := htwice.log_earlier h₂₁
  have hc := caughtUp_run h₀ hr
  obtain ⟨hc₁, hc₂⟩ := hl.committed
  have hle := hl.commit
  have hcaught₁₂ := (h₁₂.applied_eq (h₁.applied_eq hc).1).1
  obtain ⟨hcaught₂₁, hnone⟩ := h₂₁.applied_eq (h₂.applied_eq hc).1
  have hci₁ := h₁.commitIndex_eq hcar₁ hc₁
  have hci₁₂ := h₁₂.commitIndex_eq hcar₂ hc₂
  have hci₂ := h₂.commitIndex_eq hcar₂ hc₂
  have hci₂₁ := h₂₁.commitIndex_eq hcar₁ hc₁
  have hci : f₁₂.commitIndex = f₂₁.commitIndex := by omega
  refine ⟨hlog₁.trans hlog₂.symm, hbase₁.trans h₂₁.base_eq.symm, hci, ?_, ?_⟩
  · rw [hcaught₁₂.applied, hcaught₂₁.applied, hci]
  -- after the later request the earlier one applies nothing
  rw [show f₂₁.commitIndex - f₂.commitIndex = 0 by omega, List.range'_zero, List.map_nil] at hnone
  rw [htwice.applied_later hc h₁ h₁₂ h₂ hc₁ hc₂ hle, List.filterMap_append, hnone, List.append_nil]

end commute

/-- The leader of term 2 with an entry of its term behind one of term 1. -/
def growing : RaftCore :=
  { restore 1 [1, 2, 3] none (15, 31) 15 2 (some 1) [⟨1, []⟩, ⟨2, []⟩] with
    state := .leader
    nextIndex := (∅ : AList fun _ : NodeId => ℕ).insert 2 2
    commitIndex := 1
    lastApplied := 1 }

/-- The same leader, one commit and one proposal later. -/
def grown : RaftCore :=
  { growing with log := growing.log ++ [⟨2, [9]⟩], commitIndex := 2, lastApplied := 2 }

theorem growing_continues : growing.Continues grown where
  leader := ⟨rfl, rfl⟩
  id := rfl
  term := rfl
  log := .push rfl rfl
  commit := by decide
  committed := by decide

/-- A follower with another entry at index 2. -/
def behind : RaftCore :=
  restore 2 [1, 2, 3] none (15, 31) 15 2 none [⟨1, []⟩, ⟨1, [7]⟩]

theorem growing_matches : growing.Matches behind := by
  intro i e e' he he' hterm j hj a b ha hb
  obtain ⟨k, hk, rfl, rfl⟩ := logEntryAt_eq_some.mp he'
  obtain ⟨m, hm, rfl, rfl⟩ := logEntryAt_eq_some.mp hb
  have hk : k = 0 ∨ k = 1 := by
    have : k < 2 := hk
    omega
  rcases hk with rfl | rfl
  · obtain rfl : m = 0 := by
      change 0 + m + 1 ≤ 1 at hj
      omega
    exact (Option.some.inj ha).symm
  · obtain rfl : (⟨2, []⟩ : LogEntry) = e := Option.some.inj he
    cases hterm

theorem appends_commute_behind : ∃ f₁ f₁₂ f₂ f₂₁ a₁ a₁₂ a₂ a₂₁,
    behind.Takes ⟨2, 1, 1, 1, [⟨2, []⟩], 1⟩ f₁ a₁ ∧
    f₁.Takes ⟨2, 1, 1, 1, [⟨2, []⟩, ⟨2, [9]⟩], 2⟩ f₁₂ a₁₂ ∧
    behind.Takes ⟨2, 1, 1, 1, [⟨2, []⟩, ⟨2, [9]⟩], 2⟩ f₂ a₂ ∧
    f₂.Takes ⟨2, 1, 1, 1, [⟨2, []⟩], 1⟩ f₂₁ a₂₁ ∧ f₁.log ≠ f₂.log ∧ f₁₂.log = f₂₁.log ∧
    (a₁ ++ a₁₂).filterMap Action.applied = (a₂ ++ a₂₁).filterMap Action.applied := by
  obtain ⟨f₁, f₁₂, h₁, h₁₂, hl₁⟩ : ∃ f₁ f₁₂,
      behind.handleAppendEntries ⟨2, 1, 1, 1, [⟨2, []⟩], 1⟩ 15 =
        some (f₁, [.persistLogEntries 2 [⟨2, []⟩], .applyToStateMachine 1 [],
          .sendMessage 1 (.appendEntriesResponse ⟨2, 2, 2, true, none, none⟩)]) ∧
      f₁.handleAppendEntries ⟨2, 1, 1, 1, [⟨2, []⟩, ⟨2, [9]⟩], 2⟩ 15 =
        some (f₁₂, [.persistLogEntries 2 [⟨2, []⟩, ⟨2, [9]⟩], .applyToStateMachine 2 [],
          .sendMessage 1 (.appendEntriesResponse ⟨2, 2, 3, true, none, none⟩)]) ∧
      f₁.log.length = 2 := ⟨_, _, rfl, rfl, rfl⟩
  obtain ⟨f₂, f₂₁, h₂, h₂₁, hl₂⟩ : ∃ f₂ f₂₁,
      behind.handleAppendEntries ⟨2, 1, 1, 1, [⟨2, []⟩, ⟨2, [9]⟩], 2⟩ 15 =
        some (f₂, [.persistLogEntries 2 [⟨2, []⟩, ⟨2, [9]⟩], .applyToStateMachine 1 [],
          .applyToStateMachine 2 [],
          .sendMessage 1 (.appendEntriesResponse ⟨2, 2, 3, true, none, none⟩)]) ∧
      f₂.handleAppendEntries ⟨2, 1, 1, 1, [⟨2, []⟩], 1⟩ 15 =
        some (f₂₁, [.persistLogEntries 2 [⟨2, []⟩, ⟨2, [9]⟩],
          .sendMessage 1 (.appendEntriesResponse ⟨2, 2, 3, true, none, none⟩)]) ∧
      f₂.log.length = 3 := ⟨_, _, rfl, rfl, rfl⟩
  have t₁ : behind.Takes _ f₁ _ := ⟨15, h₁, ⟨2, 2, 2, true, none, none⟩, by simp, rfl⟩
  have t₁₂ : f₁.Takes _ f₁₂ _ := ⟨15, h₁₂, ⟨2, 2, 3, true, none, none⟩, by simp, rfl⟩
  have t₂ : behind.Takes _ f₂ _ := ⟨15, h₂, ⟨2, 2, 3, true, none, none⟩, by simp, rfl⟩
  have t₂₁ : f₂.Takes _ f₂₁ _ := ⟨15, h₂₁, ⟨2, 2, 3, true, none, none⟩, by simp, rfl⟩
  have hb₁ : growing.Builds 2 ⟨2, 1, 1, 1, [⟨2, []⟩], 1⟩ := ⟨by decide, rfl⟩
  have hb₂ : grown.Builds 2 ⟨2, 1, 1, 1, [⟨2, []⟩, ⟨2, [9]⟩], 2⟩ := ⟨by decide, rfl⟩
  have hcomm := appends_commute (.restore ..) .init growing_continues hb₁ hb₂ growing_matches
    (Nat.zero_le _) (Nat.zero_le _) t₁ t₁₂ t₂ t₂₁
  exact ⟨f₁, f₁₂, f₂, f₂₁, _, _, _, _, t₁, t₁₂, t₂, t₂₁, fun h => by simp [h, hl₂] at hl₁,
    hcomm.1, hcomm.2.2.2.2⟩

end RaftCore

end FerrisFerry
