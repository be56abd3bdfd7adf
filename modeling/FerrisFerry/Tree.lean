import FerrisFerry.Log
import FerrisFerry.Vote
import FerrisFerry.Leading

/-!
# The logs of a run as one tree

Every entry any core ever held is a link of the tree (`Cluster.Link`). As long as no two
nodes lead in one term, these links form an `EntryTree`, every log and every AppendEntries
in flight is a path in it, and every snapshot point is one of its points
(`Cluster.TreeInv`). Only a leader adds a link, above all links of its term.
-/

namespace FerrisFerry

/-! ## Paths of the tree -/

namespace EntryTree

variable {T : EntryTree Bytes} {p : Point} {es : List LogEntry}

theorem anc_endPoint (h : PathIn T.link p es) : T.Anc p (endPoint p es) := by
  induction es generalizing p with
  | nil => exact anc_refl p
  | cons e es ih =>
    rw [PathIn, pathLinks_cons, List.forall_mem_cons] at h
    exact (anc_of_link h.1).trans (ih h.2)

/-- Every point of a path is below its end. -/
theorem anc_take (h : PathIn T.link p es) (i : ℕ) :
    T.Anc (endPoint p (es.take i)) (endPoint p es) := by
  have hd := anc_endPoint (h.drop i)
  rwa [← endPoint_append, List.take_append_drop] at hd

/-- The link of an entry of a path. -/
theorem link_getElem (h : PathIn T.link p es) {i : ℕ} (hi : i < es.length) :
    T.link (endPoint p (es.take i)) ⟨p.index + i + 1, es[i].term⟩ es[i].command :=
  h _ (mem_pathLinks.mpr ⟨i, hi, rfl⟩)

/-- Two paths agree below every point they share. -/
theorem path_agree {p' : Point} {es' : List LogEntry} (h : PathIn T.link p es)
    (h' : PathIn T.link p' es') {q : Point} (hq : T.Anc q (endPoint p es))
    (hq' : T.Anc q (endPoint p' es')) {i i' : ℕ} (hi : i < es.length) (hi' : i' < es'.length)
    (heq : p.index + i = p'.index + i') (hle : p.index + i < q.index) : es[i] = es'[i'] := by
  have ha := anc_take h (i + 1)
  have ha' := anc_take h' (i' + 1)
  rw [endPoint_take_succ p hi] at ha
  rw [endPoint_take_succ p' hi'] at ha'
  have hpt := anc_unique (anc_total ha hq hle) (anc_total ha' hq' (heq ▸ hle)) (by simp [heq])
  have hl := link_getElem h' hi'
  rw [← hpt] at hl
  have hc := (T.inj (link_getElem h hi) hl).2
  have ht := congrArg Point.term hpt
  cases hx : es[i]
  cases hy : es'[i']
  simp_all

end EntryTree

namespace RaftCore

variable {core core' : RaftCore} {i t : ℕ} {e : LogEntry}

variable {T : EntryTree Bytes} (hp : PathIn T.link core.base core.log)

include hp

theorem anc_tip_of_logTermAt (h : core.logTermAt i = some t) : T.Anc ⟨i, t⟩ core.tip := by
  obtain ⟨-, -, he⟩ := logTermAt_eq_some.mp h
  rw [← he]
  exact EntryTree.anc_take hp _

theorem link_of_logEntryAt (h : core.logEntryAt i = some e) :
    ∃ p, T.link p ⟨i, e.term⟩ e.command := by
  obtain ⟨j, hj, rfl, rfl⟩ := logEntryAt_eq_some.mp h
  exact ⟨_, EntryTree.link_getElem hp hj⟩

/-- The point of the tree below the end of the log, as the log has it. -/
theorem logTermAt_of_anc {q : Point} (h : T.Anc q core.tip)
    (hi : core.lastIncludedIndex ≤ q.index) :
    core.logTermAt q.index = some q.term := by
  have hle : q.index ≤ core.lastLogIndex := by
    rw [← tip_index]
    exact h.index_le
  refine logTermAt_eq_some.mpr ⟨hi, hle, ?_⟩
  have hq := EntryTree.anc_take hp (q.index - core.lastIncludedIndex)
  refine EntryTree.anc_unique hq h ?_
  unfold lastLogIndex at hle
  simp only [endPoint_index, base_index, List.length_take]
  omega

/-- Two logs agree below every point they share. -/
theorem logEntryAt_agree (hp' : PathIn T.link core'.base core'.log) {q : Point}
    (hq : T.Anc q core.tip) (hq' : T.Anc q core'.tip) (hi : i ≤ q.index)
    (h : core.lastIncludedIndex < i) (h' : core'.lastIncludedIndex < i) :
    ∃ e, core.logEntryAt i = some e ∧ core'.logEntryAt i = some e := by
  have hle := hq.index_le
  have hle' := hq'.index_le
  rw [tip_index, lastLogIndex] at hle hle'
  have hj : i - core.lastIncludedIndex - 1 < core.log.length := by omega
  have hj' : i - core'.lastIncludedIndex - 1 < core'.log.length := by omega
  refine ⟨_, logEntryAt_eq_some.mpr ⟨_, hj, by omega, rfl⟩,
    logEntryAt_eq_some.mpr ⟨_, hj', by omega, ?_⟩⟩
  refine (EntryTree.path_agree hp hp' hq hq' hj hj' ?_ ?_).symm
  · simp only [base_index]
    omega
  · simp only [base_index]
    omega

end RaftCore

/-! ## The tree of a run -/

/-- The point before the entries of a request. -/
def AppendEntriesRPC.prev (req : AppendEntriesRPC) : Point :=
  ⟨req.prevLogIndex, req.prevLogTerm⟩

/-- The point of the last entry of a request. -/
def AppendEntriesRPC.last (req : AppendEntriesRPC) : Point :=
  endPoint req.prev req.entries

/-- The point a snapshot ends at. -/
def InstallSnapshotRPC.point (req : InstallSnapshotRPC) : Point :=
  ⟨req.lastIncludedIndex, req.lastIncludedTerm⟩

namespace Cluster

/-- Some core held the entry `a` at `q` on top of `p`. -/
def Link (c : Cluster) (p q : Point) (a : Bytes) : Prop :=
  ∃ k ∈ c.trace, (p, q, a) ∈ k.after.links

/-- The points of the tree. -/
def Known (c : Cluster) (q : Point) : Prop :=
  q = Point.root ∨ ∃ p a, c.Link p q a

/-- The tree, and every log and request in it. -/
structure TreeInv (c : Cluster) : Prop where
  isTree : ∃ T : EntryTree Bytes, T.link = c.Link
  led : ∀ p q a, c.Link p q a → ∃ n, c.Led n q.term
  vote : ∀ n, (c.disk n).VoteOf (c.core n)
  disk : ∀ n, (c.disk n).LogOf (c.core n)
  base : ∀ n, c.Known (c.core n).base
  path : ∀ n, PathIn c.Link (c.core n).base (c.core n).log
  tip_term : ∀ n, (c.core n).tip.term ≤ (c.core n).currentTerm
  append : ∀ dst req, (dst, .appendEntries req) ∈ c.net →
    c.Known req.prev ∧ PathIn c.Link req.prev req.entries ∧ req.last.term ≤ req.term
  install : ∀ dst req, (dst, .installSnapshot req) ∈ c.net →
    c.Known req.point ∧ req.lastIncludedTerm ≤ req.term
  active : ∀ n, (c.core n).state ≠ .follower → 0 < (c.core n).currentTerm
  /-- A leader has appended to its term, and nobody went further in that term. -/
  leader : ∀ n, (c.core n).state = .leader → c.Led n (c.core n).currentTerm ∧
    (c.core n).tip.term = (c.core n).currentTerm ∧
    ∀ p q a, c.Link p q a → q.term = (c.core n).currentTerm → q.index ≤ (c.core n).tip.index
  /-- Who led in a term is no candidate of it. -/
  past : ∀ n t, c.Led n t → 0 < t ∧ t ≤ (c.core n).currentTerm ∧
    (t = (c.core n).currentTerm → (c.core n).state ≠ .candidate)

/-- The steps that keep the tree : a request without a previous entry that is accepted meets a
node without a snapshot, and a snapshot of a term does not reach the leader of that term. -/
def Rooted (c : Cluster) : Input → Prop
  | .call n request _ => (c.core n).Grounded request ∧
    ∀ req, request = .message (.installSnapshot req) → (c.core n).state = .leader →
      req.term ≠ (c.core n).currentTerm
  | _ => True

variable {cfg : Config} {c c' : Cluster} {n : NodeId} {rnd : ℕ} {request : Request}
  {after : RaftCore} {actions : List Action}

theorem Known.mono (hL : ∀ p q a, c.Link p q a → c'.Link p q a) {q : Point} (h : c.Known q) :
    c'.Known q :=
  h.imp_right fun ⟨p, a, h⟩ => ⟨p, a, hL p q a h⟩

theorem link_record {p q : Point} {a : Bytes} : (c.record n request after actions).Link p q a ↔
    (p, q, a) ∈ after.links ∨ c.Link p q a := by
  simp only [Link, trace_record, List.mem_cons, exists_eq_or_imp]
  rfl

theorem link_record_of_link {p q : Point} {a : Bytes} (h : c.Link p q a) :
    (c.record n request after actions).Link p q a :=
  link_record.mpr (Or.inr h)

/-- A log of old entries adds nothing to the tree. -/
theorem link_record_of_path (h : PathIn c.Link after.base after.log) :
    (c.record n request after actions).Link = c.Link := by
  funext p q a
  refine propext (link_record.trans ⟨fun hl => ?_, Or.inr⟩)
  exact hl.elim (fun hl => h _ hl) fun hl => hl

theorem pathIn_record (after : RaftCore) :
    PathIn (c.record n request after actions).Link after.base after.log :=
  fun _ hl => link_record.mpr (Or.inl hl)

namespace TreeInv

/-- The end of a path of known entries is known. -/
theorem known_end {p : Point} {es : List LogEntry} (hp : c.Known p) (h : PathIn c.Link p es) :
    c.Known (endPoint p es) := by
  rcases h.end_cases with rfl | ⟨q, a, hl⟩
  · exact hp
  · exact Or.inr ⟨q, a, hl⟩

/-- The tree of a run. -/
noncomputable def tree (hi : TreeInv c) : EntryTree Bytes :=
  hi.isTree.choose

theorem tree_link (hi : TreeInv c) : hi.tree.link = c.Link :=
  hi.isTree.choose_spec

theorem tree_mem (hi : TreeInv c) {q : Point} : hi.tree.Mem q ↔ c.Known q := by
  rw [EntryTree.Mem, hi.tree_link]
  rfl

theorem term_le (hi : TreeInv c) (p q : Point) (a : Bytes) (h : c.Link p q a) :
    p.term ≤ q.term :=
  hi.tree.term_le (hi.tree_link ▸ h)

/-- The only known point at index `0` is the root. -/
theorem eq_root (hi : TreeInv c) {q : Point} (hq : c.Known q) (h : q.index = 0) :
    q = Point.root := by
  rcases hq with rfl | ⟨p, a, hl⟩
  · rfl
  · have := hi.tree.index_succ (hi.tree_link ▸ hl)
    omega

theorem known_tip (hi : TreeInv c) (n : NodeId) : c.Known (c.core n).tip :=
  known_end (hi.base n) (hi.path n)

/-- The acting node takes a path of old entries, and keeps its end if it still leads. -/
def Walks (c : Cluster) (n : NodeId) (after : RaftCore) : Prop :=
  PathIn c.Link after.base after.log ∧ (after.state = .leader → (c.core n).state = .leader ∧
    after.currentTerm = (c.core n).currentTerm ∧ after.tip = (c.core n).tip)

/-- The acting node leads and appends an entry. -/
def Pushes (c : Cluster) (n : NodeId) (after : RaftCore) (command : Bytes) : Prop :=
  (c.core n).state ≠ .follower ∧ after.state = .leader ∧
    after.currentTerm = (c.core n).currentTerm ∧ after.base = (c.core n).base ∧
    after.log = (c.core n).log ++ [⟨(c.core n).currentTerm, command⟩]

/-- A merged log is a path of old entries with the end of the request on it. -/
theorem merged (hi : TreeInv c) {req : AppendEntriesRPC} (he : (n, .appendEntries req) ∈ c.net)
    (h : (c.core n).Merges req after) : PathIn c.Link after.base after.log ∧
      hi.tree.Anc req.last after.tip ∧ (after.log = (c.core n).log ∨ after.tip = req.last) := by
  obtain ⟨hk, hes, -⟩ := hi.append n req he
  obtain ⟨m, hle, hm, hp, hM⟩ := h.merged
  have hmeet : endPoint (c.core n).base ((c.core n).log.take m) = req.prev := by
    rcases hp with h0 | hp
    · -- the first request of all : both logs start at the root
      obtain rfl : m = 0 := by omega
      rw [hi.eq_root hk h0, List.take_zero, endPoint_nil]
      exact hi.eq_root (hi.base n) (by rw [RaftCore.base_index]; omega)
    · exact hp
  obtain ⟨hwalk, ⟨j, -, hj⟩, hlast⟩ := hM.path (hi.path n) hes hle hmeet
  rw [RaftCore.tip, h.base_eq]
  refine ⟨hwalk, ?_, hlast⟩
  rw [AppendEntriesRPC.last, ← hj]
  rw [← hi.tree_link] at hwalk
  exact EntryTree.anc_take hwalk j

/-- A log that has the end of the request already stays as it is. -/
theorem merged_eq (hi : TreeInv c) {req : AppendEntriesRPC} (he : (n, .appendEntries req) ∈ c.net)
    (h : (c.core n).Merges req after) (ha : hi.tree.Anc req.last (c.core n).tip) :
    after.log = (c.core n).log := by
  obtain ⟨-, hes, -⟩ := hi.append n req he
  have hpath := hi.path n
  rw [← hi.tree_link] at hes hpath
  obtain ⟨m, -, hm, -, hM⟩ := h.merged
  rcases hM with ⟨heq, -⟩ | ⟨k, hk, -, -, -, hne⟩
  · exact heq
  · -- the entry at the conflict is on both paths
    have hlen := ha.index_le
    simp only [AppendEntriesRPC.last, AppendEntriesRPC.prev, endPoint_index, RaftCore.tip_index,
      RaftCore.lastLogIndex] at hlen
    have hmk : m + k < (c.core n).log.length := by omega
    have hagree : req.entries[k] = (c.core n).log[m + k] := by
      refine EntryTree.path_agree hes hpath (EntryTree.anc_refl _) ha hk hmk ?_ ?_
      · change req.prevLogIndex + k = (c.core n).lastIncludedIndex + (m + k)
        omega
      · rw [endPoint_index]
        omega
    rw [List.getElem?_eq_getElem hmk, List.getElem?_eq_getElem hk, hagree] at hne
    exact absurd rfl hne

/-- What a move makes of the acting node's log. -/
theorem move (hi : TreeInv c) (he : c.Enabled n request) (hr : c.Rooted (.call n request rnd))
    (hm : (c.core n).LogMove request after)
    (hle : (c.core n).currentTerm ≤ after.currentTerm) :
    c.Known after.base ∧ after.tip.term ≤ after.currentTerm ∧
      (Walks c n after ∨ ∃ command, Pushes c n after command) := by
  have hpath := hi.path n
  have htip := hi.tip_term n
  cases hm with
  | keep hb hl hs =>
    have ht : after.tip = (c.core n).tip := by rw [RaftCore.tip, hb, hl, RaftCore.tip]
    rw [hb, ht]
    refine ⟨hi.base n, htip.trans hle, Or.inl ⟨hb ▸ hl ▸ hpath, fun hl => ?_⟩⟩
    exact ⟨(hs hl).1, (hs hl).2, ht⟩
  | @push _ _ command hs hs' ht hb hl =>
    refine ⟨hb ▸ hi.base n, ?_, Or.inr ⟨command, hs, hs', ht, hb, hl⟩⟩
    rw [RaftCore.tip, hl, endPoint_append]
    exact ht.ge
  | @merge req _ h =>
    obtain ⟨hwalk, hlast, hcases⟩ := hi.merged he h
    have hterm : after.tip.term ≤ after.currentTerm := by
      rw [h.term_eq]
      rcases hcases with hsame | heq
      · rw [RaftCore.tip, h.base_eq, hsame]
        exact htip.trans h.term_le
      · rw [heq]
        exact (hi.append n req he).2.2
    exact ⟨h.base_eq ▸ hi.base n, hterm, Or.inl ⟨hwalk, fun hl => by simp [h.state] at hl⟩⟩
  | @install req _ ht ht' hs' _ _ hb hl =>
    obtain ⟨hk, hend⟩ := hi.install n req he
    have ht₀ : after.tip = req.point := by rw [RaftCore.tip, hb, hl]; rfl
    refine ⟨hb ▸ hk, by rw [ht₀, ht']; exact hend, Or.inl ⟨hl ▸ PathIn.nil _ _, fun h => ?_⟩⟩
    rcases hs' with hs' | ⟨hs', heq⟩
    · simp [hs'] at h
    · exact absurd heq (hr.2 req rfl (hs' ▸ h))
  | @compact _ _ k _ hk _ hb hl hs =>
    have ht : after.tip = (c.core n).tip := by
      rw [RaftCore.tip, hb, hl, ← endPoint_append, List.take_append_drop, RaftCore.tip]
    refine ⟨hb ▸ known_end (hi.base n) (hpath.take k), by rw [ht]; exact htip.trans hle,
      Or.inl ⟨hb ▸ hl ▸ hpath.drop k, fun hl => ⟨(hs hl).1, (hs hl).2, ht⟩⟩⟩

/-- The tree after an append has one more link. -/
theorem link_record_of_pushes (hi : TreeInv c) {command : Bytes} (h : Pushes c n after command)
    {p q : Point} {a : Bytes} : (c.record n request after actions).Link p q a ↔
      c.Link p q a ∨ p = (c.core n).tip ∧
        q = ⟨(c.core n).tip.index + 1, (c.core n).currentTerm⟩ ∧ a = command := by
  obtain ⟨-, -, -, hb, hl⟩ := h
  have hlinks : after.links = ((c.core n).push command).links := by
    rw [RaftCore.links, hb, hl]
    rfl
  rw [link_record, hlinks, RaftCore.push_links, List.mem_append, List.mem_singleton,
    Prod.mk.injEq, Prod.mk.injEq, or_comm, ← or_assoc]
  exact or_congr_left ⟨fun h => h.elim (fun h => h) fun h => hi.path n _ h, Or.inl⟩

/-- An appended entry is above all entries of its term. -/
theorem fresh (hi : TreeInv c) (hu : (c.record n request after actions).OneLeader)
    {command : Bytes} (h : Pushes c n after command) (p q : Point) (a : Bytes)
    (hl : c.Link p q a) (ht : q.term = (c.core n).currentTerm) :
    q.index ≤ (c.core n).tip.index ∧ (c.core n).tip.term = (c.core n).currentTerm := by
  obtain ⟨hs, hs', ht', -, -⟩ := h
  cases hst : (c.core n).state with
  | follower => exact absurd hst hs
  | leader => exact ⟨(hi.leader n hst).2.2 p q a hl ht, (hi.leader n hst).2.1⟩
  | candidate =>
    -- the first entry of its term : a term has one leader, who is no candidate again
    obtain ⟨m, hm⟩ := hi.led p q a hl
    have hn : (c.record n request after actions).Led n q.term :=
      led_record.mpr (Or.inl ⟨rfl, hs', ht'.trans ht.symm⟩)
    obtain rfl := hu m n q.term (led_record.mpr (Or.inr hm)) hn
    exact absurd hst ((hi.past m q.term hm).2.2 ht)

theorem tree_record (hi : TreeInv c) (hu : (c.record n request after actions).OneLeader)
    (hmove : Walks c n after ∨ ∃ command, Pushes c n after command) :
    (∃ T : EntryTree Bytes, T.link = (c.record n request after actions).Link) ∧
      ∀ p q a, (c.record n request after actions).Link p q a →
        c.Link p q a ∨ after.state = .leader ∧ q.term = after.currentTerm ∧ q = after.tip := by
  rcases hmove with hw | ⟨command, hp⟩
  · rw [link_record_of_path hw.1]
    exact ⟨hi.isTree, fun p q a hl => Or.inl hl⟩
  · refine ⟨⟨hi.tree.push (c.core n).tip (c.core n).currentTerm command
      (hi.tree_mem.mpr (hi.known_tip n)) (hi.tip_term n) (hi.active n hp.1) ?_, ?_⟩, ?_⟩
    · rw [hi.tree_link]
      exact hi.fresh hu hp
    · funext p q a
      have hl : hi.tree.link p q a ↔ c.Link p q a := by rw [hi.tree_link]
      exact propext ((or_congr_left hl).trans (hi.link_record_of_pushes hp).symm)
    · intro p q a hl
      rcases (hi.link_record_of_pushes hp).mp hl with hl | ⟨-, rfl, -⟩
      · exact Or.inl hl
      · obtain ⟨-, hs', ht', hb, hlog⟩ := hp
        refine Or.inr ⟨hs', ht'.symm, ?_⟩
        rw [RaftCore.tip, RaftCore.tip, hb, hlog, endPoint_append]
        rfl

/-- A leader's end after a call of its own or of another node. -/
theorem leader_record (hi : TreeInv c) (hu : (c.record n request after actions).OneLeader)
    (hmove : Walks c n after ∨ ∃ command, Pushes c n after command) (hl : after.state = .leader) :
    after.tip.term = after.currentTerm ∧ ∀ p q a, (c.record n request after actions).Link p q a →
      q.term = after.currentTerm → q.index ≤ after.tip.index := by
  rcases hmove with hw | ⟨command, hp⟩
  · obtain ⟨hs, ht, htip⟩ := hw.2 hl
    rw [link_record_of_path hw.1, ht, htip]
    exact (hi.leader n hs).2
  · have htip : after.tip = ⟨(c.core n).tip.index + 1, (c.core n).currentTerm⟩ := by
      obtain ⟨-, -, -, hb, hlog⟩ := hp
      rw [RaftCore.tip, RaftCore.tip, hb, hlog, endPoint_append]
      rfl
    rw [htip, hp.2.2.1]
    refine ⟨rfl, fun p q a hlink ht => ?_⟩
    rcases (hi.link_record_of_pushes hp).mp hlink with hlink | ⟨-, rfl, -⟩
    · exact (hi.fresh hu hp p q a hlink ht).1.trans (Nat.le_succ _)
    · exact le_rfl

/-- Another leader's end : a link of its term would have made two leaders. -/
theorem leader_other (hi : TreeInv c) (hu : (c.record n request after actions).OneLeader)
    (hlinks : ∀ p q a, (c.record n request after actions).Link p q a →
      c.Link p q a ∨ after.state = .leader ∧ q.term = after.currentTerm ∧ q = after.tip)
    {m : NodeId} (hm : m ≠ n) (hs : (c.core m).state = .leader) :
    (c.record n request after actions).Led m (c.core m).currentTerm ∧
      (c.core m).tip.term = (c.core m).currentTerm ∧
      ∀ p q a, (c.record n request after actions).Link p q a →
        q.term = (c.core m).currentTerm → q.index ≤ (c.core m).tip.index := by
  obtain ⟨h1, h2, h3⟩ := hi.leader m hs
  refine ⟨led_record.mpr (Or.inr h1), h2, fun p q a hl ht => ?_⟩
  rcases hlinks p q a hl with hl | ⟨hs', ht', -⟩
  · exact h3 p q a hl ht
  · have hn : (c.record n request after actions).Led n (c.core m).currentTerm :=
      led_record.mpr (Or.inl ⟨rfl, hs', ht'.symm.trans ht⟩)
    exact absurd (hu m n _ (led_record.mpr (Or.inr h1)) hn) hm

/-- Who led before the call, or leads after it. -/
theorem past_record (hi : TreeInv c) (ho : (c.core n).Outcome rnd request after actions)
    {m : NodeId} {t : ℕ} (hl : (c.record n request after actions).Led m t) :
    0 < t ∧ t ≤ ((c.record n request after actions).core m).currentTerm ∧
      (t = ((c.record n request after actions).core m).currentTerm →
        ((c.record n request after actions).core m).state ≠ .candidate) := by
  have hvote := ho.voteMove
  rcases led_record.mp hl with ⟨rfl, hs, rfl⟩ | hl
  · rw [core_record_self]
    exact ⟨hvote.active (hi.active _) (by simp [hs]), le_rfl, fun _ => by simp [hs]⟩
  · obtain ⟨h1, h2, h3⟩ := hi.past m t hl
    by_cases hm : m = n
    · subst hm
      rw [core_record_self]
      refine ⟨h1, h2.trans hvote.vote_kept.1, fun ht hc => ?_⟩
      rcases (hvote.candidate hc).2 with hlt | ⟨hc', heq⟩
      · omega
      · exact h3 (ht.trans heq) hc'
    · rw [core_record_of_ne hm]
      exact ⟨h1, h2, h3⟩

/-- What speaks for a leader after a call comes from the acting node's log. -/
theorem sent_record {c' : Cluster} {after : RaftCore}
    (hterm : ∀ p q a, c'.Link p q a → p.term ≤ q.term) (hb : c'.Known after.base)
    (hpath : PathIn c'.Link after.base after.log) (ht : after.tip.term ≤ after.currentTerm)
    {peer : NodeId} {a : Action} (h : after.buildAppendEntriesForPeer peer = some a) :
    (∀ dst req, a = .sendMessage dst (.appendEntries req) →
      c'.Known req.prev ∧ PathIn c'.Link req.prev req.entries ∧ req.last.term ≤ req.term) ∧
      ∀ dst t i l, a = .sendInstallSnapshot dst t i l → c'.Known ⟨i, l⟩ ∧ l ≤ t := by
  rcases RaftCore.buildAppendEntriesForPeer_cases h with rfl | ⟨k, -, es, rfl, hes⟩
  · refine ⟨fun dst req h => (by cases h), fun dst t i l h => ?_⟩
    cases h
    exact ⟨hb, (hpath.term_le hterm).trans ht⟩
  · refine ⟨fun dst req h => ?_, fun dst t i l h => (by cases h)⟩
    cases h
    refine ⟨known_end hb (hpath.take k), ?_, ?_⟩
    · rcases hes with rfl | ⟨rfl, -⟩
      · exact hpath.drop k
      · exact PathIn.nil _ _
    · change (endPoint (endPoint _ _) es).term ≤ _
      rcases hes with rfl | ⟨rfl, rfl, -⟩
      · rw [← endPoint_append, List.take_append_drop]
        exact ht
      · exact (hpath.term_le hterm).trans ht

end TreeInv

/-- A call keeps the tree. -/
theorem treeInv_record (hi : TreeInv c) (hu : (c.record n request after actions).OneLeader)
    (he : c.Enabled n request) (hr : c.Rooted (.call n request rnd))
    (ho : (c.core n).Outcome rnd request after actions) :
    TreeInv (c.record n request after actions) := by
  have hvote := ho.voteMove
  have hle := hvote.vote_kept.1
  obtain ⟨hbase, htip, hmove⟩ := hi.move he hr (ho.logMove hr.1) hle
  obtain ⟨htree, hlinks⟩ := hi.tree_record hu hmove
  have hmono : ∀ p q a, c.Link p q a → (c.record n request after actions).Link p q a :=
    fun p q a => link_record_of_link
  have hbase' := hbase.mono hmono
  have hpath' : PathIn (c.record n request after actions).Link after.base after.log :=
    pathIn_record after
  have hterm : ∀ p q a, (c.record n request after actions).Link p q a → p.term ≤ q.term := by
    obtain ⟨T, hT⟩ := htree
    rw [← hT]
    exact fun p q a => T.term_le
  refine { isTree := htree, led := ?_, vote := ?_, disk := ?_, base := ?_, path := ?_,
           tip_term := ?_, append := ?_, install := ?_, active := ?_, leader := ?_, past := ?_ }
  · intro p q a hl
    rcases hlinks p q a hl with hl | ⟨hs, ht, -⟩
    · obtain ⟨m, hm⟩ := hi.led p q a hl
      exact ⟨m, led_record.mpr (Or.inr hm)⟩
    · exact ⟨n, led_record.mpr (Or.inl ⟨rfl, hs, ht.symm⟩)⟩
  · refine forall_node (fun m => core_record_of_ne) (fun m => disk_record_of_ne) ?_ hi.vote
    rw [disk_record_self, core_record_self]
    exact (hi.vote n).afterCall ho
  · refine forall_node (fun m => core_record_of_ne) (fun m => disk_record_of_ne) ?_ hi.disk
    rw [disk_record_self, core_record_self]
    exact (hi.disk n).afterCall ho hr.1.entries
  · exact forall_core (P := fun _ core => Known _ core.base) (fun m => core_record_of_ne)
      (by rwa [core_record_self]) fun m _ => (hi.base m).mono hmono
  · exact forall_core (P := fun _ core => PathIn _ core.base core.log) (fun m => core_record_of_ne)
      (by rwa [core_record_self]) fun m _ => (hi.path m).mono hmono
  · exact forall_core (P := fun _ core => core.tip.term ≤ core.currentTerm)
      (fun m => core_record_of_ne) (by rwa [core_record_self]) fun m _ => hi.tip_term m
  · intro dst req hm
    rcases mem_net_record (by simp) hm with hm | hm
    · obtain ⟨peer, hb, -⟩ := ho.built hm trivial
      exact (TreeInv.sent_record hterm hbase' hpath' htip hb).1 dst req rfl
    · obtain ⟨h1, h2, h3⟩ := hi.append dst req hm
      exact ⟨h1.mono hmono, h2.mono hmono, h3⟩
  · intro dst req hm
    rcases installSnapshot_mem_net_record ho hm with ⟨hsend, -⟩ | hm
    · obtain ⟨peer, hb, -⟩ := ho.built hsend trivial
      exact (TreeInv.sent_record hterm hbase' hpath' htip hb).2 dst _ _ _ rfl
    · obtain ⟨h1, h2⟩ := hi.install dst req hm
      exact ⟨h1.mono hmono, h2⟩
  · exact forall_core (P := fun _ core => core.state ≠ .follower → 0 < core.currentTerm)
      (fun m => core_record_of_ne) (by rw [core_record_self]; exact hvote.active (hi.active n))
      fun m _ => hi.active m
  · intro m hs
    by_cases hm : m = n
    · subst hm
      rw [core_record_self] at hs ⊢
      exact ⟨led_record.mpr (Or.inl ⟨rfl, hs, rfl⟩), hi.leader_record hu hmove hs⟩
    · rw [core_record_of_ne hm] at hs ⊢
      exact hi.leader_other hu hlinks hm hs
  · exact fun m t hl => hi.past_record ho hl

/-- A restarted node has the log and the snapshot point it had. -/
theorem TreeInv.restart (hi : TreeInv c) (cfg : Config) (n : NodeId) (t rnd : ℕ) :
    ((c.crashed cfg n t rnd).core n).log = (c.core n).log ∧
      ((c.crashed cfg n t rnd).core n).base = (c.core n).base := by
  obtain ⟨hlog, hbase⟩ := (hi.disk n).termActions t
  rw [crashed, core_setNode_self, Config.restart_log]
  refine ⟨hlog, (cfg.restart_base n rnd fun h0 => ?_).trans hbase⟩
  rw [hbase] at h0 ⊢
  exact hi.eq_root (hi.base n) h0

/-- A crash keeps the tree. -/
theorem treeInv_crashed (hi : TreeInv c) (n : NodeId) (t rnd : ℕ) :
    TreeInv (c.crashed cfg n t rnd) := by
  obtain ⟨hlog, hbase⟩ := hi.restart cfg n t rnd
  have htip : ((c.crashed cfg n t rnd).core n).tip = (c.core n).tip := by
    rw [RaftCore.tip, hlog, hbase, RaftCore.tip]
  have hterm : (c.core n).currentTerm ≤ ((c.crashed cfg n t rnd).core n).currentTerm := by
    simpa [crashed] using ((hi.vote n).termActions t).1
  have hstate : ((c.crashed cfg n t rnd).core n).state = .follower := by simp [crashed]
  have hother : ∀ m ≠ n, (c.crashed cfg n t rnd).core m = c.core m := fun m hm =>
    core_setNode_of_ne _ hm
  have hdisk : ∀ m ≠ n, (c.crashed cfg n t rnd).disk m = c.disk m := fun m hm =>
    disk_setNode_of_ne _ hm
  refine { isTree := hi.isTree, led := hi.led, vote := ?_, disk := ?_, base := ?_, path := ?_,
           tip_term := ?_, append := hi.append, install := hi.install, active := ?_,
           leader := ?_, past := ?_ }
  · refine forall_node hother hdisk ?_ hi.vote
    simp [crashed, Mirror.VoteOf]
  · refine forall_node hother hdisk ?_ hi.disk
    obtain ⟨h1, h2⟩ := (hi.disk n).termActions t
    rw [Mirror.LogOf, hlog, hbase]
    simpa [crashed] using And.intro h1 h2
  · exact forall_core (P := fun _ core => Known _ core.base) hother (hbase ▸ hi.base n)
      fun m _ => hi.base m
  · exact forall_core (P := fun _ core => PathIn _ core.base core.log) hother
      (by rw [hbase, hlog]; exact hi.path n) fun m _ => hi.path m
  · exact forall_core (P := fun _ core => core.tip.term ≤ core.currentTerm) hother
      (htip ▸ (hi.tip_term n).trans hterm) fun m _ => hi.tip_term m
  · exact forall_core (P := fun _ core => core.state ≠ .follower → 0 < core.currentTerm) hother
      (fun hs => absurd hstate hs) fun m _ => hi.active m
  · intro m hs
    have hcore : (c.crashed cfg n t rnd).core m = c.core m :=
      core_crashed_of_active (by simp [hs])
    rw [hcore] at hs ⊢
    exact hi.leader m hs
  · intro m t' hl
    obtain ⟨h1, h2, h3⟩ := hi.past m t' hl
    by_cases hm : m = n
    · subst hm
      exact ⟨h1, h2.trans hterm, fun _ => by simp [hstate]⟩
    · rw [hother m hm]
      exact ⟨h1, h2, h3⟩

theorem treeInv_init (cfg : Config) : TreeInv cfg.init where
  isTree := ⟨.empty Bytes, by funext p q a; simp [Link, Config.init, EntryTree.empty]⟩
  led p q a hl := by simp [Link, Config.init] at hl
  vote _ := ⟨rfl, rfl⟩
  disk _ := ⟨rfl, rfl⟩
  base _ := Or.inl rfl
  path _ := PathIn.nil _ _
  tip_term _ := le_rfl
  append dst req hm := by simp [net, Config.init] at hm
  install dst req hm := by simp [net, Config.init] at hm
  active n hs := absurd rfl hs
  leader n hs := by cases hs
  past n t hl := by simp [Led, Config.init] at hl

/-- One step keeps the tree. -/
theorem treeInv_step {i : Input} (hi : TreeInv c) (hr : c.Rooted i) (hu : c'.OneLeader)
    (hs : cfg.machine.step c i = some c') : TreeInv c' := by
  rcases step_cases hs with ⟨n, request, rnd, after, actions, rfl, -, he, ho, rfl⟩ |
    ⟨n, t, rnd, -, rfl, -⟩
  · exact treeInv_record hi hu he hr ho
  · exact treeInv_crashed hi n t rnd

theorem OneLeader.of_step {i : Input} (hu : c'.OneLeader)
    (hs : cfg.machine.step c i = some c') : c.OneLeader := by
  rcases step_cases hs with ⟨n, request, rnd, after, actions, rfl, -, -, -, rfl⟩ |
    ⟨n, t, rnd, -, rfl, -⟩
  · exact hu.of_record
  · exact hu

theorem treeInv_run (h : cfg.machine.Run Rooted cfg.init c) (hu : c.OneLeader) : TreeInv c :=
  h.invariant (P := fun c => c.OneLeader → TreeInv c) (fun _ => treeInv_init cfg)
    (fun _ _ _ hi hr hs hu => treeInv_step (hi (hu.of_step hs)) hr hu hs) hu

end Cluster

end FerrisFerry
