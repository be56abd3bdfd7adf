import FerrisFerry.AppendOnly
import FerrisFerry.Gapless
import FerrisFerry.Handling

/-!
# The clients that wait

The event loop keeps a client that waits for its proposal under the index of the entry, and
one that waits for a read under the id of the barrier. `RaftDriver.Serves` says what a list of
actions does to both maps : an applied entry and a released barrier take their client out and
answer it, and nothing else touches the maps.

On either side of the actions a new client is entered in its map or refused
(`RaftDriver.intake_propose`, `RaftDriver.intake_read`), and a leader that steps down answers
everybody (`RaftDriver.conclude_cases`). What the core does to its barriers meanwhile is
`RaftCore.BarriersAfter`.
-/

namespace FerrisFerry

/-- Taking a key out of a map takes out its value. -/
theorem perm_lookup_erase (m : AList fun _ : ℕ => Channel) (k : ℕ) :
    (m.entries.map Sigma.snd).Perm
      ((m.lookup k).toList ++ (m.erase k).entries.map Sigma.snd) := by
  by_cases hk : k ∈ m
  · obtain ⟨b, l₁, l₂, -, hm, he⟩ := List.exists_of_kerase hk
    have hb : m.lookup k = some b := AList.mem_lookup_iff.mpr (by rw [hm]; simp)
    have he' : (m.erase k).entries = l₁ ++ l₂ := he
    rw [hm, hb, he', List.map_append, List.map_cons, List.map_append]
    exact List.perm_middle
  · have hnone : m.lookup k = none := AList.lookup_eq_none.mpr hk
    have he : (m.erase k).entries = m.entries := List.kerase_of_notMem_keys hk
    rw [hnone, he]
    exact List.Perm.refl _

theorem lookup_erase_eq_some {m : AList fun _ : ℕ => Channel} {i k : ℕ} {ch : Channel} :
    (m.erase k).lookup i = some ch ↔ m.lookup i = some ch ∧ i ≠ k := by
  by_cases h : i = k
  · subst h
    simp
  · rw [AList.lookup_erase_ne h]
    exact (and_iff_left h).symm

/-- Every index that comes to be applied is applied by an action. -/
theorem Applies.mem {n m i : ℕ} {actions : List Action} (h : Applies n actions m) (hlo : n < i)
    (hhi : i ≤ m) : ∃ command, .applyToStateMachine i command ∈ actions := by
  induction h with
  | nil => omega
  | @apply n m command actions h ih =>
    by_cases hi : i = n + 1
    · exact ⟨command, hi ▸ List.mem_cons_self⟩
    · obtain ⟨c, hc⟩ := ih (by omega) hhi
      exact ⟨c, List.mem_cons_of_mem _ hc⟩
  | skip _ _ ih =>
    obtain ⟨c, hc⟩ := ih hlo hhi
    exact ⟨c, List.mem_cons_of_mem _ hc⟩

/-! ## Local snapshots -/

namespace RaftCore

variable {core core' core'' : RaftCore}

/-- The core after a local snapshot, or as it was : applied entries may have left the log. -/
structure Trims (core core' : RaftCore) : Prop where
  frame : core' = { core with
    log := core'.log
    lastIncludedIndex := core'.lastIncludedIndex
    lastIncludedTerm := core'.lastIncludedTerm }
  last : core'.lastLogIndex = core.lastLogIndex
  base : core.lastIncludedIndex ≤ core.lastApplied →
    core'.lastIncludedIndex ≤ core.lastApplied
  entries : ∀ i, core'.lastIncludedIndex < i → core'.logEntryAt i = core.logEntryAt i
  base_le : core.lastIncludedIndex ≤ core'.lastIncludedIndex

theorem Trims.refl (core : RaftCore) : core.Trims core :=
  ⟨rfl, rfl, fun h => h, fun _ _ => rfl, le_rfl⟩

theorem Trims.trans (h : core.Trims core') (h' : core'.Trims core'') : core.Trims core'' := by
  have hla : core'.lastApplied = core.lastApplied := by rw [h.frame]
  refine ⟨?_, h'.last.trans h.last, fun hb => ?_, fun i hi => ?_, h.base_le.trans h'.base_le⟩
  · rw [h'.frame, h.frame]
  · exact hla ▸ h'.base (hla.symm ▸ h.base hb)
  · exact (h'.entries i hi).trans (h.entries i (lt_of_le_of_lt h'.base_le hi))

theorem trims_completeSnapshot {metadata : SnapshotMetadata}
    (hp : core.prepareSnapshot = some metadata) (hc : core.completeSnapshot metadata = some core') :
    core.Trims core' := by
  have hlast : core'.lastLogIndex = core.lastLogIndex := by
    rw [← tip_index, ← tip_index, completeSnapshot_tip hp hc]
  rcases completeSnapshot_spec hp hc with ⟨-, rfl⟩ | ⟨k, -, hk, hla, hpt, rfl⟩
  · exact .refl _
  · exact ⟨rfl, hlast, fun _ => le_rfl, fun i hi => logEntryAt_drop hla rfl hi,
      hla ▸ Nat.le_add_right _ k⟩

theorem Trims.level (h : core.Trims core') (hl : core.Level) : core'.Level := by
  have hla : core'.lastApplied = core.lastApplied := by rw [h.frame]
  have hci : core'.commitIndex = core.commitIndex := by rw [h.frame]
  exact ⟨⟨by rw [hla, hci, hl.applied], by rw [hla]; exact h.base hl.base⟩,
    by rw [hci, h.last]; exact hl.commit⟩

end RaftCore

/-! ## The barriers of the core -/

theorem mem_foldl_erase {ids : List ℕ} {m : AList fun _ : ℕ => ℕ} {id : ℕ} :
    id ∈ ids.foldl (fun m id => m.erase id) m ↔ id ∈ m ∧ id ∉ ids := by
  induction ids generalizing m with
  | nil => simp
  | cons i ids ih =>
    rw [List.foldl_cons, ih, AList.mem_erase, List.mem_cons, not_or, and_comm (a := id ≠ i),
      and_assoc]

namespace RaftCore

variable {core core' : RaftCore} {rnd : ℕ} {request : Request} {actions : List Action}

/-- Only a counted success releases a barrier. -/
theorem Outcome.not_ready (h : core.Outcome rnd request core' actions)
    (hr : ∀ resp, request = .message (.appendEntriesResponse resp) → resp.success = false)
    (id : ℕ) : .readBarrierReady id ∉ actions := by
  intro ha
  cases h.emits ha with
  | leading hb => exact (leading_of_build hb).elim
  | ready hq hs =>
    rw [hr _ hq] at hs
    cases hs

/-- What a call leaves of the barriers : nothing at a node that steps down, and at any other
what was there or is asked for, as far as it is not released. -/
inductive BarriersAfter (core : RaftCore) (request : Request) (core' : RaftCore)
    (actions : List Action) : Prop
  | dropped (hs : core'.state ≠ .leader) (hr : ∀ id, id ∉ core'.readBarriers)
  | kept (hs : core.state = .leader → core'.state = .leader)
      (hr : ∀ id, id ∈ core'.readBarriers ↔ (id ∈ core.readBarriers ∨ core.state = .leader ∧
        id = core.nextReadBarrierId + 1 ∧ request = .readBarrier) ∧
        .readBarrierReady id ∉ actions)

theorem BarriersAfter.keep (h : core.Outcome rnd request core' actions)
    (hr : ∀ resp, request = .message (.appendEntriesResponse resp) → resp.success = false)
    (hq : request ≠ .readBarrier) (hs : core.state = .leader → core'.state = .leader)
    (hb : core'.readBarriers = core.readBarriers) : core.BarriersAfter request core' actions :=
  .kept hs fun id => by simp [hb, hq, h.not_ready hr id]

/-- A message, from what the term check leaves. -/
theorem BarriersAfter.checked {msg : Message} (t : ℕ)
    (h : core.Outcome rnd (.message msg) core' actions)
    (hr : ∀ resp, msg = .appendEntriesResponse resp → resp.success = false)
    (hs : (core.termChecked t rnd).state = .leader → core'.state = .leader)
    (hf : (core.termChecked t rnd).state = .follower → core'.state = .follower)
    (hb : core'.readBarriers = (core.termChecked t rnd).readBarriers) :
    core.BarriersAfter (.message msg) core' actions := by
  rcases Nat.lt_or_ge core.currentTerm t with hlt | hge
  · rw [termChecked_of_lt hlt] at hf hb
    exact .dropped (by simp [hf rfl]) fun id => hb ▸ AList.notMem_empty id
  · rw [termChecked_of_le hge] at hs hb
    exact .keep h (fun resp hq => hr resp (Request.message.inj hq)) nofun hs hb

theorem BarriersAfter.record {resp : AppendEntriesResponseRPC} {recorded : List Action}
    (hr : (core.termChecked resp.term rnd).recordSuccess resp = some (core', recorded)) :
    core.BarriersAfter (.message (.appendEntriesResponse resp)) core'
      (core.termActions resp.term ++ recorded) := by
  have hrec := recordSuccess_spec hr
  have hst : core'.state = (core.termChecked resp.term rnd).state := by rw [hrec.frame]
  rcases Nat.lt_or_ge core.currentTerm resp.term with hlt | hge
  · rw [termChecked_of_lt hlt] at hrec hst
    refine .dropped (by simp [hst]) fun id hid => ?_
    rw [hrec.barriers, mem_foldl_erase] at hid
    exact AList.notMem_empty id hid.1
  · rw [termChecked_of_le hge] at hrec hst
    refine .kept (fun hl => hst.trans hl) fun id => ?_
    obtain ⟨entries, -, rfl⟩ := hrec.actions
    rw [hrec.barriers, mem_foldl_erase, termActions_of_le hge, List.nil_append]
    refine and_congr (by simp) (not_congr ?_)
    rw [List.mem_append, List.mem_map]
    constructor
    · exact fun h => Or.inr ⟨id, h, rfl⟩
    · rintro (h | ⟨j, hj, hid⟩)
      · obtain ⟨j, hj, h⟩ := List.mem_mapIdx.mp h
        cases h
      · exact Action.readBarrierReady.inj hid ▸ hj

theorem requestReadBarrier_of_leader (hl : core.state = .leader) :
    core.requestReadBarrier.1 = { core with
      nextReadBarrierId := core.nextReadBarrierId + 1
      readBarriers := core.readBarriers.insert (core.nextReadBarrierId + 1)
        core.appendEntriesCount } := by
  rw [requestReadBarrier, if_neg (not_not.mpr hl)]

theorem requestReadBarrier_of_not_leader (hl : core.state ≠ .leader) :
    core.requestReadBarrier.1 = core := by
  rw [requestReadBarrier, if_pos hl]

theorem termChecked_nextReadBarrierId (core : RaftCore) (t rnd : ℕ) :
    (core.termChecked t rnd).nextReadBarrierId = core.nextReadBarrierId := by
  unfold termChecked checkMsgTerm
  split_ifs <;> rfl

theorem Outcome.nextReadBarrierId (h : core.Outcome rnd request core' actions) :
    core.nextReadBarrierId ≤ core'.nextReadBarrierId ∧
      (core.state = .leader → request = .readBarrier →
        core'.nextReadBarrierId = core.nextReadBarrierId + 1) := by
  have hkeep : request ≠ .readBarrier → core'.nextReadBarrierId = core.nextReadBarrierId →
      core.nextReadBarrierId ≤ core'.nextReadBarrierId ∧
        (core.state = .leader → request = .readBarrier →
          core'.nextReadBarrierId = core.nextReadBarrierId + 1) := fun hq hn =>
    ⟨hn.ge, fun _ h => absurd h hq⟩
  cases h with
  | barrier =>
    by_cases hl : core.state = .leader
    · rw [requestReadBarrier_of_leader hl]
      exact ⟨Nat.le_succ _, fun _ _ => rfl⟩
    · rw [requestReadBarrier_of_not_leader hl]
      exact ⟨le_rfl, fun h => absurd h hl⟩
  | compact hp hc =>
    refine hkeep nofun ?_
    rw [(trims_completeSnapshot hp hc).frame]
  | @acceptAppend req _ _ _ _ _ ha =>
    refine hkeep nofun ?_
    rw [acceptEntries_frame ha]
    exact termChecked_nextReadBarrierId core req.term rnd
  | @success resp _ _ _ hr =>
    refine hkeep nofun ?_
    rw [(recordSuccess_spec hr).frame]
    exact termChecked_nextReadBarrierId core resp.term rnd
  | wait | heartbeat | stand | refuse | append | collectVote | win | staleSnapshot
  | recordSnapshotResponse => exact hkeep nofun rfl
  | _ => exact hkeep nofun (termChecked_nextReadBarrierId core _ rnd)

theorem Outcome.barriersAfter (h : core.Outcome rnd request core' actions) :
    core.BarriersAfter request core' actions := by
  have h' := h
  cases h with
  | barrier =>
    by_cases hl : core.state = .leader
    · rw [requestReadBarrier_of_leader hl]
      exact .kept (fun hl => hl) fun id => by simp [AList.mem_insert, hl, or_comm]
    · rw [requestReadBarrier_of_not_leader hl]
      exact .kept (fun hl => hl) fun id => by simp [hl]
  | compact hp hc =>
    have hf := (trims_completeSnapshot hp hc).frame
    refine .keep h' (by simp) (by simp) (fun hl => ?_) ?_ <;> rw [hf]
    exact hl
  | @acceptAppend req _ _ _ hl _ ha =>
    refine .checked req.term h' (by simp) (fun h => absurd h hl) ?_ ?_ <;>
      rw [acceptEntries_frame ha]
    · intro hf
      simp [follow, hf]
    · rfl
  | success _ hr => exact .record hr
  | failure hs =>
    refine .checked _ h' (fun resp hq => ?_) (fun h => h) (fun h => h) rfl
    cases hq
    exact hs
  | stand hl | win _ hl => exact .keep h' (by simp) (by simp) (fun h => absurd h (by simp [hl])) rfl
  | wait | heartbeat | refuse | append | collectVote | staleSnapshot | recordSnapshotResponse =>
    exact .keep h' (by simp) (by simp) (fun h => h) rfl
  | conflictAppend | oldSnapshot | haveSnapshot | installSnapshot =>
    exact .checked _ h' (by simp) (fun h => by simp [follow, install, h])
      (fun h => by simp [follow, install, h]) rfl
  | denyVote | grantVote | ignoreVote | rejectAppend | ignoreSnapshotResponse =>
    exact .checked _ h' (by simp) (fun h => h) (fun h => h) rfl

/-- Only a message can make a leader step down. -/
theorem Outcome.leads_of_not_message (h : core.Outcome rnd request core' actions)
    (hreq : ∀ msg, request ≠ .message msg) (hl : core.state = .leader) : core'.state = .leader := by
  cases h with
  | wait | heartbeat | refuse | append => exact hl
  | stand hl' => exact absurd hl hl'
  | barrier =>
    rw [requestReadBarrier_of_leader hl]
    exact hl
  | compact hp hc =>
    rw [(trims_completeSnapshot hp hc).frame]
    exact hl
  | _ => exact absurd rfl (hreq _)

/-- A snapshot of a leader's own term reaches it. -/
def OwnSnapshot (core : RaftCore) : Request → Prop
  | .message (.installSnapshot req) => core.state = .leader ∧ req.term = core.currentTerm
  | _ => False

instance (core : RaftCore) : (request : Request) → Decidable (core.OwnSnapshot request)
  | .message (.installSnapshot req) =>
    inferInstanceAs (Decidable (core.state = .leader ∧ req.term = core.currentTerm))
  | .message (.requestVote _) | .message (.requestVoteResponse _) | .message (.appendEntries _)
  | .message (.appendEntriesResponse _) | .message (.installSnapshotResponse _) | .tick
  | .propose _ | .readBarrier | .snapshot _ => inferInstanceAs (Decidable False)

/-- A snapshot that is not of the leader's own term and leaves it leader is a stale one. -/
theorem Outcome.stale_of_leader {req : InstallSnapshotRPC}
    (h : core.Outcome rnd (.message (.installSnapshot req)) core' actions)
    (hl : core.state = .leader) (hl' : core'.state = .leader)
    (hown : ¬core.OwnSnapshot (.message (.installSnapshot req))) : core' = core := by
  have hlt : core.currentTerm ≤ req.term → core.currentTerm < req.term := fun hle =>
    lt_of_le_of_ne hle fun ht => hown ⟨hl, ht.symm⟩
  cases h with
  | staleSnapshot => rfl
  | oldSnapshot ht | haveSnapshot ht | installSnapshot ht =>
    rw [termChecked_of_lt (hlt ht)] at hl'
    cases hl'

/-- A leader that stays leader and is not sent a snapshot of its own term keeps its log, and
what it comes to have applied it has applied by entries. -/
theorem Outcome.leader_stays (h : core.Outcome rnd request core' actions)
    (hl : core.state = .leader) (hl' : core'.state = .leader) (hown : ¬core.OwnSnapshot request)
    (hc : core.CaughtUp) :
    core.Extends core' ∧ ∀ i, core.lastApplied < i → i ≤ core'.lastApplied →
      ∃ command, .applyToStateMachine i command ∈ actions := by
  by_cases hreq : ∃ req, request = .message (.installSnapshot req)
  · obtain ⟨req, rfl⟩ := hreq
    obtain rfl := h.stale_of_leader hl hl' hown
    exact ⟨.keep rfl rfl, fun i hlt hle => absurd hle (Nat.not_le.mpr hlt)⟩
  · refine ⟨h.extends_of_leader hl' fun req hr => hreq ⟨req, hr⟩, ?_⟩
    cases (h.delivers hc).1 with
    | entries happ => exact fun i => happ.mem
    | snapshot => exact absurd ⟨_, rfl⟩ hreq

end RaftCore

/-! ## What actions do to the clients -/

/-- The client an effect answers. -/
def Effect.answered : Effect → Option Channel
  | .respond channel _ => some channel
  | _ => none

theorem answered_respond (channels : List Channel) (error : Option ProposalError) :
    (channels.map fun channel => Effect.respond channel error).filterMap Effect.answered =
      channels := by
  induction channels with
  | nil => rfl
  | cons channel channels ih => exact congrArg (channel :: ·) ih

namespace RaftDriver

variable {app : List AppliedEntry → Bytes} {d d₁ d' : RaftDriver} {a : Action}
  {actions : List Action} {effects effects' : List Effect}

/-- Everybody who waits. -/
def waiting (d : RaftDriver) : List Channel :=
  d.pendingProposals.entries.map Sigma.snd ++ d.pendingReads.entries.map Sigma.snd

/-- What handling actions does to the clients and to the core. -/
structure Serves (d : RaftDriver) (actions : List Action) (effects : List Effect)
    (d' : RaftDriver) : Prop where
  core : d.core.Trims d'.core
  proposals : ∀ i ch, d'.pendingProposals.lookup i = some ch ↔
    d.pendingProposals.lookup i = some ch ∧ ∀ command, .applyToStateMachine i command ∉ actions
  reads : ∀ id ch, d'.pendingReads.lookup id = some ch ↔
    d.pendingReads.lookup id = some ch ∧ .readBarrierReady id ∉ actions
  answers : d.waiting.Perm (effects.filterMap Effect.answered ++ d'.waiting)

namespace Serves

theorem nil (d : RaftDriver) : d.Serves [] [] d :=
  ⟨.refl _, by simp, by simp, List.Perm.refl _⟩

theorem cons (h : d.Serves [a] effects d₁) (h' : d₁.Serves actions effects' d') :
    d.Serves (a :: actions) (effects ++ effects') d' := by
  refine ⟨h.core.trans h'.core, fun i ch => ?_, fun id ch => ?_, ?_⟩
  · simp only [h'.proposals, h.proposals, List.mem_cons, List.not_mem_nil, or_false, not_or,
      forall_and, and_assoc]
  · simp only [h'.reads, h.reads, List.mem_cons, List.not_mem_nil, or_false, not_or, and_assoc]
  · rw [List.filterMap_append, List.append_assoc]
    exact h.answers.trans (List.Perm.append_left _ h'.answers)

/-- An action that is no business of the clients. -/
theorem silent (hc : d.core.Trims d'.core) (hp : d'.pendingProposals = d.pendingProposals)
    (hr : d'.pendingReads = d.pendingReads)
    (ha : ∀ i command, a ≠ .applyToStateMachine i command) (ha' : ∀ id, a ≠ .readBarrierReady id)
    (he : effects.filterMap Effect.answered = []) : d.Serves [a] effects d' := by
  refine ⟨hc, fun i ch => ?_, fun id ch => ?_, ?_⟩
  · rw [hp]
    exact (and_iff_left fun command h => ha i command (List.mem_singleton.mp h).symm).symm
  · rw [hr]
    exact (and_iff_left fun h => ha' id (List.mem_singleton.mp h).symm).symm
  · rw [he, List.nil_append, waiting, waiting, hp, hr]

/-- An applied entry, with the snapshot that may follow it. -/
theorem applied {i : ℕ} {command : Bytes} (hc : d.core.Trims d'.core)
    (hp : d'.pendingProposals = d.pendingProposals.erase i) (hr : d'.pendingReads = d.pendingReads)
    (he : effects.filterMap Effect.answered = (d.pendingProposals.lookup i).toList) :
    d.Serves [.applyToStateMachine i command] effects d' := by
  refine ⟨hc, fun j ch => ?_, fun id ch => ?_, ?_⟩
  · rw [hp, lookup_erase_eq_some]
    refine and_congr_right fun _ => ?_
    constructor
    · intro hne c hm
      exact hne (Action.applyToStateMachine.inj (List.mem_singleton.mp hm)).1
    · rintro h rfl
      exact h command (List.mem_singleton_self _)
  · rw [hr]
    simp
  · rw [he, waiting, waiting, hp, hr, ← List.append_assoc]
    exact (perm_lookup_erase _ i).append_right _

theorem released {id : ℕ} (hc : d'.core = d.core)
    (hp : d'.pendingProposals = d.pendingProposals)
    (hr : d'.pendingReads = d.pendingReads.erase id)
    (he : effects.filterMap Effect.answered = (d.pendingReads.lookup id).toList) :
    d.Serves [.readBarrierReady id] effects d' := by
  refine ⟨hc ▸ .refl _, fun j ch => ?_, fun j ch => ?_, ?_⟩
  · rw [hp]
    simp
  · rw [hr, lookup_erase_eq_some]
    simp
  · rw [he, waiting, waiting, hp, hr]
    refine ((perm_lookup_erase _ id).append_left _).trans ?_
    rw [← List.append_assoc, ← List.append_assoc]
    exact List.perm_append_comm.append_right _

end Serves

/-- The snapshot at the threshold is no business of the clients. -/
theorem takeSnapshot_frame (h : d.takeSnapshot app = (effects, some d')) :
    d.core.Trims d'.core ∧ d'.pendingProposals = d.pendingProposals ∧
      d'.pendingReads = d.pendingReads ∧ effects.filterMap Effect.answered = [] := by
  rcases takeSnapshot_cases app d with h' | ⟨metadata, -, h'⟩ | ⟨metadata, core, hp, hc, h'⟩
  · rw [h] at h'
    cases h'
  · rw [h] at h'
    cases h'
  · rw [h] at h'
    obtain ⟨rfl, hd⟩ := Prod.mk.inj h'
    obtain rfl := Option.some.inj hd
    exact ⟨RaftCore.trims_completeSnapshot hp hc, rfl, rfl, rfl⟩

theorem serves_applyToStateMachine {i : ℕ} {command : Bytes}
    (h : d.applyToStateMachine app i command = (effects, some d')) :
    d.Serves [.applyToStateMachine i command] effects d' := by
  have hans : (d.answers i).filterMap Effect.answered = (d.pendingProposals.lookup i).toList :=
    answered_respond _ _
  by_cases hc : command = []
  · subst hc
    rw [applyToStateMachine_nil] at h
    obtain ⟨rfl, hd⟩ := Prod.mk.inj h
    obtain rfl := Option.some.inj hd
    exact .applied (.refl _) rfl rfl hans
  · have hans' : (d.answers i ++ [Effect.apply (.command command)]).filterMap Effect.answered =
        (d.pendingProposals.lookup i).toList := by
      rw [List.filterMap_append, hans]
      exact List.append_nil _
    rw [applyToStateMachine_cons d i hc, Handled.andThen] at h
    dsimp only at h
    split_ifs at h with hthr
    · obtain ⟨he, hd⟩ := Prod.mk.inj h
      have hts : (d.deliver i command).takeSnapshot app =
          (((d.deliver i command).takeSnapshot app).1, some d') := Prod.ext rfl hd
      obtain ⟨hcore, hp, hr, hnil⟩ := takeSnapshot_frame hts
      subst he
      refine .applied hcore hp hr ?_
      rw [List.filterMap_append, hans', hnil, List.append_nil]
    · obtain ⟨rfl, hd⟩ := Prod.mk.inj h
      obtain rfl := Option.some.inj hd
      refine .applied (.refl _) rfl rfl ?_
      rw [List.filterMap_append, hans']
      exact List.append_nil _

theorem serves_handleAction (h : d.handleAction app a = (effects, some d')) :
    d.Serves [a] effects d' := by
  cases a with
  | applyToStateMachine i command => exact serves_applyToStateMachine h
  | readBarrierReady id =>
    rw [handleAction, run, foldl_perform_respond] at h
    obtain ⟨rfl, hd⟩ := Prod.mk.inj h
    obtain rfl := Option.some.inj hd
    exact .released rfl rfl rfl (answered_respond _ _)
  | sendInstallSnapshot target term i t =>
    rw [handleAction] at h
    cases hb : d.storage.retrieveSnapshotBytes with
    | none =>
      rw [hb] at h
      cases h
    | some data =>
      rw [hb] at h
      obtain ⟨rfl, hd⟩ := Prod.mk.inj h
      obtain rfl := Option.some.inj hd
      exact .silent (.refl _) rfl rfl (by simp) (by simp) rfl
  | sendMessage | persistMetadata | persistLogEntries | installSnapshot =>
    obtain ⟨rfl, hd⟩ := Prod.mk.inj h
    obtain rfl := Option.some.inj hd
    exact .silent (.refl _) rfl rfl (by simp) (by simp) rfl

/-- Handling a list of actions that does not panic. -/
theorem serves_handleActions (h : d.handleActions app actions = (effects, some d')) :
    d.Serves actions effects d' := by
  induction actions generalizing d effects with
  | nil =>
    obtain ⟨rfl, hd⟩ := Prod.mk.inj h
    obtain rfl := Option.some.inj hd
    exact .nil d
  | cons a actions ih =>
    rw [handleActions, Handled.andThen] at h
    cases ha : (d.handleAction app a).2 with
    | none =>
      rw [ha] at h
      dsimp only at h
      rw [← Prod.eta (d.handleAction app a), ha] at h
      cases h
    | some d₁ =>
      rw [ha] at h
      obtain ⟨rfl, hd⟩ := Prod.mk.inj h
      exact (serves_handleAction (Prod.ext rfl ha)).cons (ih (Prod.ext rfl hd))

/-! ## One turn of the loop -/

/-- The client that comes with an event. -/
def Event.channel : Event → Option Channel
  | .propose _ respond | .read respond => some respond
  | .tick | .message _ => none

variable {event : Event} {rnd : ℕ} {after : RaftCore}

/-- An event that does not panic, as it is seen by the clients. -/
theorem handleEvent_serves (h : d.handleEvent app rnd event = (effects, some d')) :
    ∃ after actions served rest d₁, d.core.call rnd event.request = some (after, actions) ∧
      (d.intake event after actions).Serves actions served d₁ ∧
      d.conclude event d₁ = (rest, some d') ∧ effects = served ++ rest := by
  cases hc : d.core.call rnd event.request with
  | none =>
    rw [handleEvent_of_panic hc] at h
    cases h
  | some r =>
    rw [handleEvent_of_call hc, Handled.andThen] at h
    cases hs : ((d.intake event r.1 r.2).handleActions app r.2).2 with
    | none =>
      rw [hs] at h
      dsimp only at h
      rw [h] at hs
      cases hs
    | some d₁ =>
      rw [hs] at h
      obtain ⟨rfl, hd⟩ := Prod.mk.inj h
      exact ⟨r.1, r.2, _, _, d₁, rfl, serves_handleActions (Prod.ext rfl hs), Prod.ext rfl hd, rfl⟩

/-- A client enters the map of proposals under the index behind the log of a leader. -/
theorem intake_propose {command : Bytes} {respond : Channel}
    (ho : d.core.Outcome rnd (.propose command) after actions) :
    d.intake (.propose command respond) after actions =
      if d.core.state = .leader then { d with
        core := after
        pendingProposals := d.pendingProposals.insert (d.core.lastLogIndex + 1) respond }
      else { d with core := after } := by
  cases ho with
  | refuse hl => rw [if_neg hl]; rfl
  | append hl => rw [if_pos hl]; rfl

/-- A client enters the map of reads under the next id of a leader. -/
theorem intake_read {respond : Channel} :
    d.intake (.read respond) after actions =
      if d.core.state = .leader then { d with
        core := after
        pendingReads := d.pendingReads.insert (d.core.nextReadBarrierId + 1) respond }
      else { d with core := after } := by
  by_cases hl : d.core.state = .leader
  · rw [if_pos hl, intake, RaftCore.requestReadBarrier, if_neg (not_not.mpr hl)]
  · rw [if_neg hl, intake, RaftCore.requestReadBarrier, if_pos hl]

theorem mem_intake_proposals (ho : d.core.Outcome rnd event.request after actions) {i : ℕ} :
    i ∈ (d.intake event after actions).pendingProposals ↔ i ∈ d.pendingProposals ∨
      d.core.state = .leader ∧ i = d.core.lastLogIndex + 1 ∧
        ∃ command, event.request = .propose command := by
  cases event with
  | tick | message => simp [intake, Event.request]
  | read => rw [intake_read]; split_ifs <;> simp [Event.request]
  | propose =>
    rw [intake_propose ho]
    split_ifs with hl <;> simp [Event.request, hl, or_comm]

theorem mem_intake_reads (ho : d.core.Outcome rnd event.request after actions) {id : ℕ} :
    id ∈ (d.intake event after actions).pendingReads ↔ id ∈ d.pendingReads ∨
      d.core.state = .leader ∧ id = d.core.nextReadBarrierId + 1 ∧
        event.request = .readBarrier := by
  cases event with
  | tick | message => simp [intake, Event.request]
  | propose => rw [intake_propose ho]; split_ifs <;> simp [Event.request]
  | read =>
    rw [intake_read]
    split_ifs with hl <;> simp [Event.request, hl, or_comm]

/-- The clients an event leaves waiting, once they are entered. -/
theorem waiting_intake (ho : d.core.Outcome rnd event.request after actions)
    (hp : d.core.state = .leader → d.core.lastLogIndex + 1 ∉ d.pendingProposals)
    (hr : d.core.state = .leader → d.core.nextReadBarrierId + 1 ∉ d.pendingReads) :
    (d.intake event after actions).waiting.Perm
      ((if d.core.state = .leader then event.channel.toList else []) ++ d.waiting) := by
  cases event with
  | tick | message => split_ifs <;> exact List.Perm.refl _
  | propose command respond =>
    rw [intake_propose ho]
    split_ifs with hl
    · rw [waiting, AList.entries_insert_of_notMem (hp hl)]
      exact List.Perm.refl _
    · exact List.Perm.refl _
  | read respond =>
    rw [intake_read]
    split_ifs with hl
    · rw [waiting, AList.entries_insert_of_notMem (hr hl)]
      exact List.perm_middle
    · exact List.Perm.refl _

/-- How an event ends : a client that is refused is answered, or a leader that steps down
answers everybody. -/
theorem conclude_cases (d : RaftDriver) (event : Event) (d₁ : RaftDriver) :
    (d.conclude event d₁ = ((if d.core.state = .leader then [] else event.channel.toList.map
        fun channel => .respond channel (some (.followerNode d₁.core.currentLeader))), some d₁) ∧
      ∀ msg, event = .message msg → d.core.state = .leader → d₁.core.state = .leader) ∨
    d.core.state = .leader ∧ d₁.core.state ≠ .leader ∧ event.channel = none ∧
      d.conclude event d₁ = d₁.drainPending := by
  cases event with
  | tick =>
    refine Or.inl ⟨?_, by simp⟩
    split_ifs <;> rfl
  | propose | read =>
    refine Or.inl ⟨?_, by simp⟩
    rw [conclude]
    split_ifs <;> rfl
  | message msg =>
    have hl : ∀ core : RaftCore, core.isLeader = true ↔ core.state = .leader := fun core =>
      decide_eq_true_iff
    simp only [conclude, hl]
    split_ifs with h h' h'
    · exact Or.inr ⟨h', h.2, rfl, rfl⟩
    · exact absurd h.1 h'
    · exact Or.inl ⟨rfl, fun _ _ hl => by_contra fun hl' => h ⟨hl, hl'⟩⟩
    · exact Or.inl ⟨rfl, fun _ _ hl => absurd hl h'⟩

/-- A leader that answers nobody for good is still one. -/
theorem leads_of_concluded (ho : d.core.Outcome rnd event.request after actions)
    (hst : d₁.core.state = after.state)
    (hmsg : ∀ msg, event = .message msg → d.core.state = .leader → d₁.core.state = .leader)
    (hl : d.core.state = .leader) : after.state = .leader := by
  cases event with
  | message msg => exact hst ▸ hmsg msg rfl hl
  | _ => exact ho.leads_of_not_message nofun hl

/-- Whoever is not answered in the end still waits. -/
theorem waiting_conclude (h : d.conclude event d₁ = (effects, some d')) :
    ((if d.core.state = .leader then [] else event.channel.toList) ++ d₁.waiting).Perm
      (effects.filterMap Effect.answered ++ d'.waiting) := by
  rcases d.conclude_cases event d₁ with ⟨hc, -⟩ | ⟨hl, -, hch, hc⟩
  · rw [h] at hc
    obtain ⟨rfl, hd⟩ := Prod.mk.inj hc
    obtain rfl := Option.some.inj hd
    split_ifs
    · exact List.Perm.refl _
    · rw [answered_respond]
  · rw [h, drainPending, run, foldl_perform_respond] at hc
    obtain ⟨rfl, hd⟩ := Prod.mk.inj hc
    obtain rfl := Option.some.inj hd
    rw [if_pos hl, answered_respond]
    exact List.Perm.of_eq (List.append_nil _).symm

theorem core_intake (d : RaftDriver) (event : Event) (after : RaftCore) (actions : List Action) :
    (d.intake event after actions).core = after := by
  rw [d.alike_intake event after actions]

namespace Serves

variable {d₀ : RaftDriver}

theorem mem_proposals (h : d₀.Serves actions effects d₁) {i : ℕ} : i ∈ d₁.pendingProposals ↔
    i ∈ d₀.pendingProposals ∧ ∀ command, .applyToStateMachine i command ∉ actions := by
  simp only [← AList.lookup_isSome, Option.isSome_iff_exists, h.proposals, exists_and_right]

theorem mem_reads (h : d₀.Serves actions effects d₁) {id : ℕ} : id ∈ d₁.pendingReads ↔
    id ∈ d₀.pendingReads ∧ .readBarrierReady id ∉ actions := by
  simp only [← AList.lookup_isSome, Option.isSome_iff_exists, h.reads, exists_and_right]

end Serves

end RaftDriver

end FerrisFerry
