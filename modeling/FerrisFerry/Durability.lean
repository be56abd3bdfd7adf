import FerrisFerry.Handling
import FerrisFerry.Vote
import FerrisFerry.WriteAhead

/-!
# What survives a crash

At the head of the event loop the storage holds the term, the vote, the snapshot point and
the log of the core (`RaftDriver.Durable`), so `RaftDriver::new` rebuilds them
(`DriverConfig.durable_image`). Inside an event the storage is aligned between any two
effects but one pair : after `store_snapshot` and before `truncate_log` the old frames stand
behind the new snapshot (`Storage.Safe`). A crash anywhere else restores every entry to its
index (`DriverConfig.crash_keeps_indices`).

`RaftDriver.Settles` says for which events this is so. A snapshot at the threshold clears the
whole log file, so the core may have no entry beyond the last applied one then.
-/

namespace FerrisFerry

/-! ## Effects on the storage -/

theorem torn_append {e₁ e₂ : List Effect} (h : torn e₂ = true) : torn (e₁ ++ e₂) = true := by
  have happ : lastOp (e₁ ++ e₂) = (lastOp e₂).or (lastOp e₁) := by
    rw [lastOp, List.filterMap_append, List.getLast?_append]
    rfl
  unfold torn at h ⊢
  cases hop : lastOp e₂ with
  | none => simp [hop] at h
  | some op =>
    rw [happ, hop]
    rwa [hop] at h

/-- Wherever a crash falls among the effects, the storage is aligned, or a snapshot has been
stored and the log not been cleared yet. -/
def Storage.Safe (s : Storage) (effects : List Effect) : Prop :=
  ∀ done, (s.replay (effects.take done)).Aligned ∨
    torn (effects.take done) = true ∧ (s.replay (effects.take done)).metadata ≠ none

theorem Storage.Safe.append {s : Storage} {e₁ e₂ : List Effect} (h₁ : s.Safe e₁)
    (h₂ : (s.replay e₁).Safe e₂) : s.Safe (e₁ ++ e₂) := by
  intro done
  rw [List.take_append]
  rcases Nat.le_total done e₁.length with hle | hle
  · rw [Nat.sub_eq_zero_of_le hle, List.take_zero, List.append_nil]
    exact h₁ done
  · rw [List.take_of_length_le hle, Storage.replay_append]
    exact (h₂ (done - e₁.length)).imp_right (And.imp_left torn_append)

/-- Effects that are no storage operations are safe. -/
theorem Storage.safe_of_no_op {s : Storage} (hs : s.Aligned) {effects : List Effect}
    (h : ∀ e ∈ effects, e.op = none) : s.Safe effects := by
  intro done
  have hnil : (effects.take done).filterMap Effect.op = [] :=
    List.filterMap_eq_nil_iff.mpr fun e he => h e (List.mem_of_mem_take he)
  rw [Storage.replay, hnil]
  exact Or.inl hs

/-- A single operation between aligned states is safe. -/
theorem Storage.safe_store {s : Storage} {op : StorageOp} (hs : s.Aligned)
    (hs' : (s.exec op).Aligned) : s.Safe [.store op]
  | 0 => Or.inl hs
  | _ + 1 => Or.inl (by simpa [Storage.replay, Effect.op] using hs')

theorem Storage.Safe.left {s : Storage} {e₁ e₂ : List Effect} (h : s.Safe (e₁ ++ e₂)) :
    s.Safe e₁ := by
  intro done
  have := h (min done e₁.length)
  rwa [List.take_append_of_le_length (min_le_right _ _), ← List.take_eq_take_min] at this

/-- A snapshot and the clearing of the log, with nothing stored in between. -/
theorem Storage.safe_snapshot {s : Storage} (hs : s.Aligned) (hm : s.metadata ≠ none)
    (snapshot : Snapshot) (between : List Effect) (hb : ∀ e ∈ between, e.op = none) :
    s.Safe (.store (.storeSnapshot snapshot) :: (between ++ [.store .truncateLog])) := by
  intro done
  have hnil : ∀ k, (between.take k).filterMap Effect.op = [] := fun k =>
    List.filterMap_eq_nil_iff.mpr fun e he => hb e (List.mem_of_mem_take he)
  cases done with
  | zero => exact Or.inl hs
  | succ done =>
    rw [List.take_succ_cons, List.take_append]
    rcases Nat.lt_or_ge between.length done with hlt | hle
    · have htake : ([.store .truncateLog] : List Effect).take (done - between.length) =
          [.store .truncateLog] := List.take_of_length_le (by simp; omega)
      refine Or.inl ?_
      rw [htake]
      simpa [Storage.replay, Effect.op, hnil] using (Storage.aligned_snapshot hm snapshot).1
    · rw [Nat.sub_eq_zero_of_le hle, List.take_zero, List.append_nil]
      refine Or.inr ⟨?_, ?_⟩
      · simp [torn, lastOp, Effect.op, hnil]
      · simpa [Storage.replay, Effect.op, hnil, Storage.exec] using hm

/-- A piece of handling that starts from storage `s` is safe, and `P` holds of the driver
after it. -/
structure Handled.Keeps (h : Handled) (s : Storage) (P : RaftDriver → Prop) : Prop where
  safe : s.Safe h.1
  storage : ∀ d, h.2 = some d → d.storage = s.replay h.1
  after : ∀ d, h.2 = some d → P d

namespace Handled.Keeps

variable {h : Handled} {s : Storage} {P Q : RaftDriver → Prop}

theorem panic {effects : List Effect} (hs : s.Safe effects) : Handled.Keeps (effects, none) s P :=
  ⟨hs, fun _ h => (by cases h), fun _ h => (by cases h)⟩

theorem panic_nil (hs : s.Aligned) : Handled.Keeps ([], none) s P :=
  panic (Storage.safe_of_no_op hs (by simp))

theorem mono (hk : h.Keeps s P) (hPQ : ∀ d, P d → Q d) : h.Keeps s Q :=
  ⟨hk.safe, hk.storage, fun d hd => hPQ d (hk.after d hd)⟩

theorem andThen {f : RaftDriver → Handled} (hk : h.Keeps s P)
    (hf : ∀ d, P d → (f d).Keeps d.storage Q) : (h.andThen f).Keeps s Q := by
  obtain ⟨effects, r⟩ := h
  cases r with
  | none => exact panic hk.safe
  | some d =>
    have hstore := hk.storage d rfl
    obtain ⟨hsafe, hst, hafter⟩ := hf d (hk.after d rfl)
    rw [hstore] at hsafe hst
    refine ⟨hk.safe.append hsafe, fun d' hd' => ?_, hafter⟩
    exact (hst d' hd').trans (Storage.replay_append s effects _).symm

end Handled.Keeps

namespace RaftDriver

variable {app : List AppliedEntry → Bytes} {d d' : RaftDriver} {P Q : RaftDriver → Prop}

/-! ## What the storage holds -/

/-- Sending and answering is safe on aligned storage. -/
theorem Answers.keeps {h : Handled} (ha : d.Answers h) (hs : d.storage.Aligned)
    (hP : ∀ d', d.Alike d' → P d') : h.Keeps d.storage P := by
  cases ha with
  | panic => exact .panic_nil hs
  | @some effects d' he hd =>
    have hno : ∀ e ∈ effects, e.op = none := fun e h => (he e h).op
    refine ⟨Storage.safe_of_no_op hs hno, ?_, ?_⟩
    · rintro _ ⟨⟩
      rw [hd, Storage.replay, List.filterMap_eq_nil_iff.mpr hno]
      rfl
    · rintro _ ⟨⟩
      exact hP d' hd

theorem keeps_run {effects : List Effect} (hs : d.storage.Safe effects)
    (hP : P (effects.foldl perform d)) : (d.run effects).Keeps d.storage P := by
  refine ⟨hs, ?_, ?_⟩
  · rintro _ ⟨⟩
    rw [perform_frame]
    rfl
  · rintro _ ⟨⟩
    exact hP

/-- At the head of the loop the storage holds what the core has to keep. -/
structure Durable (d : RaftDriver) : Prop where
  aligned : d.storage.Aligned
  vote : d.storage.image.VoteOf d.core
  log : d.storage.image.LogOf d.core
  active : d.core.state ≠ .follower → 0 < d.core.currentTerm

namespace Durable

/-- Without stored metadata nothing has happened yet. -/
theorem fresh (h : d.Durable) (hm : d.storage.metadata = none) :
    d.core.currentTerm = 0 ∧ d.core.state = .follower ∧ d.core.log = [] := by
  have ht : d.core.currentTerm = 0 := by
    rw [← h.vote.1, Storage.image, hm]
    rfl
  refine ⟨ht, ?_, ?_⟩
  · by_contra hs
    exact absurd (h.active hs) (by omega)
  · rw [← h.log.1, Storage.image, (h.aligned.fresh hm).1]
    rfl

theorem alike (h : d.Durable) (ha : d.Alike d') : d'.Durable := by
  rw [ha]
  exact ⟨h.aligned, h.vote, h.log, h.active⟩

end Durable

/-! ## Snapshots at the threshold -/

/-- A snapshot of a core without entries beyond the last applied one. -/
theorem keeps_takeSnapshot (h : d.Durable) (hm : d.storage.metadata ≠ none)
    (hlast : d.core.lastLogIndex = d.core.lastApplied) :
    (d.takeSnapshot app).Keeps d.storage fun d' => d'.Durable ∧ d'.storage.metadata ≠ none ∧
      d'.core.lastLogIndex = d'.core.lastApplied := by
  have hreq : d.storage.Safe [.apply .snapshotRequest] :=
    Storage.safe_of_no_op h.aligned (by simp [Effect.op])
  have hsafe : ∀ snapshot, d.storage.Safe
      ([.apply .snapshotRequest, .store (.storeSnapshot snapshot)]
      ++ [.store .truncateLog]) := fun snapshot =>
    hreq.append (Storage.safe_snapshot h.aligned hm snapshot [] (by simp))
  rcases takeSnapshot_cases app d with heq | ⟨metadata, -, heq⟩ | ⟨metadata, core, hp, hc, heq⟩ <;>
    rw [heq]
  · exact .panic hreq
  · exact .panic (hsafe _).left
  · refine ⟨hsafe _, ?_, ?_⟩
    · rintro _ ⟨⟩
      rfl
    rintro _ ⟨⟩
    obtain ⟨hal, himage⟩ := Storage.aligned_snapshot hm (d.snapshotAt app metadata)
    obtain ⟨hlog, hbase⟩ := h.log.storeSnapshot (app (d.applied ++ [.snapshotRequest])) hp hc
    obtain ⟨hla, -⟩ := RaftCore.prepareSnapshot_eq_some.mp hp
    -- the snapshot covers the whole log
    have hnil : core.log = [] := by
      rw [← hlog, Mirror.storeSnapshot, List.drop_eq_nil_iff, h.log.1, hla, ← hlast,
        RaftCore.lastLogIndex,
        show d.storage.image.lastIncludedIndex = d.core.lastIncludedIndex from
          congrArg Point.index h.log.2]
      omega
    have hidx : core.lastIncludedIndex = d.core.lastApplied :=
      (congrArg Point.index hbase).symm.trans hla
    obtain ⟨hterm, hvote, hstate, happ⟩ := RaftCore.completeSnapshot_frame hp hc
    refine ⟨⟨hal, ?_, ?_, ?_⟩, hm, ?_⟩
    · rw [Mirror.VoteOf, himage, hterm, hvote]
      exact h.vote
    · rw [Mirror.LogOf, himage, hnil, ← hbase]
      exact ⟨rfl, rfl⟩
    · dsimp only
      rw [hstate, hterm]
      exact h.active
    · dsimp only
      rw [RaftCore.lastLogIndex, hnil, hidx, happ]
      rfl

/-! ## The actions after the writes -/

/-- A driver that can go on with the actions : metadata is stored before a command is
delivered, and the core has no entry beyond the last applied one when the threshold is
reached. -/
def Ready (d : RaftDriver) (actions : List Action) : Prop :=
  0 < delivered actions → d.storage.metadata ≠ none ∧
    (d.snapshotThreshold ≤ d.numEntries + delivered actions →
      d.core.lastLogIndex = d.core.lastApplied)

/-- One action after the writes. -/
theorem keeps_handleAction {a : Action} {actions : List Action} (h : d.Durable) (hw : ¬a.Writes)
    (hr : d.Ready (a :: actions)) :
    (d.handleAction app a).Keeps d.storage fun d' => d'.Durable ∧ d'.Ready actions := by
  by_cases hq : a.Outward
  · rw [Ready, delivered_cons_of_ne fun i command h => by subst h; exact hq] at hr
    refine (answers_of_outward hq d).keeps h.aligned fun d' hd' => ⟨h.alike hd', ?_⟩
    rw [hd']
    exact hr
  cases a with
  | sendMessage | sendInstallSnapshot | readBarrierReady => exact absurd trivial hq
  | persistMetadata | persistLogEntries | installSnapshot => exact absurd trivial hw
  | applyToStateMachine index command =>
    have hc : command ≠ [] := hq
    rw [handleAction, applyToStateMachine_cons d index hc]
    rw [Ready, delivered_cons hc] at hr
    obtain ⟨hm, hlast⟩ := hr (Nat.succ_pos _)
    have hno := d.no_op_deliver index command
    refine Handled.Keeps.andThen (P := fun d₁ => d₁ = d.deliver index command)
      ⟨Storage.safe_of_no_op h.aligned hno, ?_, ?_⟩ ?_
    · rintro _ ⟨⟩
      rw [Storage.replay, List.filterMap_eq_nil_iff.mpr hno]
      rfl
    · rintro _ ⟨⟩
      rfl
    rintro _ rfl
    have hd : (d.deliver index command).Durable := ⟨h.aligned, h.vote, h.log, h.active⟩
    split_ifs with ht
    · have hl : d.core.lastLogIndex = d.core.lastApplied := hlast (by
        change d.snapshotThreshold ≤ d.numEntries + 1 at ht
        omega)
      exact (keeps_takeSnapshot hd hm hl).mono
        fun d' h' => ⟨h'.1, fun _ => ⟨h'.2.1, fun _ => h'.2.2⟩⟩
    · refine keeps_run (Storage.safe_of_no_op h.aligned (by simp))
        ⟨hd, fun _ => ⟨hm, fun hle => ?_⟩⟩
      change d.snapshotThreshold ≤ d.numEntries + 1 + delivered actions at hle
      exact hlast (by omega)

theorem keeps_handleActions {actions : List Action} (h : d.Durable) (hw : ∀ a ∈ actions, ¬a.Writes)
    (hr : d.Ready actions) : (d.handleActions app actions).Keeps d.storage Durable := by
  induction actions generalizing d with
  | nil => exact keeps_run (Storage.safe_of_no_op h.aligned (by simp)) h
  | cons a actions ih =>
    refine (keeps_handleAction h (hw a List.mem_cons_self) hr).andThen fun d' hd' => ?_
    exact ih hd'.1 (fun b hb => hw b (List.mem_cons_of_mem a hb)) hd'.2

/-! ## The writes -/

/-- The driver after the writes of a list of actions. -/
structure Wrote (d : RaftDriver) (actions : List Action) (d' : RaftDriver) : Prop where
  aligned : d'.storage.Aligned
  image : d'.storage.image = d.storage.image.replay actions
  core : d'.core = d.core
  numEntries : d'.numEntries = d.numEntries
  threshold : d'.snapshotThreshold = d.snapshotThreshold
  metadata : d'.storage.metadata = none → d.storage.metadata = none ∧ actions = []

namespace Wrote

theorem refl (h : d.storage.Aligned) : Wrote d [] d :=
  ⟨h, rfl, rfl, rfl, rfl, fun h => ⟨h, rfl⟩⟩

theorem trans {as bs : List Action} {d'' : RaftDriver} (h : Wrote d as d') (h' : Wrote d' bs d'') :
    Wrote d (as ++ bs) d'' := by
  refine ⟨h'.aligned, ?_, h'.core.trans h.core, h'.numEntries.trans h.numEntries,
    h'.threshold.trans h.threshold, fun hm => ?_⟩
  · rw [h'.image, h.image, Mirror.replay, Mirror.replay, Mirror.replay, List.foldl_append]
  · obtain ⟨hm', rfl⟩ := h'.metadata hm
    obtain ⟨hm, rfl⟩ := h.metadata hm'
    exact ⟨hm, rfl⟩

end Wrote

theorem keeps_metas {metas : List Action} (hs : d.storage.Aligned)
    (hm : ∀ a ∈ metas, ∃ t v, a = .persistMetadata t v) :
    (d.handleActions app metas).Keeps d.storage (Wrote d metas) := by
  induction metas generalizing d with
  | nil => exact keeps_run (Storage.safe_of_no_op hs (by simp)) (Wrote.refl hs)
  | cons a metas ih =>
    obtain ⟨t, v, rfl⟩ := hm a List.mem_cons_self
    obtain ⟨hs', himage⟩ := hs.storeMetadata ⟨t, v⟩
    have hw : Wrote d [.persistMetadata t v] (d.perform (.store (.storeMetadata ⟨t, v⟩))) :=
      ⟨hs', himage, rfl, rfl, rfl, fun h => (by cases h)⟩
    refine (keeps_run (Storage.safe_store hs hs') hw).andThen fun d₁ h₁ => ?_
    exact (ih h₁.aligned fun b hb => hm b (List.mem_cons_of_mem _ hb)).mono fun d₂ h₂ => h₁.trans h₂

/-- The write of the log, once metadata is stored and inside the log on disk. -/
theorem keeps_logWrite {core : RaftCore} {request : Request} {metas log : List Action}
    (hs : d.storage.Aligned) (hlog : d.storage.image.LogOf core)
    (hw : core.LogWrite request metas log) (hm : log ≠ [] → d.storage.metadata ≠ none) :
    (d.handleActions app log).Keeps d.storage (Wrote d log) := by
  have hbase : d.storage.image.lastIncludedIndex = core.lastIncludedIndex :=
    congrArg Point.index hlog.2
  cases hw with
  | none => exact keeps_run (Storage.safe_of_no_op hs (by simp)) (Wrote.refl hs)
  | @entries start es hlo hhi =>
    have hm := hm (by simp)
    obtain ⟨hs', himage⟩ := hs.storeLogEntries es hm (by rw [hbase]; exact hlo)
      (by rw [hbase, hlog.1]; exact hhi)
    have hw : Wrote d [.persistLogEntries start es]
        (d.perform (.store (.storeLogEntries ⟨start, es⟩))) :=
      ⟨hs', himage, rfl, rfl, rfl, fun h => absurd h hm⟩
    refine (keeps_run (Storage.safe_store hs hs') hw).andThen fun d₁ h₁ => ?_
    exact keeps_run (Storage.safe_of_no_op h₁.aligned (by simp)) h₁
  | @snapshot req =>
    have hm := hm (by simp)
    obtain ⟨hs', himage⟩ := Storage.aligned_snapshot hm
      ⟨req.lastIncludedIndex, req.lastIncludedTerm, req.data⟩
    have hsafe := Storage.safe_snapshot hs hm
      ⟨req.lastIncludedIndex, req.lastIncludedTerm, req.data⟩ [.apply (.snapshot req.data)]
      (by simp [Effect.op])
    refine (keeps_run hsafe (P := Wrote d [.installSnapshot req.lastIncludedIndex
      req.lastIncludedTerm req.data]) ?_).andThen fun d₁ h₁ => ?_
    · exact ⟨hs', himage, rfl, rfl, rfl, fun h => absurd h hm⟩
    · exact keeps_run (Storage.safe_of_no_op h₁.aligned (by simp)) h₁

/-! ## Events -/

theorem replay_of_not_writes {rest : List Action} (h : ∀ a ∈ rest, ¬a.Writes) (m : Mirror) :
    m.replay rest = m := by
  induction rest generalizing m with
  | nil => rfl
  | cons a rest ih =>
    have ha : m.apply a = m := by
      have := h a List.mem_cons_self
      cases a with
      | persistMetadata | persistLogEntries | installSnapshot => exact absurd trivial this
      | _ => rfl
    rw [Mirror.replay, List.foldl_cons, ha]
    exact ih (fun b hb => h b (List.mem_cons_of_mem a hb)) m

/-- The messages that leave a trace a restart can read : entries accepted from the root come to
a node without a snapshot, and entries and snapshots of term `0` to one with stored metadata. -/
def Admits (d : RaftDriver) : Event → Prop
  | .message (.appendEntries req) => d.core.Heeds req → req.entries ≠ [] →
    (req.prevLogIndex = 0 → d.core.lastIncludedIndex = 0) ∧
      (d.storage.metadata = none → 0 < req.term)
  | .message (.installSnapshot req) =>
    d.storage.metadata = none → 0 < req.lastIncludedIndex → 0 < req.term
  | _ => True

instance (d : RaftDriver) : (event : Event) → Decidable (d.Admits event)
  | .message (.appendEntries req) => inferInstanceAs (Decidable (d.core.Heeds req →
    req.entries ≠ [] → (req.prevLogIndex = 0 → d.core.lastIncludedIndex = 0) ∧
      (d.storage.metadata = none → 0 < req.term)))
  | .message (.installSnapshot req) => inferInstanceAs (Decidable (d.storage.metadata = none →
    0 < req.lastIncludedIndex → 0 < req.term))
  | .message (.requestVote _) | .message (.requestVoteResponse _)
  | .message (.appendEntriesResponse _) | .message (.installSnapshotResponse _) | .tick
  | .propose _ _ | .read _ => inferInstanceAs (Decidable True)

/-- An event that reaches the threshold leaves no entry beyond the last applied one. -/
def Compacts (d : RaftDriver) (rnd : ℕ) (event : Event) : Prop :=
  ∀ r ∈ d.core.call rnd event.request, 0 < delivered r.2 →
    d.snapshotThreshold ≤ d.numEntries + delivered r.2 → r.1.lastLogIndex = r.1.lastApplied

instance (d : RaftDriver) (rnd : ℕ) (event : Event) : Decidable (d.Compacts rnd event) :=
  inferInstanceAs (Decidable (∀ r ∈ d.core.call rnd event.request, 0 < delivered r.2 →
    d.snapshotThreshold ≤ d.numEntries + delivered r.2 → r.1.lastLogIndex = r.1.lastApplied))

theorem Admits.grounded {event : Event} (h : d.Admits event) :
    d.core.GroundedEntries event.request := by
  rintro req hr hheeds hne
  cases event with
  | message msg =>
    cases hr
    exact (h hheeds hne).1
  | _ => cases hr

/-- A call writes the log of a node only once metadata is stored. -/
theorem Durable.metadata_of_logWrite {event : Event} {metas log : List Action} (h : d.Durable)
    (ha : d.Admits event) (hw : d.core.LogWrite event.request metas log) (hne : log ≠ []) :
    d.storage.metadata ≠ none ∨ metas ≠ [] := by
  rw [or_iff_not_imp_left, not_not]
  intro hm
  obtain ⟨hterm, hstate, -⟩ := h.fresh hm
  cases hw with
  | none => exact absurd rfl hne
  | entries _ _ hf =>
    rcases hf with hf | hf | ⟨req, hreq, hheeds, hes, hle⟩
    · exact hf
    · exact absurd hstate hf
    · cases event with
      | message msg =>
        cases hreq
        have := (ha hheeds hes).2 hm
        omega
      | _ => cases hreq
  | @snapshot req hreq hi hf =>
    rcases hf with hf | hle
    · exact hf
    · cases event with
      | message msg =>
        cases hreq
        have := ha hm (by omega)
        omega
      | _ => cases hreq

/-- The handling of what a call of the core returns. -/
theorem keeps_call {rnd : ℕ} {event : Event} {after : RaftCore} {actions : List Action}
    (h : d.Durable) (hc : d.core.call rnd event.request = some (after, actions))
    (ha : d.Admits event) (hth : d.Compacts rnd event) (hs : d'.storage = d.storage)
    (hcore : d'.core = after) (hn : d'.numEntries = d.numEntries)
    (ht : d'.snapshotThreshold = d.snapshotThreshold) :
    (d'.handleActions app actions).Keeps d.storage Durable := by
  have ho := RaftCore.call_outcome hc
  obtain ⟨metas, log, rest, rfl, hmetas, hlw, hrest⟩ := ho.writeAhead ha.grounded
  rw [handleActions_append, ← hs]
  refine (keeps_metas (hs ▸ h.aligned) hmetas).andThen fun d₁ h₁ => ?_
  rw [handleActions_append]
  have hlog₁ : d₁.storage.image.LogOf d.core := by
    rw [h₁.image, hs]
    refine h.log.keep (fun a ha => ?_) rfl rfl
    obtain ⟨t, v, rfl⟩ := hmetas a ha
    trivial
  have hmeta : log ≠ [] → d₁.storage.metadata ≠ none := by
    intro hne hnone
    obtain ⟨hm, rfl⟩ := h₁.metadata hnone
    rcases h.metadata_of_logWrite ha hlw hne with h | h
    · exact h (hs ▸ hm)
    · exact h rfl
  refine (keeps_logWrite h₁.aligned hlog₁ hlw hmeta).andThen fun d₂ h₂ => ?_
  have hw := h₁.trans h₂
  have himage : d₂.storage.image = d.storage.image.replay (metas ++ (log ++ rest)) := by
    have hrep : ∀ m : Mirror,
        m.replay (metas ++ log ++ rest) = (m.replay (metas ++ log)).replay rest :=
      fun m => List.foldl_append
    rw [hw.image, hs, ← List.append_assoc, hrep, replay_of_not_writes hrest]
  have hcore₂ : d₂.core = after := hw.core.trans hcore
  have hd₂ : d₂.Durable := by
    refine ⟨hw.aligned, ?_, ?_, ?_⟩
    · rw [himage, hcore₂]
      exact h.vote.replay ho.voteMove
    · rw [himage, hcore₂]
      have := h.log.afterCall ho ha.grounded
      cases event <;> exact this
    · rw [hcore₂]
      exact ho.voteMove.active h.active
  have hzero : delivered metas = 0 ∧ delivered log = 0 := by
    refine ⟨delivered_eq_zero fun i command hm => ?_, delivered_eq_zero fun i command hm => ?_⟩
    · obtain ⟨t, v, h⟩ := hmetas _ hm
      cases h
    · cases hlw <;> simp at hm
  refine keeps_handleActions hd₂ hrest fun hpos => ⟨fun hnone => ?_, fun hle => ?_⟩
  · -- what is applied is in the log, and without metadata there is none
    obtain ⟨a, har, hap⟩ := List.countP_pos_iff.mp hpos
    cases a with
    | applyToStateMachine i command =>
      cases ho.emits (List.mem_append_right _ (List.mem_append_right _ har)) with
      | leading hb => exact (RaftCore.leading_of_build hb).elim
      | apply _ hentry =>
        have hnil := (hd₂.fresh hnone).2.2
        rw [hcore₂] at hnil
        simp [RaftCore.logEntryAt, hnil] at hentry
    | _ => simp at hap
  · rw [hcore₂]
    rw [hw.threshold, ht, hw.numEntries, hn] at hle
    refine hth _ hc ?_ ?_ <;> simp only [delivered_append, hzero] <;> omega

/-- An event leaves everything durable, and is safe on the way. -/
theorem keeps_handleEvent {rnd : ℕ} {event : Event} (h : d.Durable) (ha : d.Admits event)
    (hth : d.Compacts rnd event) : (d.handleEvent app rnd event).Keeps d.storage Durable := by
  rcases handleEvent_cases app d rnd event with heq |
    ⟨after, actions, d₁, finish, hc, hd₁, heq, hfinish⟩ <;> rw [heq]
  · exact .panic_nil h.aligned
  · refine (keeps_call h hc ha hth ?_ ?_ ?_ ?_).andThen fun d' hd' =>
      (hfinish d').keeps hd'.aligned fun d'' hd'' => hd'.alike hd''
    all_goals rw [hd₁]

/-- The steps that settle : an event as above, and a crash that does not fall between storing
a snapshot and clearing the log, unless the log is empty already. -/
def Settles (app : List AppliedEntry → Bytes) (d : RaftDriver) : DriverInput → Prop
  | .event event rnd => d.Admits event ∧ d.Compacts rnd event
  | .crash event rnd done _ => (0 < done → d.Admits event ∧ d.Compacts rnd event) ∧
    (torn ((d.handleEvent app rnd event).1.take done) = true →
      (d.crashStorage app rnd event done).log = some [])

instance (app : List AppliedEntry → Bytes) (d : RaftDriver) :
    (i : DriverInput) → Decidable (d.Settles app i)
  | .event event rnd => inferInstanceAs (Decidable (d.Admits event ∧ d.Compacts rnd event))
  | .crash event rnd done _ => inferInstanceAs (Decidable
    ((0 < done → d.Admits event ∧ d.Compacts rnd event) ∧
      (torn ((d.handleEvent app rnd event).1.take done) = true →
        (d.crashStorage app rnd event done).log = some [])))

/-- What is left by a crash that settles is aligned. -/
theorem Settles.aligned {event : Event} {rnd done restartRnd : ℕ} (h : d.Durable)
    (hok : d.Settles app (.crash event rnd done restartRnd)) :
    (d.crashStorage app rnd event done).Aligned := by
  obtain ⟨hev, htorn⟩ := hok
  rcases Nat.eq_zero_or_pos done with rfl | hpos
  · exact h.aligned
  rcases (keeps_handleEvent h (hev hpos).1 (hev hpos).2).safe done with hal | ⟨htorn', hm⟩
  · exact hal
  · have hlog := htorn htorn'
    have hframes : (d.crashStorage app rnd event done).frames = [] := by
      rw [Storage.frames, hlog]
      rfl
    exact ⟨by rw [Storage.image, hframes]; rfl, fun h => absurd h hm, fun _ => by rw [hlog]; rfl⟩

end RaftDriver

namespace DriverConfig

variable {cfg : DriverConfig} {app : List AppliedEntry → Bytes} {d : RaftDriver}

/-- Aligned storage is read back as what it amounts to. -/
theorem new_of_aligned (cfg : DriverConfig) {s : Storage} (h : s.Aligned) (rnd : ℕ) :
    ∃ d, cfg.new s rnd = some d ∧ d.storage = s ∧ s.image.VoteOf d.core ∧ s.image.LogOf d.core ∧
      d.core.state = .follower := by
  unfold DriverConfig.new
  cases hs : s.snapshot with
  | some snapshot =>
    have hlog := h.log (by rw [hs]; rfl)
    obtain ⟨frames, hf⟩ := Option.isSome_iff_exists.mp hlog
    cases hm : s.metadata with
    | none =>
      have := (h.fresh hm).2
      rw [hs] at this
      cases this
    | some metadata =>
      simp only [Storage.restoreLogEntries, hf, Option.map_some, bind, Option.bind_some]
      refine ⟨_, rfl, rfl, ⟨?_, ?_⟩, ⟨?_, ?_⟩, rfl⟩ <;>
        simp [Storage.image, Storage.frames, hm, hs, hf, driver, RaftCore.restoreWithSnapshot,
          RaftCore.restore, Mirror.base, RaftCore.base]
  | none =>
    cases hm : s.metadata with
    | none =>
      have hframes := (h.fresh hm).1
      refine ⟨_, rfl, rfl, ⟨?_, ?_⟩, ⟨?_, ?_⟩, rfl⟩ <;>
        simp [Storage.image, hframes, hm, hs, driver, RaftCore.new, Mirror.base, RaftCore.base]
    | some metadata =>
      refine ⟨_, rfl, rfl, ⟨?_, ?_⟩, ⟨?_, ?_⟩, rfl⟩ <;>
        simp [Storage.image, Storage.frames, Storage.restoreLogEntries, hm, hs, driver,
          RaftCore.restore, RaftCore.new, Mirror.base, RaftCore.base]
      cases s.log <;> rfl

theorem durable_of_new {s : Storage} (h : s.Aligned) {rnd : ℕ} (hn : cfg.new s rnd = some d) :
    d.Durable := by
  obtain ⟨d', hd', hs, hv, hl, hf⟩ := cfg.new_of_aligned h rnd
  obtain rfl : d' = d := Option.some.inj (hd'.symm.trans hn)
  exact ⟨hs ▸ h, hs ▸ hv, hs ▸ hl, fun hne => absurd hf hne⟩

theorem durable_run {rnd : ℕ}
    (h : (cfg.machine app).Run (RaftDriver.Settles app) (cfg.boot rnd) d) : d.Durable := by
  refine h.invariant (P := RaftDriver.Durable) (durable_of_new Storage.aligned_empty rfl) ?_
  intro d i d' hd hok hstep
  cases i with
  | event event rnd => exact (RaftDriver.keeps_handleEvent hd hok.1 hok.2).after d' hstep
  | crash event rnd done restartRnd => exact durable_of_new (hok.aligned hd) hstep

/-- The durable image equals the core : in every run whose steps settle, at every head of the
event loop `RaftDriver::new` rebuilds the term, the vote, the snapshot point and the log. -/
theorem durable_image {rnd₀ : ℕ}
    (h : (cfg.machine app).Run (RaftDriver.Settles app) (cfg.boot rnd₀) d) (rnd : ℕ) :
    ∃ d', cfg.new d.storage rnd = some d' ∧ d'.core.currentTerm = d.core.currentTerm ∧
      d'.core.votedFor = d.core.votedFor ∧
      d'.core.lastIncludedIndex = d.core.lastIncludedIndex ∧
      d'.core.lastIncludedTerm = d.core.lastIncludedTerm ∧
      ∀ i, d'.core.logEntryAt i = d.core.logEntryAt i := by
  have hd := durable_run h
  obtain ⟨d', hnew, -, hv, hl, -⟩ := cfg.new_of_aligned hd.aligned rnd
  have hbase : d'.core.base = d.core.base := hl.2.symm.trans hd.log.2
  have hlog : d'.core.log = d.core.log := hl.1.symm.trans hd.log.1
  refine ⟨d', hnew, hv.1.symm.trans hd.vote.1, hv.2.symm.trans hd.vote.2,
    congrArg Point.index hbase, congrArg Point.term hbase, fun i => ?_⟩
  have hi : d'.core.lastIncludedIndex = d.core.lastIncludedIndex := congrArg Point.index hbase
  simp only [RaftCore.logEntryAt, hi, hlog]

/-- One node of three that takes a snapshot after every command. -/
def eager : DriverConfig := ⟨1, [1, 2, 3], some 1, (1, 2), 1⟩

/-- An application whose state is the commands it has received. -/
def echo (received : List AppliedEntry) : Bytes :=
  (received.filterMap fun
    | .command command => some command
    | _ => none).flatten

/-- A command is applied and compacted, then an entry is appended. -/
def appendsBehind : List DriverInput :=
  [.event (.message (.appendEntries ⟨1, 2, 0, 0, [⟨1, [7]⟩], 1⟩)) 1,
    .event (.message (.appendEntries ⟨1, 2, 1, 1, [⟨1, [8]⟩], 1⟩)) 1]

theorem durable_image_appendsBehind :
    ∃ d d', (eager.machine echo).Run (RaftDriver.Settles echo) (eager.boot 1) d ∧
      eager.new d.storage 1 = some d' ∧ d'.core.lastIncludedIndex = 1 ∧
      d'.core.logEntryAt 2 = some ⟨1, [8]⟩ := by
  obtain ⟨d, hd, hi, he⟩ := (eager.machine echo).exists_run_of_exec (RaftDriver.Settles echo)
    (eager.boot 1) appendsBehind
    (fun d => d.core.lastIncludedIndex = 1 ∧ d.core.logEntryAt 2 = some ⟨1, [8]⟩)
    (by decide +kernel) (by decide +kernel)
  obtain ⟨d', hnew, -, -, hi', -, he'⟩ := durable_image hd 1
  exact ⟨d, d', hd, hnew, hi'.trans hi, (he' 2).trans he⟩

/-- Of two entries the first is committed, and compacting it clears both. -/
def clearsTooMuch : List DriverInput :=
  [.event (.message (.appendEntries ⟨1, 2, 0, 0, [⟨1, [7]⟩, ⟨1, [8]⟩], 1⟩)) 1]

/-- The second entry, acknowledged to the leader, is lost by a restart. -/
theorem lost_entry_of_clearsTooMuch :
    ∃ d d', (eager.machine echo).Run (fun _ _ => True) (eager.boot 1) d ∧
      eager.new d.storage 1 = some d' ∧ d.core.logEntryAt 2 = some ⟨1, [8]⟩ ∧
      d'.core.logEntryAt 2 = none := by
  obtain ⟨d, hd, hnew, he⟩ := (eager.machine echo).exists_run_of_exec (fun _ _ => True)
    (eager.boot 1) clearsTooMuch (fun d =>
      (eager.new d.storage 1).any (fun d' => d'.core.logEntryAt 2 = none) = true ∧
        d.core.logEntryAt 2 = some ⟨1, [8]⟩)
    (by decide +kernel) (Machine.execOk_true _ _)
  obtain ⟨d', hd', hnone⟩ := (Option.any_eq_true _ _).mp hnew
  exact ⟨d, d', hd, hd', he, of_decide_eq_true hnone⟩

/-- A crash inside an event keeps indices : in every run whose steps settle, after a crash
that settles the driver starts again, and every entry above the snapshot is the one that was
persisted for its index. -/
theorem crash_keeps_indices {rnd₀ rnd done restartRnd : ℕ} {event : RaftDriver.Event}
    (h : (cfg.machine app).Run (RaftDriver.Settles app) (cfg.boot rnd₀) d)
    (hok : d.Settles app (.crash event rnd done restartRnd)) :
    ∃ d', (cfg.machine app).step d (.crash event rnd done restartRnd) = some d' ∧
      ∀ i, d'.core.lastIncludedIndex < i →
        d'.core.logEntryAt i = (d.crashStorage app rnd event done).entryFor i := by
  have hal := hok.aligned (durable_run h)
  obtain ⟨d', hnew, -, -, hl, -⟩ := cfg.new_of_aligned hal restartRnd
  refine ⟨d', hnew, fun i hi => ?_⟩
  have hbase : (d.crashStorage app rnd event done).image.lastIncludedIndex =
      d'.core.lastIncludedIndex := congrArg Point.index hl.2
  rw [hal.entryFor (by rw [hbase]; exact hi), hbase, hl.1, RaftCore.logEntryAt,
    if_neg (Nat.not_le.mpr hi)]

/-- An entry of a new term, which stores the term, the entry and then a snapshot. -/
def secondEntry : RaftDriver.Event :=
  .message (.appendEntries ⟨2, 2, 1, 1, [⟨2, [8]⟩], 2⟩)

/-- The crash falls after the entry is stored and before the snapshot. -/
theorem crash_keeps_indices_secondEntry :
    ∃ d d', (eager.machine echo).Run (RaftDriver.Settles echo) (eager.boot 1) d ∧
      (eager.machine echo).step d (.crash secondEntry 1 2 1) = some d' ∧
      d'.core.currentTerm = 2 ∧ d'.core.logEntryAt 2 = some ⟨2, [8]⟩ := by
  obtain ⟨d, hd, hok, hany, hentry⟩ := (eager.machine echo).exists_run_of_exec
    (RaftDriver.Settles echo) (eager.boot 1)
    [.event (.message (.appendEntries ⟨1, 2, 0, 0, [⟨1, [7]⟩], 0⟩)) 1]
    (fun d => d.Settles echo (.crash secondEntry 1 2 1) ∧
      ((eager.machine echo).step d (.crash secondEntry 1 2 1)).any (fun d' =>
        d'.core.currentTerm = 2 ∧ d'.core.lastIncludedIndex < 2) = true ∧
      (d.crashStorage echo 1 secondEntry 2).entryFor 2 = some ⟨2, [8]⟩)
    (by decide +kernel) (by decide +kernel)
  obtain ⟨d', hstep, hkeeps⟩ := crash_keeps_indices hd hok
  obtain ⟨d'', hstep', hd''⟩ := (Option.any_eq_true _ _).mp hany
  obtain rfl : d' = d'' := Option.some.inj (hstep.symm.trans hstep')
  obtain ⟨hterm, hlt⟩ := of_decide_eq_true hd''
  exact ⟨d, d', hd, hstep, hterm, (hkeeps 2 hlt).trans hentry⟩

/-- A snapshot far behind the log of the node. -/
def farSnapshot : RaftDriver.Event :=
  .message (.installSnapshot ⟨1, 2, 5, 1, [9]⟩)

/-- A crash right behind `store_snapshot` : the entry persisted for index `1` comes back at
index `6`, for which nothing was persisted. -/
theorem moved_entry_of_farSnapshot :
    ∃ d d', (eager.machine echo).Run (fun _ _ => True) (eager.boot 1) d ∧
      (eager.machine echo).step d (.crash farSnapshot 1 1 1) = some d' ∧
      d'.core.lastIncludedIndex = 5 ∧ d'.core.logEntryAt 6 = some ⟨1, [7]⟩ ∧
      (d.crashStorage echo 1 farSnapshot 1).entryFor 1 = some ⟨1, [7]⟩ ∧
      (d.crashStorage echo 1 farSnapshot 1).entryFor 6 = none := by
  obtain ⟨d, hd, hany, hold, hnone⟩ := (eager.machine echo).exists_run_of_exec (fun _ _ => True)
    (eager.boot 1) [.event (.message (.appendEntries ⟨1, 2, 0, 0, [⟨1, [7]⟩, ⟨1, [8]⟩], 0⟩)) 1]
    (fun d => ((eager.machine echo).step d (.crash farSnapshot 1 1 1)).any (fun d' =>
        d'.core.lastIncludedIndex = 5 ∧ d'.core.logEntryAt 6 = some ⟨1, [7]⟩) = true ∧
      (d.crashStorage echo 1 farSnapshot 1).entryFor 1 = some ⟨1, [7]⟩ ∧
      (d.crashStorage echo 1 farSnapshot 1).entryFor 6 = none)
    (by decide +kernel) (Machine.execOk_true _ _)
  obtain ⟨d', hstep, hd'⟩ := (Option.any_eq_true _ _).mp hany
  obtain ⟨hi, he⟩ := of_decide_eq_true hd'
  exact ⟨d, d', hd, hstep, hi, he, hold, hnone⟩

end DriverConfig

end FerrisFerry
