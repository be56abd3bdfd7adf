import FerrisFerry.Progress
import FerrisFerry.WriteAhead

/-!
# What a call hands to the application

A call either installs a snapshot and applies nothing, or hands out the entries from the one
after `last_applied` up to the new `last_applied`, in order and without a gap
(`RaftCore.Outcome.delivers`). This needs that `last_applied` is the commit index and not
below the snapshot point (`RaftCore.CaughtUp`), which every call keeps. The snapshot point itself
moves by a snapshot only (`RaftCore.Outcome.baseMove`).
-/

namespace FerrisFerry

/-- The actions that reach the application. -/
def Action.Reaches : Action → Prop
  | .applyToStateMachine _ _ | .installSnapshot _ _ _ => True
  | _ => False

theorem Action.Leading.not_reaches {a : Action} (h : a.Leading) : ¬a.Reaches := by
  cases a with
  | sendMessage | sendInstallSnapshot => exact fun h => h
  | _ => exact h.elim

/-- The actions apply the entries from index `n + 1` to `m`, in order, and install nothing. -/
inductive Applies : ℕ → List Action → ℕ → Prop
  | nil {n : ℕ} : Applies n [] n
  | apply {n m : ℕ} {command : Bytes} {actions : List Action} (h : Applies (n + 1) actions m) :
    Applies n (.applyToStateMachine (n + 1) command :: actions) m
  | skip {n m : ℕ} {a : Action} {actions : List Action} (ha : ¬a.Reaches)
      (h : Applies n actions m) : Applies n (a :: actions) m

namespace Applies

variable {n m k : ℕ} {as bs : List Action}

theorem le (h : Applies n as m) : n ≤ m := by
  induction h with
  | nil => exact le_rfl
  | apply _ ih => exact (Nat.le_succ _).trans ih
  | skip _ _ ih => exact ih

theorem append (h : Applies n as m) (h' : Applies m bs k) : Applies n (as ++ bs) k := by
  induction h with
  | nil => exact h'
  | apply _ ih => exact .apply (ih h')
  | skip ha _ ih => exact .skip ha (ih h')

theorem of_not_reaches (h : ∀ a ∈ as, ¬a.Reaches) : Applies n as n := by
  induction as with
  | nil => exact .nil
  | cons a as ih =>
    exact .skip (h a List.mem_cons_self) (ih fun b hb => h b (List.mem_cons_of_mem a hb))

theorem applyActions (entries : List LogEntry) (n : ℕ) :
    Applies n (RaftCore.applyActions (n + 1) entries) (n + entries.length) := by
  induction entries generalizing n with
  | nil => exact .nil
  | cons e entries ih =>
    have hcons : RaftCore.applyActions (n + 1) (e :: entries) =
        .applyToStateMachine (n + 1) e.command :: RaftCore.applyActions (n + 1 + 1) entries := by
      rw [RaftCore.applyActions, List.mapIdx_cons, Nat.zero_add]
      congr 1
      refine congrArg (List.mapIdx · entries) (funext fun i => funext fun e => ?_)
      rw [Nat.add_right_comm, Nat.add_assoc]
    rw [hcons, List.length_cons, Nat.add_comm entries.length, ← Nat.add_assoc]
    exact .apply (ih (n + 1))

end Applies

namespace RaftCore

variable {core core' : RaftCore} {rnd : ℕ} {request : Request} {actions : List Action}

/-- Everything committed is applied, and nothing below the snapshot is left to apply. -/
structure CaughtUp (core : RaftCore) : Prop where
  applied : core.lastApplied = core.commitIndex
  base : core.lastIncludedIndex ≤ core.lastApplied

/-- A slice above the snapshot starts inside the log and ends there or at its own end. -/
theorem length_logSlice {start stop : ℕ} {entries : List LogEntry}
    (hs : core.logSlice (start + 1) (stop + 1) = some entries)
    (hb : core.lastIncludedIndex ≤ start) :
    start ≤ stop ∧ start ≤ core.lastLogIndex ∧
      entries.length = min stop core.lastLogIndex - start := by
  unfold logSlice checkedSub at hs
  rw [if_neg (by omega)] at hs
  split_ifs at hs with h1
  · simp only [bind, Option.bind_some] at hs
    split_ifs at hs with h2
    · obtain rfl := Option.some.inj hs
      rw [List.length_take, List.length_drop]
      unfold lastLogIndex
      omega
  · simp at hs

/-- What a call hands out : the entries up to the new `last_applied`, or the snapshot of its
request and no entry. -/
inductive Delivers (core : RaftCore) : Request → RaftCore → List Action → Prop
  | entries {request : Request} {core' : RaftCore} {actions : List Action}
      (h : Applies core.lastApplied actions core'.lastApplied) :
    Delivers core request core' actions
  | snapshot {req : InstallSnapshotRPC} {core' : RaftCore} {metas rest : List Action}
      (hm : ∀ a ∈ metas, ¬a.Reaches) (hr : ∀ a ∈ rest, ¬a.Reaches)
      (ha : core'.lastApplied = req.lastIncludedIndex) :
    Delivers core (.message (.installSnapshot req)) core' (metas ++
      .installSnapshot req.lastIncludedIndex req.lastIncludedTerm req.data :: rest)

theorem not_reaches_termActions {t : ℕ} {a : Action} (ha : a ∈ core.termActions t) :
    ¬a.Reaches := by
  obtain ⟨t, v, rfl⟩ := metadata_of_termActions core t a ha
  exact fun h => h

/-- The term check and one more action that does not reach the application. -/
theorem not_reaches_append_singleton {t : ℕ} {a : Action} (ha : ¬a.Reaches) :
    ∀ b ∈ core.termActions t ++ [a], ¬b.Reaches := by
  intro b hb
  rcases List.mem_append.mp hb with hb | hb
  · exact not_reaches_termActions hb
  · rw [List.mem_singleton.mp hb]
    exact ha

theorem CaughtUp.base_le (hc : core.CaughtUp) (hb : core'.base = core.base)
    (hl : core.lastApplied ≤ core'.lastApplied) : core'.lastIncludedIndex ≤ core'.lastApplied := by
  rw [show core'.lastIncludedIndex = core.lastIncludedIndex from congrArg Point.index hb]
  exact hc.base.trans hl

/-- A call that applies nothing. -/
theorem CaughtUp.idle (hc : core.CaughtUp) (hb : core'.base = core.base)
    (hl : core'.lastApplied = core.lastApplied) (ha : ∀ a ∈ actions, ¬a.Reaches) :
    core.Delivers request core' actions ∧ core'.lastIncludedIndex ≤ core'.lastApplied := by
  refine ⟨.entries ?_, hc.base_le hb hl.ge⟩
  rw [hl]
  exact .of_not_reaches ha

/-- A call that applies a slice of the log. -/
theorem CaughtUp.slice {entries : List LogEntry} (hc : core.CaughtUp)
    (hb : core'.base = core.base) (hs : core'.logSlice (core.lastApplied + 1)
      (core'.lastApplied + 1) = some entries)
    (hl : core'.lastApplied ≤ core'.lastLogIndex ∨ core'.lastApplied = core.lastApplied) :
    Applies core.lastApplied (applyActions (core.lastApplied + 1) entries) core'.lastApplied ∧
      core'.lastIncludedIndex ≤ core'.lastApplied := by
  have hbase : core'.lastIncludedIndex = core.lastIncludedIndex := congrArg Point.index hb
  obtain ⟨hlo, hin, hlen⟩ := length_logSlice hs (hbase ▸ hc.base)
  have happ := Applies.applyActions entries core.lastApplied
  rw [show core.lastApplied + entries.length = core'.lastApplied by omega] at happ
  exact ⟨happ, hc.base_le hb hlo⟩

/-- An accepted request applies what it commits. -/
theorem CaughtUp.accept {req : AppendEntriesRPC} {accepted : List Action} (hc : core.CaughtUp)
    (happ : core'.lastApplied = core'.commitIndex)
    (ha : ((core.termChecked req.term rnd).follow req.leaderId rnd).acceptEntries req =
      some (core', accepted)) :
    core.Delivers request core' (core.termActions req.term ++ accepted) ∧
      core'.lastIncludedIndex ≤ core'.lastApplied := by
  obtain ⟨merged, persist, applies, -, hm, hF, hp, rfl⟩ := acceptEntries_spec ha
  have hbase : core'.base = core.base := by
    rw [hF.frame, hm]
    exact termChecked_base core req.term rnd
  have hpersist : ∀ a ∈ persist, ¬a.Reaches := by
    rcases hp with ⟨-, rfl⟩ | ⟨-, entries, -, rfl⟩
    · simp
    · exact fun a ha => List.mem_singleton.mp ha ▸ fun h => h
  have hreply : ¬(Action.sendMessage req.leaderId
      (.appendEntriesResponse core'.acceptance)).Reaches := fun h => h
  -- around what is applied nothing reaches the application
  have hall : ∀ {m : ℕ}, Applies core.lastApplied applies m → Applies core.lastApplied
      (core.termActions req.term ++ (persist ++ applies ++ [.sendMessage req.leaderId
        (.appendEntriesResponse core'.acceptance)])) m := fun happ =>
    (Applies.of_not_reaches fun a ha => not_reaches_termActions ha).append
      (((Applies.of_not_reaches hpersist).append happ).append (.skip hreply .nil))
  rcases hF.commit with ⟨-, -, hla, rfl⟩ | ⟨-, hci, -, entries, hs, rfl⟩
  · have hla' : core'.lastApplied = core.lastApplied := by
      rw [hla, hm]
      exact termChecked_lastApplied core req.term rnd
    exact ⟨.entries (hla' ▸ hall .nil), hc.base_le hbase hla'.ge⟩
  · have hmc : merged.commitIndex = core.lastApplied := by
      rw [hm, hc.applied]
      exact termChecked_commitIndex core req.term rnd
    have hll : core'.lastLogIndex = merged.lastLogIndex := by rw [hF.frame]; rfl
    have hs' : core'.logSlice (core.lastApplied + 1) (core'.lastApplied + 1) = some entries := by
      rw [happ, ← hs, hmc, hF.frame]
      rfl
    rw [hmc] at hall ⊢
    obtain ⟨h, hle⟩ := hc.slice hbase hs' (Or.inl (by rw [happ, hci, hll]; exact min_le_right _ _))
    exact ⟨.entries (hall h), hle⟩

/-- A recorded success applies what it commits. -/
theorem CaughtUp.record {resp : AppendEntriesResponseRPC} {recorded : List Action}
    (hc : core.CaughtUp) (happ : core'.lastApplied = core'.commitIndex)
    (hr : (core.termChecked resp.term rnd).recordSuccess resp = some (core', recorded)) :
    core.Delivers request core' (core.termActions resp.term ++ recorded) ∧
      core'.lastIncludedIndex ≤ core'.lastApplied := by
  have hR := recordSuccess_spec hr
  have hla : (core.termChecked resp.term rnd).lastApplied = core.lastApplied :=
    termChecked_lastApplied core resp.term rnd
  have hbase : core'.base = core.base := by
    rw [hR.frame]
    exact termChecked_base core resp.term rnd
  obtain ⟨entries, hs, rfl⟩ := hR.actions
  rw [hla] at hs ⊢
  have hs' : core'.logSlice (core.lastApplied + 1) (core'.lastApplied + 1) = some entries := by
    rw [happ, ← hs, hR.frame]
    rfl
  have hlast : core'.lastApplied ≤ core'.lastLogIndex ∨ core'.lastApplied = core.lastApplied := by
    rw [happ]
    rcases hR.commit with h | ⟨-, -, h⟩
    · exact Or.inr (h.trans ((termChecked_commitIndex core resp.term rnd).trans hc.applied.symm))
    · refine Or.inl ((logTermAt_eq_some.mp h).2.1.trans (le_of_eq ?_))
      rw [hR.frame]
      rfl
  obtain ⟨h, hle⟩ := hc.slice hbase hs' hlast
  refine ⟨.entries ?_, hle⟩
  refine (Applies.of_not_reaches fun a ha => not_reaches_termActions ha).append
    (h.append (.of_not_reaches fun a ha => ?_))
  obtain ⟨id, -, rfl⟩ := List.mem_map.mp ha
  exact fun h => h

/-- Every call delivers in one of these ways and stays caught up. -/
theorem Outcome.delivers (h : core.Outcome rnd request core' actions) (hc : core.CaughtUp) :
    core.Delivers request core' actions ∧ core'.CaughtUp := by
  have happ := h.lastApplied_eq hc.applied
  suffices H :
      core.Delivers request core' actions ∧ core'.lastIncludedIndex ≤ core'.lastApplied from
    ⟨H.1, happ, H.2⟩
  cases h with
  | wait | refuse | collectVote | recordSnapshotResponse =>
    exact hc.idle rfl rfl fun _ h => absurd h List.not_mem_nil
  | barrier =>
    unfold requestReadBarrier
    split_ifs <;> exact hc.idle rfl rfl fun _ h => absurd h List.not_mem_nil
  | compact hp hs =>
    have hap := (completeSnapshot_frame hp hs).2.2.2
    refine ⟨.entries (hap ▸ .nil), ?_⟩
    rcases completeSnapshot_spec hp hs with ⟨-, rfl⟩ | ⟨k, -, -, -, -, rfl⟩
    · exact hc.base
    · exact le_rfl
  | heartbeat hl hs =>
    exact hc.idle rfl rfl fun a ha => (leading_of_appendEntries hs ha).not_reaches
  | append hl hs | win ht hcand hg hq hs =>
    refine hc.idle rfl rfl fun a ha => ?_
    rcases List.mem_cons.mp ha with rfl | ha
    · exact fun h => h
    · exact (leading_of_appendEntries hs ha).not_reaches
  | stand =>
    refine hc.idle rfl rfl fun a ha => ?_
    rcases List.mem_cons.mp ha with rfl | ha
    · exact fun h => h
    · obtain ⟨peer, -, rfl⟩ := List.mem_map.mp ha
      exact fun h => h
  | grantVote =>
    refine hc.idle (termChecked_base core _ rnd) (termChecked_lastApplied core _ rnd) fun a ha => ?_
    rcases List.mem_append.mp ha with ha | ha
    · exact not_reaches_termActions ha
    · simp only [List.mem_cons, List.not_mem_nil, or_false] at ha
      rcases ha with rfl | rfl <;> exact fun h => h
  | ignoreVote | ignoreSnapshotResponse =>
    exact hc.idle (termChecked_base core _ rnd) (termChecked_lastApplied core _ rnd)
      fun a ha => not_reaches_termActions ha
  | denyVote | rejectAppend | conflictAppend | oldSnapshot | haveSnapshot =>
    exact hc.idle (termChecked_base core _ rnd) (termChecked_lastApplied core _ rnd)
      (not_reaches_append_singleton fun h => h)
  | failure hs hb =>
    exact hc.idle (termChecked_base core _ rnd) (termChecked_lastApplied core _ rnd)
      (not_reaches_append_singleton (leading_of_build hb).not_reaches)
  | staleSnapshot =>
    refine hc.idle rfl rfl fun a ha => ?_
    rw [List.mem_singleton.mp ha]
    exact fun h => h
  | @installSnapshot req =>
    refine ⟨.snapshot (fun a ha => not_reaches_termActions ha) (fun a ha => ?_) rfl, le_rfl⟩
    rw [List.mem_singleton.mp ha]
    exact fun h => h
  | acceptAppend _ _ _ ha => exact hc.accept happ ha
  | success _ hr => exact hc.record happ hr

/-! ## The snapshot point -/

/-- What an event does to the snapshot point : nothing, unless a snapshot is installed. -/
inductive BaseMove (core : RaftCore) (request : Request) (core' : RaftCore)
    (actions : List Action) : Prop
  | keep (hb : core'.base = core.base) (ha : ∀ i l data, .installSnapshot i l data ∉ actions)
  | install {req : InstallSnapshotRPC} {reply : Message}
      (hr : request = .message (.installSnapshot req))
      (hi : core.lastIncludedIndex < req.lastIncludedIndex)
      (hb : core'.base = ⟨req.lastIncludedIndex, req.lastIncludedTerm⟩)
      (ha : actions = core.termActions req.term ++
        [.installSnapshot req.lastIncludedIndex req.lastIncludedTerm req.data,
          .sendMessage req.leaderId reply])

theorem not_install_of_emits (h : core.Outcome rnd request core' actions)
    (hreq : ∀ req, request ≠ .message (.installSnapshot req)) (i l : ℕ) (data : Bytes) :
    .installSnapshot i l data ∉ actions := by
  intro ha
  cases h.emits ha with
  | install hr => exact hreq _ hr
  | leading hb => exact (leading_of_build hb).elim

theorem Outcome.base_eq (h : core.Outcome rnd request core' actions)
    (hreq : ∀ req, request ≠ .message (.installSnapshot req))
    (hsnap : ∀ data, request ≠ .snapshot data) : core'.base = core.base := by
  cases h with
  | wait | heartbeat | stand | refuse | append | collectVote | win | recordSnapshotResponse => rfl
  | barrier =>
    unfold requestReadBarrier
    split_ifs <;> rfl
  | compact => exact absurd rfl (hsnap _)
  | denyVote | grantVote | ignoreVote | rejectAppend | conflictAppend | failure
  | ignoreSnapshotResponse => exact termChecked_base core _ rnd
  | @acceptAppend req _ _ ht hl hv ha =>
    have hacc : core.Accepts rnd req _ := ⟨ht, hl, hv, _, ha⟩
    exact hacc.frame.2.2
  | @success resp _ _ hs hr =>
    rw [(recordSuccess_spec hr).frame]
    exact termChecked_base core resp.term rnd
  | staleSnapshot | oldSnapshot | haveSnapshot | installSnapshot => exact absurd rfl (hreq _)

theorem Outcome.baseMove (h : core.Outcome rnd request core' actions)
    (hsnap : ∀ data, request ≠ .snapshot data) : core.BaseMove request core' actions := by
  by_cases hreq : ∃ req, request = .message (.installSnapshot req)
  · obtain ⟨req, rfl⟩ := hreq
    -- the answer of a core that keeps its log
    have hreply : ∀ {reply : Message} (i l : ℕ) (data : Bytes),
        Action.installSnapshot i l data ∉
          core.termActions req.term ++ [.sendMessage req.leaderId reply] := by
      intro reply i l data hm
      have hsend : ¬(Action.sendMessage req.leaderId reply).Reaches := fun h => h
      exact not_reaches_append_singleton hsend _ hm trivial
    cases h with
    | staleSnapshot => exact .keep rfl fun i l data hm => by cases List.mem_singleton.mp hm
    | oldSnapshot | haveSnapshot => exact .keep (termChecked_base core _ rnd) hreply
    | installSnapshot ht hi hh => exact .install rfl hi rfl rfl
  · have hreq' : ∀ req, request ≠ .message (.installSnapshot req) := fun req hr => hreq ⟨req, hr⟩
    exact .keep (h.base_eq hreq' hsnap) (not_install_of_emits h hreq')

end RaftCore

end FerrisFerry
