import FerrisFerry.ReadWrites

/-!
# The tasks of a node

The event loop waits for a place in the applied channel and for the answer to a snapshot
request. The apply task waits for the event loop only when the channel is empty. So the tasks
never wait for each other in a circle : inside an event, and as long as anything is in the
channel, one of them can go on, and whichever goes on, the node comes to rest after the same
number of steps, with the same store (`KvNode.comes_to_rest`).

What the apply task has taken from the channel only grows. So a read on a node never goes back
behind an earlier one, although it may miss a write that is underway (`KvNode.reads_monotone`).
-/

namespace FerrisFerry

/-- A step of the event loop inside an event, or of the apply task. -/
def KvInput.Internal : KvInput → Prop
  | .effect | .recv | .apply => True
  | _ => False

/-- The snapshot request that a step delivers. -/
def KvInput.installs : KvInput → Option InstallSnapshotRPC
  | .message (.installSnapshot req) _ => some req
  | _ => none

/-- The steps an effect takes until it is done with : an entry is sent, received and applied. -/
def Effect.cost (effect : Effect) : ℕ :=
  if effect.entry.isSome then 3 else 1

namespace KvFormat

variable (fmt : KvFormat)

/-- A snapshot has to deserialize. -/
def Readable : AppliedEntry → Prop
  | .snapshot data => (fmt.store.decode data).isSome
  | .command _ | .snapshotRequest => True

instance : (entry : AppliedEntry) → Decidable (fmt.Readable entry)
  | .snapshot data => inferInstanceAs (Decidable ((fmt.store.decode data).isSome = true))
  | .command _ | .snapshotRequest => inferInstanceAs (Decidable True)

theorem exists_receive {entry : AppliedEntry} (h : fmt.Readable entry) (store : Store) :
    ∃ store', fmt.receive store entry = some store' := by
  cases entry with
  | command command =>
    simp only [receive]
    cases fmt.command.decode command with
    | none => exact ⟨store, rfl⟩
    | some c => cases c <;> exact ⟨_, rfl⟩
  | snapshot data => exact Option.isSome_iff_exists.mp h
  | snapshotRequest => exact ⟨store, rfl⟩

end KvFormat

namespace KvNode

variable {fmt : KvFormat} {httpAddrs : AList fun _ : NodeId => String} {s s' : KvNode}
  {input : KvInput} {d : RaftDriver}

/-- Nothing is left to do inside the node. -/
def Resting (s : KvNode) : Prop :=
  s.todo = [] ∧ s.applied = [] ∧ s.inHand = none

/-- The steps until the node rests. -/
def load (s : KvNode) : ℕ :=
  (s.todo.map Effect.cost).sum + 2 * s.applied.length + s.inHand.toList.length

/-- A peer's snapshot that is delivered deserializes. -/
def Reads (fmt : KvFormat) (_ : KvNode) (input : KvInput) : Prop :=
  ∀ req ∈ input.installs, fmt.Readable (.snapshot req.data)

instance (fmt : KvFormat) (s : KvNode) (input : KvInput) : Decidable (s.Reads fmt input) :=
  inferInstanceAs (Decidable (∀ req ∈ input.installs, fmt.Readable (.snapshot req.data)))

/-! ## What the apply task has received -/

/-- The store is what the entries received so far make of the empty one. -/
def Received (fmt : KvFormat) (past : List AppliedEntry) (s : KvNode) : Prop :=
  fmt.storeAfter past = some s.store ∧ past ++ s.underway = s.sent

theorem Received.move {past : List AppliedEntry} (h : Received fmt past s)
    (m : Move fmt httpAddrs s input s') : ∃ past', past <+: past' ∧ Received fmt past' s' := by
  obtain ⟨hstore, hsent⟩ := h
  cases m with
  | @deliver entry =>
    refine ⟨past, List.prefix_refl _, hstore, ?_⟩
    change past ++ (s.inHand.toList ++ (s.applied ++ [entry])) = s.sent ++ [entry]
    rw [← hsent, underway]
    simp only [List.append_assoc]
  | recv hn ha =>
    refine ⟨past, List.prefix_refl _, hstore, hsent ▸ ?_⟩
    rw [underway, underway, hn, ha]
    rfl
  | @apply entry store hn hr =>
    refine ⟨past ++ [entry], List.prefix_append _ _, ?_, ?_⟩
    · rw [KvFormat.storeAfter, List.foldlM_append]
      change (fmt.storeAfter past).bind _ = _
      rw [hstore]
      change (fmt.receive s.store entry).bind some = some store
      rw [hr, Option.bind_some]
    · rw [underway, hn] at hsent
      rw [List.append_assoc]
      exact hsent
  | start | propose | readRequest | resume | turn | outward | respond =>
    exact ⟨past, List.prefix_refl _, hstore, hsent⟩

theorem received_boot (fmt : KvFormat) (d : RaftDriver) : Received fmt [] (boot d) :=
  ⟨rfl, rfl⟩

/-- What has been received stays so, and more comes to it. -/
theorem Received.run {ok : KvNode → KvInput → Prop} {past : List AppliedEntry}
    (h : Received fmt past s) (hr : (machine fmt httpAddrs).Run ok s s') :
    ∃ past', past <+: past' ∧ Received fmt past' s' := by
  refine hr.invariant (P := fun s => ∃ past', past <+: past' ∧ Received fmt past' s)
    ⟨past, List.prefix_refl _, h⟩ ?_
  rintro s input s' ⟨past', hle, hp⟩ - hstep
  obtain ⟨past'', hle', hp'⟩ := hp.move (move_of_step hstep)
  exact ⟨past'', hle.trans hle', hp'⟩

theorem Received.prefix_sent {past : List AppliedEntry} (h : Received fmt past s) :
    past <+: s.sent :=
  ⟨_, h.2⟩

/-- A handler that returns a value has it from the store. -/
theorem read_of_resume {ch : Channel} {path : String} {key : Bytes} {found : Option Bytes}
    (hstep : (machine fmt httpAddrs).step s (.resume ch) = some s')
    (hfound : s'.handler ch = .returned ⟨path, .get key⟩ (.value found)) :
    found = s.store.lookup key ∧ s'.store = s.store ∧ s'.sent = s.sent := by
  have m := move_of_step hstep
  have hvalue := m.progress ch
  rw [hfound] at hvalue
  cases m with
  | resume h =>
    rcases hvalue.value with hold | ⟨-, -, hval⟩
    · rw [h] at hold
      cases hold
    · exact ⟨hval, rfl, rfl⟩
  | turn he => cases he

/-- Reads of one node do not go back : a read that is answered after another finds what is in
the store after at least as many of the entries sent to the apply task. -/
theorem reads_monotone {ok : KvNode → KvInput → Prop} {s₁ s₂ s₃ s₄ : KvNode} {i j : Channel}
    {path path' : String} {key key' : Bytes} {found found' : Option Bytes}
    (h : (machine fmt httpAddrs).Run ok (boot d) s₁)
    (hi : (machine fmt httpAddrs).step s₁ (.resume i) = some s₂)
    (hfound : s₂.handler i = .returned ⟨path, .get key⟩ (.value found))
    (h' : (machine fmt httpAddrs).Run ok s₂ s₃)
    (hj : (machine fmt httpAddrs).step s₃ (.resume j) = some s₄)
    (hfound' : s₄.handler j = .returned ⟨path', .get key'⟩ (.value found')) :
    ∃ older newer store store', older <+: newer ∧ newer <+: s₄.sent ∧
      fmt.storeAfter older = some store ∧ found = store.lookup key ∧
      fmt.storeAfter newer = some store' ∧ found' = store'.lookup key' := by
  obtain ⟨older, -, hold⟩ := (received_boot fmt d).run h
  obtain ⟨newer₀, hle₀, hnew₀⟩ := hold.move (move_of_step hi)
  obtain ⟨newer, hle, hnew⟩ := hnew₀.run h'
  obtain ⟨hval, -, -⟩ := read_of_resume hi hfound
  obtain ⟨hval', -, hsent⟩ := read_of_resume hj hfound'
  exact ⟨older, newer, s₁.store, s₃.store, hle₀.trans hle, hsent ▸ hnew.prefix_sent, hold.1, hval,
    hnew.1, hval'⟩

/-- Two clients ask for the key that is being written, and both are let through. -/
def askingTwice : List KvInput :=
  [.start 6 ⟨"/key/a", .get [97]⟩, .submit 6, .read, .start 7 ⟨"/key/a", .get [97]⟩, .submit 7,
    .read, .tick 1, .effect, .effect,
    .message (.appendEntriesResponse ⟨2, 1, 2, true, none, none⟩) 1, .effect, .effect]

theorem step_of_isSome (s : KvNode) (input : KvInput)
    (h : ((machine KvFormat.postcard ∅).step s input).isSome = true) :
    (machine KvFormat.postcard ∅).step s input = some (s.after [input]) := by
  obtain ⟨s', hs'⟩ := Option.isSome_iff_exists.mp h
  simp [after, Machine.exec, hs']

/-- The first finds nothing yet, the second finds the value. -/
theorem reads_monotone_askingTwice :
    ∃ s, (machine KvFormat.postcard ∅).Run (fun _ _ => True) (boot (Session.rare.boot 1)) s ∧
      ∃ older newer store store', older <+: newer ∧ newer <+: s.sent ∧
        KvFormat.postcard.storeAfter older = some store ∧ none = store.lookup [97] ∧
        KvFormat.postcard.storeAfter newer = some store' ∧ some [98] = store'.lookup [97] := by
  have hwriting : (machine KvFormat.postcard ∅).Run (fun _ _ => True) (boot (Session.rare.boot 1))
      (elected.after writing) :=
    (run_after (by decide +kernel) (Machine.execOk_true _ _)).trans
      (run_after (by decide +kernel) (Machine.execOk_true _ _))
  have h : (machine KvFormat.postcard ∅).Run (fun _ _ => True) (boot (Session.rare.boot 1))
      ((elected.after writing).after askingTwice) :=
    hwriting.trans (run_after (by decide +kernel) (Machine.execOk_true _ _))
  have hi := step_of_isSome ((elected.after writing).after askingTwice) (.resume 6)
    (by decide +kernel)
  have hfound : (((elected.after writing).after askingTwice).after [.resume 6]).handler 6 =
      .returned ⟨"/key/a", .get [97]⟩ (.value none) := by decide +kernel
  have h' : (machine KvFormat.postcard ∅).Run (fun _ _ => True)
      (((elected.after writing).after askingTwice).after [.resume 6])
      ((((elected.after writing).after askingTwice).after [.resume 6]).after [.recv, .apply]) :=
    run_after (by decide +kernel) (Machine.execOk_true _ _)
  have hj := step_of_isSome
    ((((elected.after writing).after askingTwice).after [.resume 6]).after [.recv, .apply])
    (.resume 7) (by decide +kernel)
  have hfound' : (((((elected.after writing).after askingTwice).after [.resume 6]).after
      [.recv, .apply]).after [.resume 7]).handler 7 =
      .returned ⟨"/key/a", .get [97]⟩ (.value (some [98])) := by decide +kernel
  exact ⟨_, ((h.step trivial hi).trans h').step trivial hj,
    reads_monotone h hi hfound h' hj hfound'⟩

/-! ## Coming to rest -/

theorem resting_iff : s.Resting ↔ s.load = 0 := by
  constructor
  · rintro ⟨htodo, happlied, hhand⟩
    rw [load, htodo, happlied, hhand]
    rfl
  · intro h
    have hcost : ∀ effect : Effect, 0 < effect.cost := fun effect => by
      unfold Effect.cost
      split_ifs <;> decide
    unfold load at h
    refine ⟨?_, List.length_eq_zero_iff.mp (by omega), ?_⟩
    · cases htodo : s.todo with
      | nil => rfl
      | cons effect todo =>
        have := hcost effect
        rw [htodo, List.map_cons, List.sum_cons] at h
        omega
    · cases hhand : s.inHand with
      | none => rfl
      | some entry =>
        rw [hhand] at h
        simp at h

theorem event_of_internal (hi : input.Internal) : s.event input = none := by
  cases input with
  | effect | recv | apply => rfl
  | _ => exact hi.elim

/-- An internal step is one of the steps that are left. -/
theorem Move.internal (m : Move fmt httpAddrs s input s') (hi : input.Internal) :
    s'.load + 1 = s.load ∧ s'.due = s.due := by
  cases m with
  | start | propose | readRequest | resume => exact hi.elim
  | turn he =>
    rw [event_of_internal hi] at he
    cases he
  | outward h he =>
    refine ⟨?_, ?_⟩
    · simp only [load, h, List.map_cons, List.sum_cons, Effect.cost, he]
      simp
      omega
    · rw [due, due, h, List.filterMap_cons_none he]
  | respond h =>
    refine ⟨?_, ?_⟩
    · simp only [load, setHandler, h, List.map_cons, List.sum_cons, Effect.cost, Effect.entry]
      simp
      omega
    · rw [due, due, h]
      rfl
  | deliver h =>
    refine ⟨?_, ?_⟩
    · simp only [load, h, List.map_cons, List.sum_cons, Effect.cost, Effect.entry,
        List.length_append, List.length_singleton]
      simp
      omega
    · rw [due, due, h]
      exact List.append_assoc _ _ _
  | recv hn h =>
    refine ⟨?_, rfl⟩
    simp only [load, h, hn, List.length_cons, Option.toList_none, Option.toList_some,
      List.length_nil]
    omega
  | apply hn =>
    refine ⟨?_, rfl⟩
    simp [load, hn]

/-- As long as the node does not rest, one of its tasks can go on. -/
theorem exists_internal (hrest : ¬s.Resting) (hread : ∀ entry ∈ s.inHand, fmt.Readable entry) :
    ∃ input s', input.Internal ∧ (machine fmt httpAddrs).step s input = some s' := by
  cases hhand : s.inHand with
  | some entry =>
    obtain ⟨store, hstore⟩ := fmt.exists_receive (hread entry hhand) s.store
    exact ⟨.apply, { s with inHand := none, store := store }, trivial,
      by simp [machine, hhand, hstore]⟩
  | none =>
    cases happlied : s.applied with
    | cons entry applied =>
      exact ⟨.recv, { s with inHand := some entry, applied := applied }, trivial,
        by simp [machine, hhand, happlied]⟩
    | nil =>
      -- the channel is empty, so the event loop waits for nothing
      cases htodo : s.todo with
      | nil => exact absurd ⟨htodo, happlied, hhand⟩ hrest
      | cons effect todo =>
        have hfree : ¬s.Blocked := by simp [Blocked, underway, hhand, happlied]
        have hstep : (machine fmt httpAddrs).step s .effect =
            ({ s with todo := todo } : KvNode).perform effect := by simp [machine, htodo, hfree]
        cases effect with
        | store | send => exact ⟨.effect, _, trivial, hstep⟩
        | apply entry =>
          refine ⟨.effect, _, trivial, hstep.trans (if_pos ?_)⟩
          rw [happlied]
          decide
        | respond channel error =>
          simp only [perform] at hstep
          split at hstep
          · exact ⟨.effect, _, trivial, hstep⟩
          · exact ⟨.effect, _, trivial, hstep⟩

/-! ## What can be read -/

/-- What an event brings can be read if a snapshot it brings can. -/
theorem readable_of_handleEvent {driver : RaftDriver} {event : RaftDriver.Event} {rnd : ℕ}
    (hok : ∀ req, event = .message (.installSnapshot req) → fmt.Readable (.snapshot req.data))
    {entry : AppliedEntry}
    (h : entry ∈ (driver.handleEvent fmt.answer rnd event).1.filterMap Effect.entry) :
    fmt.Readable entry := by
  cases hc : driver.core.call rnd event.request with
  | none =>
    rw [RaftDriver.handleEvent_of_panic hc] at h
    cases h
  | some r =>
    cases RaftDriver.brings_handleEvent hc h with
    | command | request => trivial
    | snapshot ha =>
      cases (RaftCore.call_outcome hc).emits ha with
      | leading hb => exact (RaftCore.leading_of_build hb).elim
      | @install req hr =>
        cases event with
        | message msg => exact hok req (congrArg _ (Request.message.inj hr))
        | tick | propose | read => cases hr

theorem readable_run (h : (machine fmt httpAddrs).Run (Reads fmt) (boot d) s) :
    ∀ entry ∈ s.due, fmt.Readable entry := by
  refine h.invariant (P := fun s => ∀ entry ∈ s.due, fmt.Readable entry)
    (fun entry he => (by cases he)) ?_
  intro s input s' hs hok hstep entry hentry
  rcases (move_of_step hstep).turn_or_steady with
    ⟨e, rnd, he, hidle, -, htodo, hsent⟩ | ⟨-, hdue, -⟩
  · rw [due, hsent, htodo] at hentry
    rcases List.mem_append.mp hentry with hold | hnew
    · exact hs entry (List.mem_append_left _ hold)
    · refine readable_of_handleEvent ?_ hnew
      rintro req rfl
      cases input with
      | message msg =>
        obtain rfl := RaftDriver.Event.message.inj (Option.some.inj he)
        exact hok req rfl
      | propose =>
        obtain ⟨p, -, heq⟩ := Option.map_eq_some_iff.mp he
        cases heq
      | read =>
        obtain ⟨p, -, heq⟩ := Option.map_eq_some_iff.mp he
        cases heq
      | _ => cases he
  · exact hs entry (hdue ▸ hentry)

theorem installs_of_internal (hi : input.Internal) : input.installs = none := by
  cases input with
  | effect | recv | apply => rfl
  | _ => exact hi.elim

/-- Internal steps leave what is due, and each is one of those that are left. -/
theorem internal_exec {inputs : List KvInput} (hint : ∀ i ∈ inputs, i.Internal)
    (he : (machine fmt httpAddrs).exec s inputs = some s') :
    (machine fmt httpAddrs).Run (Reads fmt) s s' ∧ inputs.length + s'.load = s.load ∧
      s'.due = s.due := by
  induction inputs generalizing s with
  | nil =>
    obtain rfl : s = s' := by simpa [Machine.exec] using he
    exact ⟨.init, Nat.zero_add _, rfl⟩
  | cons i inputs ih =>
    obtain ⟨s₁, hstep, he⟩ := Option.bind_eq_some_iff.mp he
    obtain ⟨hi, hint⟩ := List.forall_mem_cons.mp hint
    obtain ⟨hload, hdue⟩ := (move_of_step hstep).internal hi
    obtain ⟨hrun, hlen, hdue'⟩ := ih hint he
    refine ⟨(Machine.Run.init.step ?_ hstep).trans hrun, ?_, hdue'.trans hdue⟩
    · intro req hreq
      rw [installs_of_internal hi] at hreq
      cases hreq
    · rw [List.length_cons]
      omega

/-- Whichever task goes on, the node comes to rest : no order of internal steps is longer than
what is left to do, none stops before, and all end with the store that everything due makes. -/
theorem comes_to_rest (h : (machine fmt httpAddrs).Run (Reads fmt) (boot d) s)
    {inputs : List KvInput} (hint : ∀ i ∈ inputs, i.Internal)
    (he : (machine fmt httpAddrs).exec s inputs = some s') :
    inputs.length + s'.load = s.load ∧
      (¬s'.Resting → ∃ i s'', i.Internal ∧ (machine fmt httpAddrs).step s' i = some s'') ∧
      (s'.Resting → fmt.storeAfter s.due = some s'.store) := by
  obtain ⟨hrun, hlen, hdue⟩ := internal_exec hint he
  have hall := h.trans hrun
  obtain ⟨past, -, hstore, hsent⟩ := (received_boot fmt d).run hall
  refine ⟨hlen, fun hrest => exists_internal hrest fun entry hentry => ?_, fun hrest => ?_⟩
  · refine readable_run hall entry (List.mem_append_left _ ?_)
    rw [← hsent, underway]
    simp [Option.mem_def.mp hentry]
  · obtain ⟨htodo, happlied, hhand⟩ := hrest
    rw [underway, happlied, hhand] at hsent
    rw [← hdue, due_of_idle htodo, ← hsent]
    simpa using hstore

/-- A leader has committed a write : it answers the client and sends the command, and the apply
task receives and applies it. -/
theorem comes_to_rest_writing : ∃ s s', (machine KvFormat.postcard ∅).Run (Reads KvFormat.postcard)
    (boot (Session.rare.boot 1)) s ∧ s.load = 4 ∧
    (machine KvFormat.postcard ∅).exec s [.effect, .effect, .recv, .apply] = some s' ∧ s'.Resting ∧
    KvFormat.postcard.storeAfter s.due = some s'.store := by
  have helected : (machine KvFormat.postcard ∅).Run (Reads KvFormat.postcard)
      (boot (Session.rare.boot 1)) elected := run_after (by decide +kernel) (by decide +kernel)
  have hwriting : (machine KvFormat.postcard ∅).Run (Reads KvFormat.postcard) elected
      (elected.after (writing.take 7)) := run_after (by decide +kernel) (by decide +kernel)
  have hrun := helected.trans hwriting
  have hload : (elected.after (writing.take 7)).load = 4 := by decide +kernel
  obtain ⟨s', he⟩ : ∃ s', (machine KvFormat.postcard ∅).exec (elected.after (writing.take 7))
      [.effect, .effect, .recv, .apply] = some s' := Option.isSome_iff_exists.mp (by decide +kernel)
  obtain ⟨hlen, -, hstore⟩ := comes_to_rest hrun (by
    intro i hi
    simp only [List.mem_cons, List.not_mem_nil, or_false] at hi
    rcases hi with rfl | rfl | rfl | rfl <;> trivial) he
  have hrest : s'.Resting := by
    rw [resting_iff]
    rw [hload, List.length_cons, List.length_cons, List.length_cons, List.length_singleton] at hlen
    omega
  exact ⟨_, s', hrun, hload, he, hrest, hstore hrest⟩

end KvNode

end FerrisFerry
