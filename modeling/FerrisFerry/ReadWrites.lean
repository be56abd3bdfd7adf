import FerrisFerry.KeyValue

/-!
# Reading what was written

The event loop tells a writer `Ok` and then sends its command to the apply task, which gets to
it when it does. A reader that is let through reads the store as it finds it. So a reader finds
what a writer before it was told is written, as long as no write to its key is underway then
(`KvNode.read_your_writes`), and may find nothing otherwise.

`KvNode.Orderly` relates the queues and the events to what the handlers have been asked, in any
run. `KvNode.Sound` is about a node that leads, counted from a state it led in : whatever has
come to the apply task since then was in the log or has been proposed, the store is what the
applied part of it makes, and whoever has been told `Ok` for a command has it sent.
-/

namespace FerrisFerry

namespace KvFormat

variable {fmt : KvFormat} {key value : Bytes} {store store' : Store} {entry : AppliedEntry}

/-- An entry that does not write to a key leaves it, unless it is a snapshot. -/
theorem lookup_receive (h : fmt.receive store entry = some store')
    (hs : ∀ data, entry ≠ .snapshot data) (hw : ¬fmt.Writes key entry) :
    store'.lookup key = store.lookup key := by
  cases entry with
  | command command =>
    simp only [receive] at h
    simp only [Writes] at hw
    cases hd : fmt.command.decode command with
    | none =>
      rw [hd] at h
      rw [Option.some.inj h]
    | some c =>
      rw [hd] at h hw
      cases c with
      | get => rw [Option.some.inj h]
      | set key' value =>
        rw [← Option.some.inj h]
        refine AList.lookup_insert_ne fun hk => hw ?_
        rw [hk]
        rfl
      | delete key' =>
        rw [← Option.some.inj h]
        refine AList.lookup_erase_ne fun hk => hw ?_
        rw [hk]
        rfl
  | snapshot data => exact absurd rfl (hs data)
  | snapshotRequest => rw [Option.some.inj h]

/-- Where the only writes to a key are those of one value, the value is found after them. -/
theorem lookup_of_written {entries : List AppliedEntry}
    (hs : ∀ entry ∈ entries, ∀ data, entry ≠ .snapshot data)
    (hw : ∀ entry ∈ entries, fmt.Writes key entry →
      entry = .command (fmt.command.encode (.set key value)))
    (hm : .command (fmt.command.encode (.set key value)) ∈ entries)
    (h : entries.foldlM fmt.receive store = some store') : store'.lookup key = some value := by
  -- what decides is the last write
  induction entries using List.reverseRecOn generalizing store' with
  | nil => cases hm
  | append_singleton entries entry ih =>
    rw [List.foldlM_append] at h
    obtain ⟨store₁, h₁, h⟩ := Option.bind_eq_some_iff.mp h
    have hr : fmt.receive store₁ entry = some store' := by
      rw [List.foldlM_cons] at h
      obtain ⟨store₂, h₂, h⟩ := Option.bind_eq_some_iff.mp h
      rw [h₂, ← h]
      rfl
    by_cases he : entry = .command (fmt.command.encode (.set key value))
    · subst he
      simp only [receive, fmt.command.decode_encode] at hr
      rw [← Option.some.inj hr]
      exact AList.lookup_insert _
    · have hlast := List.mem_append_right entries (List.mem_singleton_self entry)
      rw [lookup_receive hr (hs entry hlast) fun hwr => he (hw entry hlast hwr)]
      refine ih (fun e hem => hs e (List.mem_append_left _ hem))
        (fun e hem => hw e (List.mem_append_left _ hem)) ?_ h₁
      rcases List.mem_append.mp hm with hm | hm
      · exact hm
      · exact absurd (List.mem_singleton.mp hm).symm he

end KvFormat

namespace KvNode

variable {fmt : KvFormat} {httpAddrs : AList fun _ : NodeId => String} {s₀ s s' : KvNode}
  {input : KvInput} {ch : Channel}

/-! ## Who asked for what -/

/-- A handler has been asked for something that takes a command, or takes none. -/
def Wants (s : KvNode) (ch : Channel) (command : Option KvCommand) : Prop :=
  ∃ request, (s.handler ch).request = some request ∧ request.call.command = command

theorem Wants.move {command : Option KvCommand} (h : s.Wants ch command)
    (m : Move fmt httpAddrs s input s') : s'.Wants ch command := by
  obtain ⟨request, hr, hc⟩ := h
  exact ⟨request, (m.progress ch).request hr, hc⟩

theorem Wants.eq {request : KvRequest} {command : Option KvCommand} (h : s.Wants ch command)
    (hr : (s.handler ch).request = some request) : request.call.command = command := by
  obtain ⟨request', hr', hc⟩ := h
  rw [hr] at hr'
  rw [Option.some.inj hr', hc]

/-- The queues and the events are what handlers have asked for. -/
structure Orderly (fmt : KvFormat) (s : KvNode) : Prop where
  filed : s.session.Filed
  proposed : ∀ command ch, (command, ch) ∈ s.proposals ∨ .propose command ch ∈ s.session.events →
    ∃ c, s.Wants ch (some c) ∧ fmt.command.encode c = command
  reading : ∀ ch, ch ∈ s.reads ∨ .read ch ∈ s.session.events → s.Wants ch none

namespace Orderly

theorem move (h : s.Orderly fmt) (m : Move fmt httpAddrs s input s') (hf : s'.session.Filed) :
    s'.Orderly fmt := by
  have hprop : ∀ {command ch}, (command, ch) ∈ s.proposals ∨
      .propose command ch ∈ s.session.events →
      ∃ c, s'.Wants ch (some c) ∧ fmt.command.encode c = command := fun hm => by
    obtain ⟨c, hc, hcmd⟩ := h.proposed _ _ hm
    exact ⟨c, hc.move m, hcmd⟩
  have hread : ∀ {ch}, ch ∈ s.reads ∨ .read ch ∈ s.session.events → s'.Wants ch none :=
    fun hm => (h.reading _ hm).move m
  have hm := m
  cases m with
  | @propose ch request c hst hc =>
    refine ⟨hf, ?_, fun _ => hread⟩
    rintro command ch' (hp | hp)
    · rcases List.mem_append.mp hp with hp | hp
      · exact hprop (Or.inl hp)
      · obtain ⟨rfl, rfl⟩ := Prod.mk.inj (List.mem_singleton.mp hp)
        refine ⟨c, ⟨request, (hm.progress ch').request ?_, hc⟩, rfl⟩
        rw [hst]
        rfl
    · exact hprop (Or.inr hp)
  | @readRequest ch request hst hc =>
    refine ⟨hf, fun _ _ => hprop, ?_⟩
    rintro ch' (hp | hp)
    · rcases List.mem_append.mp hp with hp | hp
      · exact hread (Or.inl hp)
      · obtain rfl := List.mem_singleton.mp hp
        refine ⟨request, (hm.progress ch').request ?_, hc⟩
        rw [hst]
        rfl
    · exact hread (Or.inr hp)
  | turn he hp hr _ hs =>
    obtain ⟨-, -, -, -, hev, -, -⟩ := Session.step_cases hs
    refine ⟨hf, ?_, ?_⟩
    · rintro command ch' (hm | hm)
      · exact hprop (Or.inl (hp hm))
      · rw [hev] at hm
        rcases List.mem_cons.mp hm with rfl | hm
        · exact hprop (Or.inl (mem_of_event_propose he))
        · exact hprop (Or.inr hm)
    · rintro ch' (hm | hm)
      · exact hread (Or.inl (hr hm))
      · rw [hev] at hm
        rcases List.mem_cons.mp hm with rfl | hm
        · exact hread (Or.inl (mem_of_event_read he))
        · exact hread (Or.inr hm)
  | start | resume | outward | respond | deliver | recv | apply =>
    exact ⟨hf, fun _ _ => hprop, fun _ => hread⟩

end Orderly

theorem orderly_of_run {cfg : DriverConfig} {storage : Storage} {d : RaftDriver} {rnd : ℕ}
    (h₀ : cfg.new storage rnd = some d)
    (h : (machine fmt httpAddrs).Run (fun _ _ => True) (boot d) s) :
    s.Orderly fmt := by
  refine h.invariant ⟨Session.filed_start h₀, ?_, ?_⟩ fun s input s' hs _ hstep => ?_
  · rintro command ch (hm | hm) <;> cases hm
  · rintro ch (hm | hm) <;> cases hm
  · have m := move_of_step hstep
    refine hs.move m ?_
    rcases m.turn_or_steady with ⟨e, rnd, -, -, hturn, -⟩ | ⟨hsame, -⟩
    · exact hs.filed.step hturn
    · rw [hsame]
      exact hs.filed

/-! ## A node that leads -/

/-- A command was in the log at first, or has been proposed. -/
def Known (s₀ s : KvNode) (command : Bytes) : Prop :=
  s₀.session.driver.core.Holds command ∨ ∃ ch, .propose command ch ∈ s.session.events

/-- Why a handler may be told `Ok` : its command is sent or to be sent, or it asked to read. -/
def Backed (s : KvNode) (ch : Channel) : Prop :=
  (∃ command, .propose command ch ∈ s.session.events ∧ (command ≠ [] → .command command ∈ s.due)) ∨
    .read ch ∈ s.session.events

/-- A node that has led since `s₀`. -/
structure Sound (fmt : KvFormat) (s₀ s : KvNode) : Prop where
  orderly : s.Orderly fmt
  leads : s.session.driver.core.state = .leader
  held : ∀ command, s.session.driver.core.Holds command → Known s₀ s command
  brought : ∀ entry ∈ s.due, entry = .snapshotRequest ∨
    ∃ command, entry = .command command ∧ Known s₀ s command
  /-- What was underway and what has been sent since then has been applied, or is underway. -/
  received : ∃ past, past.foldlM fmt.receive s₀.store = some s.store ∧
    past ++ s.underway = s₀.underway ++ s.sent
  backed : ∀ ch, .respond ch none ∈ s.todo ∨ (s.handler ch).Granted →
    (s₀.handler ch).Granted ∨ s.Backed ch

/-- A node that leads, between two events. -/
structure Opens (fmt : KvFormat) (s : KvNode) : Prop where
  orderly : s.Orderly fmt
  leads : s.session.driver.core.state = .leader
  idle : s.todo = []
  /-- What is sent counts from here. -/
  sent : s.sent = []

/-- Counting what is sent from here. -/
def reopen (s : KvNode) : KvNode :=
  { s with sent := [] }

/-- Whenever a node has come to lead and is between two events, it opens. -/
theorem opens_of_run {cfg : DriverConfig} {storage : Storage} {d : RaftDriver} {rnd : ℕ}
    (h₀ : cfg.new storage rnd = some d)
    (h : (machine fmt httpAddrs).Run (fun _ _ => True) (boot d) s)
    (hl : s.session.driver.core.state = .leader) (hidle : s.todo = []) :
    s.reopen.Opens fmt := by
  have ho := orderly_of_run h₀ h
  exact ⟨⟨ho.filed, ho.proposed, ho.reading⟩, hl, hidle, rfl⟩

/-- The node leads after a step as it did before. -/
def Leads (fmt : KvFormat) (httpAddrs : AList fun _ : NodeId => String) (s : KvNode)
    (input : KvInput) : Prop :=
  ∀ s' ∈ (machine fmt httpAddrs).step s input, s'.session.driver.core.state = .leader

/-- Nobody else sends a leader a snapshot of its own term. -/
def Unrivaled (s : KvNode) (input : KvInput) : Prop :=
  ∀ e ∈ s.event input, ¬s.session.driver.core.OwnSnapshot e.request

instance (fmt : KvFormat) (httpAddrs : AList fun _ : NodeId => String) (s : KvNode)
    (input : KvInput) : Decidable (s.Leads fmt httpAddrs input) :=
  inferInstanceAs (Decidable (∀ s' ∈ (machine fmt httpAddrs).step s input, _))

instance (s : KvNode) (input : KvInput) : Decidable (s.Unrivaled input) :=
  inferInstanceAs (Decidable (∀ e ∈ s.event input, _))

/-- What has come to the event loop and what is due only grows. -/
theorem Move.grows (m : Move fmt httpAddrs s input s') :
    s.session.events ⊆ s'.session.events ∧ s.due ⊆ s'.due := by
  rcases m.turn_or_steady with ⟨e, rnd, -, hidle, hs, -, hsent⟩ | ⟨hs, hdue, -⟩
  · obtain ⟨-, -, -, -, hev, -⟩ := Session.step_cases hs
    rw [hev, due_of_idle hidle, due, hsent]
    exact ⟨List.subset_cons_self _ _, List.subset_append_left _ _⟩
  · rw [hs, hdue]
    exact ⟨List.Subset.refl _, List.Subset.refl _⟩

theorem Known.move {command : Bytes} (h : Known s₀ s command)
    (m : Move fmt httpAddrs s input s') : Known s₀ s' command := by
  rcases h with h | ⟨ch, hm⟩
  · exact Or.inl h
  · exact Or.inr ⟨ch, m.grows.1 hm⟩

theorem Backed.move (h : s.Backed ch) (m : Move fmt httpAddrs s input s') : s'.Backed ch := by
  rcases h with ⟨command, hp, hc⟩ | hr
  · exact Or.inl ⟨command, m.grows.1 hp, fun hne => m.grows.2 (hc hne)⟩
  · exact Or.inr (m.grows.1 hr)

namespace Sound

theorem init (h : s₀.Opens fmt) : s₀.Sound fmt s₀ where
  orderly := h.orderly
  leads := h.leads
  held _ hm := Or.inl hm
  brought entry hm := by
    rw [due, h.sent, h.idle] at hm
    cases hm
  received := by
    refine ⟨[], rfl, ?_⟩
    rw [h.sent, List.append_nil, List.nil_append]
  backed ch := by
    rintro (hm | hg)
    · rw [h.idle] at hm
      cases hm
    · exact Or.inl hg

theorem received_move (h : Sound fmt s₀ s) (m : Move fmt httpAddrs s input s') :
    ∃ past, past.foldlM fmt.receive s₀.store = some s'.store ∧
      past ++ s'.underway = s₀.underway ++ s'.sent := by
  obtain ⟨past, hfold, hall⟩ := h.received
  cases m with
  | @deliver entry =>
    refine ⟨past, hfold, ?_⟩
    change past ++ (s.inHand.toList ++ (s.applied ++ [entry])) = s₀.underway ++ (s.sent ++ [entry])
    rw [← List.append_assoc s₀.underway, ← hall, underway]
    simp only [List.append_assoc]
  | recv hn ha =>
    refine ⟨past, hfold, hall ▸ ?_⟩
    rw [underway, underway, hn, ha]
    rfl
  | @apply entry store hn hr =>
    refine ⟨past ++ [entry], ?_, ?_⟩
    · rw [List.foldlM_append, hfold]
      change (fmt.receive s.store entry).bind some = some store
      rw [hr, Option.bind_some]
    · rw [underway, hn] at hall
      rw [List.append_assoc]
      exact hall
  | start | propose | readRequest | resume | turn | outward | respond => exact ⟨past, hfold, hall⟩

section move

variable (h : Sound fmt s₀ s) (m : Move fmt httpAddrs s input s')
  (hl' : s'.session.driver.core.state = .leader) (hown : s.Unrivaled input)

include h m hl' hown

theorem turn_or_steady :
    (∃ e rnd, Session.Turned fmt.answer s.session e rnd s'.session ∧ s.todo = [] ∧
      s'.todo = (s.session.driver.handleEvent fmt.answer rnd e).1 ∧ s'.sent = s.sent) ∨
    (s'.session = s.session ∧ s'.due = s.due ∧ s'.todo ⊆ s.todo) := by
  rcases m.turn_or_steady with ⟨e, rnd, he, hidle, hs, htodo, hsent⟩ | ⟨hs, hdue, htodo, -⟩
  · exact Or.inl ⟨e, rnd, h.orderly.filed.turn h.leads hs hl' (hown e he), hidle, htodo, hsent⟩
  · exact Or.inr ⟨hs, hdue, htodo⟩

theorem orderly_move : s'.Orderly fmt := by
  refine h.orderly.move m ?_
  rcases h.turn_or_steady m hl' hown with ⟨e, rnd, ht, -⟩ | ⟨hs, -⟩
  · exact ht.filed
  · rw [hs]
    exact h.orderly.filed

omit hl' hown in
/-- What the log of a leader holds or an event brings is known after the event. -/
theorem known_of_offers {e : RaftDriver.Event} (hev : s'.session.events = e :: s.session.events)
    {command : Bytes} (ho : s.session.Offers e command) : Known s₀ s' command := by
  rcases ho with ho | ⟨ch, rfl⟩
  · exact (h.held command ho).move m
  · exact Or.inr ⟨ch, hev ▸ List.mem_cons_self⟩

theorem held_move {command : Bytes} (hc : s'.session.driver.core.Holds command) :
    Known s₀ s' command := by
  rcases h.turn_or_steady m hl' hown with ⟨e, rnd, ht, -⟩ | ⟨hs, -⟩
  · exact h.known_of_offers m ht.events (ht.held command hc)
  · rw [hs] at hc
    exact (h.held command hc).move m

theorem brought_move {entry : AppliedEntry} (hm : entry ∈ s'.due) :
    entry = .snapshotRequest ∨ ∃ command, entry = .command command ∧ Known s₀ s' command := by
  have hold : entry ∈ s.due → entry = .snapshotRequest ∨
      ∃ command, entry = .command command ∧ Known s₀ s' command := fun hm => by
    rcases h.brought entry hm with hr | ⟨command, hcmd, hc⟩
    · exact Or.inl hr
    · exact Or.inr ⟨command, hcmd, hc.move m⟩
  rcases h.turn_or_steady m hl' hown with ⟨e, rnd, ht, hidle, htodo, hsent⟩ | ⟨-, hdue, -⟩
  · rw [due, hsent, htodo] at hm
    rcases List.mem_append.mp hm with hm | hm
    · exact hold (due_of_idle hidle ▸ hm)
    · rcases ht.brought entry hm with hr | ⟨command, hcmd, hc⟩
      · exact Or.inl hr
      · exact Or.inr ⟨command, hcmd, h.known_of_offers m ht.events hc⟩
  · exact hold (hdue ▸ hm)

theorem backed_move (hch : .respond ch none ∈ s'.todo ∨ (s'.handler ch).Granted) :
    (s₀.handler ch).Granted ∨ s'.Backed ch := by
  have hold : .respond ch none ∈ s.todo ∨ (s.handler ch).Granted →
      (s₀.handler ch).Granted ∨ s'.Backed ch := fun hch =>
    (h.backed ch hch).imp_right fun hb => hb.move m
  rcases hch with hm | hg
  · rcases h.turn_or_steady m hl' hown with ⟨e, rnd, ht, -, htodo, -⟩ | ⟨-, -, htodo⟩
    · -- told in this turn
      rw [htodo] at hm
      rcases ht.told ch hm with ⟨command, hp, hc⟩ | hr
      · refine Or.inr (Or.inl ⟨command, hp, fun hne => ?_⟩)
        rw [due, htodo]
        exact List.mem_append_right _ (hc hne)
      · exact Or.inr (Or.inr hr)
    · exact hold (Or.inl (htodo hm))
  · rcases (m.progress ch).granted hg with hg | hm
    · exact hold (Or.inr hg)
    · exact hold (Or.inl hm)

/-- Every step of a node that goes on leading keeps it sound. -/
theorem move : Sound fmt s₀ s' where
  orderly := h.orderly_move m hl' hown
  leads := hl'
  held _ := h.held_move m hl' hown
  brought _ := h.brought_move m hl' hown
  received := h.received_move m
  backed _ := h.backed_move m hl' hown

end move

end Sound

/-! ## Reading after a write -/

/-- A step of a node that goes on leading. -/
def Reigns (fmt : KvFormat) (httpAddrs : AList fun _ : NodeId => String) (s : KvNode)
    (input : KvInput) : Prop :=
  s.Leads fmt httpAddrs input ∧ s.Unrivaled input

instance (fmt : KvFormat) (httpAddrs : AList fun _ : NodeId => String) (s : KvNode)
    (input : KvInput) : Decidable (s.Reigns fmt httpAddrs input) :=
  inferInstanceAs (Decidable (_ ∧ _))

/-- The reader on `j` goes on only when no write to the key is underway. -/
def Drained (fmt : KvFormat) (j : Channel) (key : Bytes) (s : KvNode) : KvInput → Prop
  | .resume ch => ch = j → ∀ entry ∈ s.underway, ¬fmt.Writes key entry
  | _ => True

instance (fmt : KvFormat) (j : Channel) (key : Bytes) (s : KvNode) :
    (input : KvInput) → Decidable (s.Drained fmt j key input)
  | .resume ch => inferInstanceAs (Decidable (ch = j → ∀ entry ∈ s.underway, _))
  | .start .. | .submit _ | .tick _ | .propose | .read | .message .. | .effect | .recv | .apply =>
    .isTrue trivial

/-- A step of a node that goes on leading, with the reader on `j` as above. -/
def Calm (fmt : KvFormat) (httpAddrs : AList fun _ : NodeId => String) (j : Channel)
    (key : Bytes) (s : KvNode) (input : KvInput) : Prop :=
  s.Reigns fmt httpAddrs input ∧ s.Drained fmt j key input

instance (fmt : KvFormat) (httpAddrs : AList fun _ : NodeId => String) (j : Channel)
    (key : Bytes) (s : KvNode) (input : KvInput) :
    Decidable (s.Calm fmt httpAddrs j key input) :=
  inferInstanceAs (Decidable (_ ∧ _))

section written

variable {i j : Channel} {key value : Bytes} {path : String}

/-- Another request writes to the key. -/
def Contended (s : KvNode) (i : Channel) (key : Bytes) : Prop :=
  ∃ ch c, ch ≠ i ∧ s.Wants ch (some c) ∧ c.target = some key

theorem Contended.move (h : s.Contended i key) (m : Move fmt httpAddrs s input s') :
    s'.Contended i key := by
  obtain ⟨ch, c, hne, hw, ht⟩ := h
  exact ⟨ch, c, hne, hw.move m, ht⟩

/-- Since `s₀` the request on `i` has written the value, and whoever is on `j` has come later. -/
structure Written (fmt : KvFormat) (s₀ : KvNode) (i j : Channel) (key value : Bytes) (path : String)
    (s : KvNode) : Prop where
  sound : Sound fmt s₀ s
  asked : (s.handler i).request = some ⟨path, .set key value⟩
  due : .command (fmt.command.encode (.set key value)) ∈ s.due
  read : .read j ∈ s.session.events → .command (fmt.command.encode (.set key value)) ∈ s.sent
  found : ∀ path' found, s.handler j = .returned ⟨path', .get key⟩ (.value found) →
    found = some value ∨ s.Contended i key

/-- A writer that is told `Ok` has its command sent or to be sent. -/
theorem Sound.due_of_granted (h : Sound fmt s₀ s) (hnil : fmt.command.decode [] = none)
    (hi₀ : ¬(s₀.handler i).Granted) (hi : (s.handler i).Granted)
    (hr : (s.handler i).request = some ⟨path, .set key value⟩) :
    .command (fmt.command.encode (.set key value)) ∈ s.due := by
  rcases (h.backed i (Or.inr hi)).resolve_left hi₀ with ⟨command, hp, hd⟩ | hread
  · obtain ⟨c, hc, rfl⟩ := h.orderly.proposed command i (Or.inr hp)
    obtain rfl : .set key value = c := Option.some.inj (hc.eq hr)
    refine hd fun hempty => ?_
    have hdec := fmt.command.decode_encode (.set key value)
    rw [hempty, hnil] at hdec
    cases hdec
  · cases (h.orderly.reading i (Or.inr hread)).eq hr

/-- A reader that is let through has been to the event loop. -/
theorem Sound.read_of_granted (h : Sound fmt s₀ s) (hj₀ : ¬(s₀.handler j).Granted)
    (hj : (s.handler j).Granted) (hr : (s.handler j).request = some ⟨path, .get key⟩) :
    .read j ∈ s.session.events := by
  rcases (h.backed j (Or.inr hj)).resolve_left hj₀ with ⟨command, hp, -⟩ | hread
  · obtain ⟨c, hc, -⟩ := h.orderly.proposed command j (Or.inr hp)
    cases hc.eq hr
  · exact hread

namespace Written

/-- What has come to the apply task and writes to the key is the command of `i`, or somebody
else writes to it. -/
theorem eq_of_writes (h : Written fmt s₀ i j key value path s)
    (hheld : ∀ command, s₀.session.driver.core.Holds command → fmt.Writes key (.command command) →
      command = fmt.command.encode (.set key value))
    (hc : ¬s.Contended i key) {entry : AppliedEntry} (hm : entry ∈ s.sent)
    (hw : fmt.Writes key entry) : entry = .command (fmt.command.encode (.set key value)) := by
  rcases h.sound.brought entry (List.mem_append_left _ hm) with rfl | ⟨command, rfl, hk | ⟨ch, hp⟩⟩
  · cases hw
  · rw [hheld command hk hw]
  · obtain ⟨c, hwants, rfl⟩ := h.sound.orderly.proposed command ch (Or.inr hp)
    by_cases hch : ch = i
    · subst hch
      obtain rfl : .set key value = c := Option.some.inj (hwants.eq h.asked)
      rfl
    · rw [KvFormat.Writes, fmt.command.decode_encode] at hw
      exact absurd ⟨ch, c, hch, hwants, hw⟩ hc

/-- With no write to the key underway, the store has the value. -/
theorem lookup_store (h : Written fmt s₀ i j key value path s)
    (hheld : ∀ command, s₀.session.driver.core.Holds command → fmt.Writes key (.command command) →
      command = fmt.command.encode (.set key value))
    (hread : .read j ∈ s.session.events) (hdry : ∀ entry ∈ s.underway, ¬fmt.Writes key entry) :
    s.store.lookup key = some value ∨ s.Contended i key := by
  by_cases hc : s.Contended i key
  · exact Or.inr hc
  refine Or.inl ?_
  have hsent := h.read hread
  have hnot : .command (fmt.command.encode (.set key value)) ∉ s.underway := fun hm => by
    refine hdry _ hm ?_
    rw [KvFormat.Writes, fmt.command.decode_encode]
    rfl
  obtain ⟨past, hfold, hall⟩ := h.sound.received
  rcases List.append_eq_append_iff.mp hall with ⟨mid, -, hmid⟩ | ⟨since, rfl, hsince⟩
  · -- the command would be underway
    rw [hmid] at hnot
    exact absurd (List.mem_append_right _ hsent) hnot
  · rw [List.foldlM_append] at hfold
    obtain ⟨store, -, hfold⟩ := Option.bind_eq_some_iff.mp hfold
    have hsub : ∀ {entry}, entry ∈ since → entry ∈ s.sent := fun hm =>
      hsince ▸ List.mem_append_left _ hm
    refine KvFormat.lookup_of_written (fun entry hm data heq => ?_)
      (fun entry hm => h.eq_of_writes hheld hc (hsub hm)) ?_ hfold
    · rcases h.sound.brought entry (List.mem_append_left _ (hsub hm)) with
        rfl | ⟨command, rfl, -⟩ <;>
        cases heq
    · rw [hsince] at hsent
      exact (List.mem_append.mp hsent).resolve_right hnot

theorem move (h : Written fmt s₀ i j key value path s)
    (hheld : ∀ command, s₀.session.driver.core.Holds command → fmt.Writes key (.command command) →
      command = fmt.command.encode (.set key value))
    (hj₀ : ¬(s₀.handler j).Granted) (m : Move fmt httpAddrs s input s')
    (hl' : s'.session.driver.core.state = .leader) (hown : s.Unrivaled input)
    (hdry : s.Drained fmt j key input) : Written fmt s₀ i j key value path s' := by
  refine ⟨h.sound.move m hl' hown, (m.progress i).request h.asked, ?_, ?_, ?_⟩
  · exact m.grows.2 h.due
  · intro hread
    rcases m.turn_or_steady with ⟨e, rnd, -, hidle, hs, -, hsent⟩ | ⟨hs, -, -, hsent⟩
    · rw [hsent, ← due_of_idle hidle]
      exact h.due
    · exact hsent (h.read (hs ▸ hread))
  · intro path' found hret
    have hp := m.progress j
    rw [hret] at hp
    rcases hp.value with hold | ⟨rfl, hold, rfl⟩
    · exact (h.found path' found hold).imp_right fun hc => hc.move m
    · have hread : .read j ∈ s.session.events :=
        h.sound.read_of_granted hj₀ (by rw [hold]; trivial) (by rw [hold]; rfl)
      exact (h.lookup_store hheld hread (hdry rfl)).imp_right fun hc => hc.move m

end Written

/-- On a node that leads all along, a reader finds what a writer was told is written before the
reader came, where no other request writes to the key and this reader reads when no write to
the key is underway. -/
theorem read_your_writes {found : Option Bytes} {path' : String} {s₁ s₂ : KvNode}
    (hnil : fmt.command.decode [] = none) (h₀ : s₀.Opens fmt)
    (hheld : ∀ command, s₀.session.driver.core.Holds command → fmt.Writes key (.command command) →
      command = fmt.command.encode (.set key value))
    (hi₀ : ¬(s₀.handler i).Granted)
    (h₁ : (machine fmt httpAddrs).Run (Reigns fmt httpAddrs) s₀ s₁)
    (hi : s₁.handler i = .returned ⟨path, .set key value⟩ .success)
    (hj : s₁.handler j = .idle)
    (h₂ : (machine fmt httpAddrs).Run (Calm fmt httpAddrs j key) s₁ s₂)
    (hj' : s₂.handler j = .returned ⟨path', .get key⟩ (.value found))
    (honly : ∀ ch request c, (s₂.handler ch).request = some request →
      request.call.command = some c → c.target = some key → ch = i) : found = some value := by
  have hidle : (s₁.handler j).request = none := by
    rw [hj]
    rfl
  have hs₁ : Sound fmt s₀ s₁ ∧ ∀ ch request, (s₀.handler ch).request = some request →
      (s₁.handler ch).request = some request := by
    refine h₁.invariant (P := fun s => Sound fmt s₀ s ∧ ∀ ch request,
      (s₀.handler ch).request = some request → (s.handler ch).request = some request)
      ⟨Sound.init h₀, fun _ _ h => h⟩ fun s input s' hs hok hstep => ?_
    have m := move_of_step hstep
    exact ⟨hs.1.move m (hok.1 s' hstep) hok.2,
      fun ch request hr => (m.progress ch).request (hs.2 ch request hr)⟩
  have hj₀ : ¬(s₀.handler j).Granted := by
    intro hg
    obtain ⟨request, hr⟩ := hg.request
    rw [hs₁.2 j request hr] at hidle
    cases hidle
  have hasked : (s₁.handler i).request = some ⟨path, .set key value⟩ := by
    rw [hi]
    rfl
  have hw₁ : Written fmt s₀ i j key value path s₁ := by
    refine ⟨hs₁.1, hasked, hs₁.1.due_of_granted hnil hi₀ (by rw [hi]; trivial) hasked,
      fun hread => ?_, fun path' found hret => ?_⟩
    · obtain ⟨request, hr, -⟩ := hs₁.1.orderly.reading j (Or.inr hread)
      rw [hidle] at hr
      cases hr
    · rw [hj] at hret
      cases hret
  have hw₂ : Written fmt s₀ i j key value path s₂ :=
    h₂.invariant hw₁ fun s input s' hs hok hstep =>
      hs.move hheld hj₀ (move_of_step hstep) (hok.1.1 s' hstep) hok.1.2 hok.2
  rcases hw₂.found path' found hj' with hfound | ⟨ch, c, hne, ⟨request, hr, hc⟩, ht⟩
  · exact hfound
  · exact absurd (honly ch request c hr hc ht) hne

end written

/-! ## A write and a read -/

/-- The node after some inputs. -/
def after (s : KvNode) (inputs : List KvInput) : KvNode :=
  ((machine KvFormat.postcard ∅).exec s inputs).getD s

theorem run_after {ok : KvNode → KvInput → Prop} {inputs : List KvInput}
    (h : ((machine KvFormat.postcard ∅).exec s inputs).isSome = true)
    (hok : (machine KvFormat.postcard ∅).ExecOk ok s inputs) :
    (machine KvFormat.postcard ∅).Run ok s (s.after inputs) := by
  obtain ⟨s', hs'⟩ := Option.isSome_iff_exists.mp h
  rw [after, hs', Option.getD_some]
  exact Machine.run_of_exec hs' hok

/-- Only one channel has a request that writes to the key. -/
def Alone (s : KvNode) (i : Channel) (key : Bytes) : Prop :=
  ∀ ch ∈ s.handlers.keys,
    ((s.handler ch).request.bind fun request => request.call.command).bind KvCommand.target =
      some key → ch = i

instance (s : KvNode) (i : Channel) (key : Bytes) : Decidable (s.Alone i key) :=
  inferInstanceAs (Decidable (∀ ch ∈ s.handlers.keys, _))

theorem Alone.eq {i : Channel} {key : Bytes} (h : s.Alone i key) {request : KvRequest}
    {c : KvCommand} (hr : (s.handler ch).request = some request)
    (hc : request.call.command = some c) (ht : c.target = some key) : ch = i := by
  refine h ch ?_ ?_
  · by_contra hm
    rw [handler, AList.lookup_eq_none.mpr hm] at hr
    cases hr
  · rw [hr, Option.bind_some, hc, Option.bind_some, ht]

/-- Node 1 of three is elected. -/
def elected : KvNode :=
  (boot (Session.rare.boot 1)).after [.tick 1, .effect, .effect, .effect,
    .message (.requestVoteResponse ⟨2, 1, true⟩) 1, .effect, .effect, .effect]

/-- A client sets a key and is told so. -/
def writing : List KvInput :=
  [.start 5 ⟨"/key", .set [97] [98]⟩, .submit 5, .propose, .effect, .effect, .effect,
    .message (.appendEntriesResponse ⟨2, 1, 2, true, none, none⟩) 1, .effect, .effect, .resume 5]

/-- Another one asks for the key, and is let through when a heartbeat is acknowledged. -/
def asking : List KvInput :=
  [.start 6 ⟨"/key/a", .get [97]⟩, .submit 6, .read, .tick 1, .effect, .effect,
    .message (.appendEntriesResponse ⟨2, 1, 2, true, none, none⟩) 1, .effect]

theorem read_your_writes_applied : ∃ s₀ s₁ s₂ found, s₀.Opens KvFormat.postcard ∧
    (∀ e ∈ s₀.session.driver.core.log, ¬KvFormat.postcard.Writes [97] (.command e.command)) ∧
    s₀.handler 5 = .idle ∧
    (machine KvFormat.postcard ∅).Run (Reigns KvFormat.postcard ∅) s₀ s₁ ∧
    s₁.handler 5 = .returned ⟨"/key", .set [97] [98]⟩ .success ∧ s₁.handler 6 = .idle ∧
    (machine KvFormat.postcard ∅).Run (Calm KvFormat.postcard ∅ 6 [97]) s₁ s₂ ∧
    s₂.handler 6 = .returned ⟨"/key/a", .get [97]⟩ (.value found) ∧ found = some [98] := by
  have hnew : Session.rare.new Storage.empty 1 = some (Session.rare.boot 1) := rfl
  have hrun : (machine KvFormat.postcard ∅).Run (fun _ _ => True) (boot (Session.rare.boot 1))
      elected := run_after (by decide +kernel) (Machine.execOk_true _ _)
  have h₀ := opens_of_run hnew hrun (by decide +kernel) (by decide +kernel)
  have hlog : ∀ e ∈ elected.session.driver.core.log,
      ¬KvFormat.postcard.Writes [97] (.command e.command) := by decide +kernel
  have hi₀ : elected.reopen.handler 5 = .idle := by decide +kernel
  have h₁ : (machine KvFormat.postcard ∅).Run (Reigns KvFormat.postcard ∅) elected.reopen
      (elected.reopen.after writing) :=
    run_after (by decide +kernel) (by decide +kernel)
  have hi : (elected.reopen.after writing).handler 5 =
      .returned ⟨"/key", .set [97] [98]⟩ .success := by decide +kernel
  have hj : (elected.reopen.after writing).handler 6 = .idle := by decide +kernel
  have h₂ : (machine KvFormat.postcard ∅).Run (Calm KvFormat.postcard ∅ 6 [97])
      (elected.reopen.after writing)
      ((elected.reopen.after writing).after (asking ++ [.recv, .apply, .resume 6])) :=
    run_after (by decide +kernel) (by decide +kernel)
  obtain ⟨found, hj'⟩ : ∃ found, ((elected.reopen.after writing).after
      (asking ++ [.recv, .apply, .resume 6])).handler 6 =
      .returned ⟨"/key/a", .get [97]⟩ (.value found) := ⟨some [98], by decide +kernel⟩
  have halone : ((elected.reopen.after writing).after
      (asking ++ [.recv, .apply, .resume 6])).Alone 5 [97] := by decide +kernel
  refine ⟨_, _, _, found, h₀, hlog, hi₀, h₁, hi, hj, h₂, hj', ?_⟩
  refine read_your_writes rfl h₀ (fun command hc hw => ?_) (fun hg => ?_) h₁ hi hj h₂ hj'
    fun ch request c => halone.eq
  · obtain ⟨e, he, rfl⟩ := hc.mem
    exact absurd hw (hlog e he)
  · rw [hi₀] at hg
    exact hg

theorem stale_read_of_lateApply : ∃ s₀ s₁ s₂ : KvNode,
    (machine KvFormat.postcard ∅).Run (fun _ _ => True) (boot (Session.rare.boot 1)) s₀ ∧
    s₀.session.driver.core.state = .leader ∧ s₀.handler 5 = .idle ∧
    (∀ e ∈ s₀.session.driver.core.log, ¬KvFormat.postcard.Writes [97] (.command e.command)) ∧
    (machine KvFormat.postcard ∅).Run (Reigns KvFormat.postcard ∅) s₀ s₁ ∧
    s₁.handler 5 = .returned ⟨"/key", .set [97] [98]⟩ .success ∧ s₁.handler 6 = .idle ∧
    (machine KvFormat.postcard ∅).Run (Reigns KvFormat.postcard ∅) s₁ s₂ ∧
    s₂.handler 6 = .returned ⟨"/key/a", .get [97]⟩ (.value none) ∧
    ∀ ch request c, (s₂.handler ch).request = some request → request.call.command = some c →
      c.target = some [97] → ch = 5 := by
  refine ⟨elected, elected.after writing, (elected.after writing).after (asking ++ [.resume 6]),
    run_after (by decide +kernel) (Machine.execOk_true _ _), by decide +kernel, by decide +kernel,
    by decide +kernel, run_after (by decide +kernel) (by decide +kernel), by decide +kernel,
    by decide +kernel, run_after (by decide +kernel) (by decide +kernel), by decide +kernel, ?_⟩
  have halone : ((elected.after writing).after (asking ++ [.resume 6])).Alone 5 [97] := by
    decide +kernel
  exact fun ch request c => halone.eq

end KvNode

end FerrisFerry
