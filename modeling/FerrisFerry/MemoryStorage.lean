import FerrisFerry.FileStorage

/-!
# Storage in memory

`InMemoryStorage` of `raft-test-utils/src/lib.rs`, the storage the tests run on : the same
frames in buffers that are there from the start. An empty buffer stands for a file that does
not exist, so a log that has been emptied reads as one that was never written, and clearing the
log never fails.

`FileStorage.answers_eq_iff` : a sequence of calls gets the same answers from both storages
exactly if it does not truncate a log that has never been stored to, and does not restore one
that is there and empty.
-/

namespace FerrisFerry

/-! ## The buffers -/

structure InMemoryStorage where
  metadata : Bytes
  logEntries : Bytes
  snapshot : Bytes
deriving DecidableEq

namespace InMemoryStorage

def new : InMemoryStorage := ⟨[], [], []⟩

/-- The position of the frame numbered `startIndex`, if there is one; a panic, `none`, if a
frame ends before its length. -/
def findFrame (startIndex : ℕ) : ℕ → Bytes → Option (Option ℕ)
  | 0, _ => some none
  | fuel + 1, bytes =>
    match Frames.readNat 8 bytes with
    | none => some none
    | some (index, rest) =>
      if index = startIndex then some (some 0)
      else
        match Frames.readNat 4 rest with
        | none => none
        | some (length, rest) =>
          -- the position of a cursor may be set past the end
          (findFrame startIndex fuel (rest.drop length)).map (Option.map (8 + 4 + length + ·))

section calls

variable (P : Postcard) (m : InMemoryStorage)

def getSnapshot : IoResult Snapshot :=
  match P.snapshot.decode m.snapshot with
  | none => .error ⟨.other, "Unable to deserialize"⟩
  | some snapshot => .ok snapshot

def storeMetadata (metadata : PersistedMetadata) : InMemoryStorage :=
  { m with metadata := P.metadata.encode metadata }

def restoreMetadata : IoResult (Option PersistedMetadata) :=
  match P.metadata.decode m.metadata with
  | some metadata => .ok (some metadata)
  | none => if m.metadata = [] then .ok none else .error ⟨.other, "No metadata"⟩

def storeLogEntries (addendum : PersistedLogAddendum) : Option InMemoryStorage := do
  let truncateAt ← findFrame addendum.startIndex m.logEntries.length m.logEntries
  let buf := match truncateAt with
    | some pos => m.logEntries.take pos
    | none => m.logEntries
  let written := FileStorage.writeEntries P.entry.encode addendum.startIndex addendum.entries
  if written.2 then some { m with logEntries := buf ++ written.1 } else none

def restoreLogEntries : IoResult (Option (List LogEntry)) :=
  if m.logEntries = [] then .ok none
  else (FileStorage.readEntries P.entry.decode "Unable to deserialize" m.logEntries.length
    m.logEntries).map some

def storeSnapshot (snapshot : Snapshot) : InMemoryStorage :=
  { m with snapshot := P.snapshot.encode snapshot }

def truncateLog : InMemoryStorage := { m with logEntries := [] }

def retrieveSnapshotBytes : IoResult Bytes :=
  match m.getSnapshot P with
  | .error _ => .error ⟨.other, "Unable to deserialize"⟩
  | .ok snapshot => .ok snapshot.data

def restoreSnapshot : IoResult (Option Snapshot) :=
  if m.snapshot = [] then .ok none
  else
    match m.getSnapshot P with
    | .error _ => .error ⟨.other, "Unable to deserialize"⟩
    | .ok snapshot => .ok (some snapshot)

end calls

end InMemoryStorage

/-! ## Calls and answers -/

/-- A call of the `Storage` trait. -/
inductive StorageCall where
  | storeMetadata (metadata : PersistedMetadata)
  | restoreMetadata
  | storeLogEntries (addendum : PersistedLogAddendum)
  | restoreLogEntries
  | storeSnapshot (snapshot : Snapshot)
  | restoreSnapshot
  | retrieveSnapshotBytes
  | truncateLog
deriving DecidableEq

/-- The entries a call stores. -/
def StorageCall.entries : StorageCall → List LogEntry
  | .storeLogEntries addendum => addendum.entries
  | _ => []

/-- What a call returns if it does not fail. -/
inductive Answer where
  | done
  | metadata (metadata : Option PersistedMetadata)
  | entries (entries : Option (List LogEntry))
  | snapshot (snapshot : Option Snapshot)
  | bytes (bytes : Bytes)
deriving DecidableEq

/-- A call that changes the storage : a failed one leaves it as it is. -/
def FileStorage.update (s : FileStorage) (r : IoResult FileStorage) :
    FileStorage × IoResult Answer :=
  match r with
  | .ok s' => (s', .ok .done)
  | .error e => (s, .error e)

/-- A panic is `none`. -/
def FileStorage.call (P : Postcard) (s : FileStorage) :
    StorageCall → Option (FileStorage × IoResult Answer)
  | .storeMetadata metadata => some (s.update (s.storeMetadata P metadata))
  | .restoreMetadata => some (s, (s.restoreMetadata P).map .metadata)
  | .storeLogEntries addendum => (s.storeLogEntries P addendum).map s.update
  | .restoreLogEntries => some (s, (s.restoreLogEntries P).map .entries)
  | .storeSnapshot snapshot => some (s.update (s.storeSnapshot P snapshot))
  | .restoreSnapshot => some (s, (s.restoreSnapshot P).map .snapshot)
  | .retrieveSnapshotBytes => some (s, (s.retrieveSnapshotBytes P).map .bytes)
  | .truncateLog => some (s.update s.truncateLog)

def InMemoryStorage.call (P : Postcard) (m : InMemoryStorage) :
    StorageCall → Option (InMemoryStorage × IoResult Answer)
  | .storeMetadata metadata => some (m.storeMetadata P metadata, .ok .done)
  | .restoreMetadata => some (m, (m.restoreMetadata P).map .metadata)
  | .storeLogEntries addendum => (m.storeLogEntries P addendum).map (·, .ok .done)
  | .restoreLogEntries => some (m, (m.restoreLogEntries P).map .entries)
  | .storeSnapshot snapshot => some (m.storeSnapshot P snapshot, .ok .done)
  | .restoreSnapshot => some (m, (m.restoreSnapshot P).map .snapshot)
  | .retrieveSnapshotBytes => some (m, (m.retrieveSnapshotBytes P).map .bytes)
  | .truncateLog => some (m.truncateLog, .ok .done)

/-- The answers to a sequence of calls, `Err` without its message; a panic ends them. -/
def FileStorage.answers (P : Postcard) :
    FileStorage → List StorageCall → List (Option (Option Answer))
  | _, [] => []
  | s, c :: calls =>
    match s.call P c with
    | none => [none]
    | some (s', r) => some r.toOption :: answers P s' calls

def InMemoryStorage.answers (P : Postcard) :
    InMemoryStorage → List StorageCall → List (Option (Option Answer))
  | _, [] => []
  | m, c :: calls =>
    match m.call P c with
    | none => [none]
    | some (m', r) => some r.toOption :: answers P m' calls

namespace FileStorage

/-- The calls that tell the two storages apart : a log that is not there is truncated, or one
that is there and empty is restored. -/
def Tells (s : FileStorage) : StorageCall → Prop
  | .truncateLog => s.log = none
  | .restoreLogEntries => s.log = some []
  | _ => False

instance (s : FileStorage) : (c : StorageCall) → Decidable (s.Tells c)
  | .truncateLog => inferInstanceAs (Decidable (s.log = none))
  | .restoreLogEntries => inferInstanceAs (Decidable (s.log = some []))
  | .storeMetadata _ | .restoreMetadata | .storeLogEntries _ | .storeSnapshot _
  | .restoreSnapshot | .retrieveSnapshotBytes => inferInstanceAs (Decidable False)

/-- No call of the sequence tells the storages apart. -/
def Untold (P : Postcard) : FileStorage → List StorageCall → Prop
  | _, [] => True
  | s, c :: calls => ¬s.Tells c ∧
    match s.call P c with
    | none => True
    | some (s', _) => Untold P s' calls

/-! ## The two side by side -/

/-- The buffers hold what the files hold, and the files what the calls have put there. -/
structure Mirrored (P : Postcard) (s : FileStorage) (m : InMemoryStorage) : Prop where
  metadata : m.metadata = s.metadata.getD []
  snapshot : m.snapshot = s.snapshot.getD []
  log : m.logEntries = s.opened
  metadataFile : s.metadata = none ∨ ∃ x, s.metadata = some (P.metadata.encode x)
  snapshotFile : s.snapshot = none ∨ ∃ x, s.snapshot = some (P.snapshot.encode x)
  logFile : ∃ frames, (∀ f ∈ frames, P.Fits f.2) ∧ s.opened = P.logFile frames

variable {P : Postcard} {s : FileStorage} {m : InMemoryStorage}

theorem mirrored_empty (P : Postcard) : Mirrored P empty InMemoryStorage.new :=
  ⟨rfl, rfl, rfl, Or.inl rfl, Or.inl rfl, [], fun _ h => absurd h List.not_mem_nil, rfl⟩

theorem encode_ne_nil {α : Type*} {c : Codec α} (h : c.decode [] = none) (a : α) :
    c.encode a ≠ [] := by
  intro hnil
  have hback := c.decode_encode a
  rw [hnil, h] at hback
  cases hback

/-- The search in memory cuts a whole log file where the search in the file does. -/
theorem findFrame_logFile (startIndex : ℕ) : ∀ {frames : List (ℕ × LogEntry)} {fuel : ℕ},
    (∀ f ∈ frames, P.Fits f.2) → frames.length ≤ fuel →
    ∃ pos, InMemoryStorage.findFrame startIndex fuel (P.logFile frames) = some pos ∧
      (match pos with
        | some pos => (P.logFile frames).take pos
        | none => P.logFile frames) =
        P.logFile (frames.takeWhile fun f => f.1 % 2 ^ 64 ≠ startIndex)
  | [], 0, _, _ => ⟨none, rfl, rfl⟩
  | [], _ + 1, _, _ => ⟨none, rfl, rfl⟩
  | f :: frames, 0, _, h => absurd h (Nat.not_succ_le_zero _)
  | f :: frames, fuel + 1, hf, h => by
    have hfit : (P.entry.encode f.2).length % 256 ^ 4 = (P.entry.encode f.2).length :=
      Nat.mod_eq_of_lt (hf f List.mem_cons_self)
    have hkey : Frames.readNat 8 (P.logFile (f :: frames)) = some (f.1 % 2 ^ 64,
        Frames.bigEndian 4 (P.entry.encode f.2).length ++
          (P.entry.encode f.2 ++ P.logFile frames)) := by
      rw [logFile_cons, Postcard.frame, Frames.frame, List.append_assoc, List.append_assoc,
        Frames.readNat_append]
      rfl
    rw [InMemoryStorage.findFrame, hkey]
    dsimp only
    split_ifs with hi
    · refine ⟨some 0, rfl, ?_⟩
      rw [List.takeWhile_cons_of_neg (by rw [decide_eq_true_eq]; exact not_not.mpr hi)]
      rfl
    · rw [Frames.readNat_append, hfit]
      dsimp only
      rw [List.drop_left]
      obtain ⟨pos, hpos, hcut⟩ := findFrame_logFile startIndex
        (fun g hg => hf g (List.mem_cons_of_mem f hg)) (Nat.le_of_succ_le_succ h)
      rw [hpos, Option.map_some, List.takeWhile_cons_of_pos (by rw [decide_eq_true_eq]; exact hi),
        logFile_cons, logFile_cons, ← hcut]
      cases pos with
      | none => exact ⟨none, rfl, rfl⟩
      | some pos =>
        refine ⟨_, rfl, ?_⟩
        have hlen : (P.frame f.1 f.2).length = 8 + 4 + (P.entry.encode f.2).length :=
          Frames.length_frame
        dsimp only [Option.map_some]
        rw [← hlen, List.take_length_add_append]

namespace Mirrored

variable (h : Mirrored P s m)

include h in
/-- A store of entries : the searches cut alike and the loops write alike, so both panic or
none. -/
theorem storeLogEntries (addendum : PersistedLogAddendum)
    (hes : ∀ e ∈ addendum.entries, P.Fits e) :
    s.storeLogEntries P addendum = none ∧ m.storeLogEntries P addendum = none ∨
      ∃ s' m', s.storeLogEntries P addendum = some (.ok s') ∧
        m.storeLogEntries P addendum = some m' ∧ Mirrored P s' m' := by
  obtain ⟨frames, hf, hframes⟩ := h.logFile
  have hopened : s.opened = P.logFile frames ++ [] := by rw [hframes, List.append_nil]
  have hkept := kept_logFile hopened hf (Frames.readFrame_nil (by decide)) addendum.startIndex
  have hlen : frames.length ≤ m.logEntries.length := by
    rw [h.log, hframes]
    have hle : (frames.map fun f => (f.1, P.entry.encode f.2)).length ≤
        (P.logFile frames).length := Frames.length_le_concat (by decide) _
    rwa [List.length_map] at hle
  obtain ⟨pos, hpos, hcut⟩ := findFrame_logFile addendum.startIndex hf hlen
  rw [← hframes, ← h.log, ← hkept] at hcut
  rw [← hframes, ← h.log] at hpos
  have hmem : m.storeLogEntries P addendum =
      if (writeEntries P.entry.encode addendum.startIndex addendum.entries).2 then
        some { m with logEntries := s.kept addendum.startIndex ++
          (writeEntries P.entry.encode addendum.startIndex addendum.entries).1 }
      else none := by
    rw [InMemoryStorage.storeLogEntries, hpos, ← hcut]
    rfl
  rw [hmem, FileStorage.storeLogEntries]
  split_ifs with hw
  · obtain ⟨k, hbytes, -⟩ := exists_writeEntries P addendum.startIndex addendum.entries
    refine Or.inr ⟨_, _, rfl, rfl, h.metadata, h.snapshot, rfl, h.metadataFile, h.snapshotFile,
      (frames.takeWhile fun f => f.1 % 2 ^ 64 ≠ addendum.startIndex) ++
        number addendum.startIndex (addendum.entries.take k), ?_, ?_⟩
    · intro f hm
      rcases List.mem_append.mp hm with hm | hm
      · exact hf f (List.takeWhile_subset _ hm)
      · exact hes f.2 (List.mem_of_mem_take (mem_number hm).2.2)
    · change s.kept addendum.startIndex ++ _ = _
      rw [hkept, logFile_append, hbytes]
  · exact Or.inl ⟨rfl, rfl⟩

include h in
/-- A restore of the log. -/
theorem restoreLogEntries :
    (s.restoreLogEntries P).toOption = (m.restoreLogEntries P).toOption ↔ s.log ≠ some [] := by
  obtain ⟨frames, hf, hframes⟩ := h.logFile
  have hlog := h.log
  rw [opened] at hlog
  rw [InMemoryStorage.restoreLogEntries, FileStorage.restoreLogEntries, hlog]
  cases hs : s.log with
  | none => simp
  | some bytes =>
    dsimp only [Option.getD_some]
    rw [opened, hs] at hframes
    cases bytes with
    | nil =>
      rw [if_pos rfl]
      exact iff_of_false (fun hc => by cases hc) fun hne => hne rfl
    | cons b bytes =>
      refine iff_of_true ?_ (by simp)
      rw [if_neg (by simp)]
      have hnil : Frames.readFrame 8 4 [] = none := Frames.readFrame_nil (by decide)
      have hparse := parse_logFile hf hnil
      rw [List.append_nil, ← hframes, Option.getD_some] at hparse
      have hback : (Frames.parse 8 4 (b :: bytes).length (b :: bytes)).map
          (fun f => P.entry.decode f.2) = (frames.map Prod.snd).map some := by
        rw [hparse, List.map_map, List.map_map]
        exact List.map_congr_left fun f _ => P.entry.decode_encode f.2
      rw [readEntries_eq hback, readEntries_eq hback]

include h in
theorem restoreMetadata (hm : P.metadata.decode [] = none) :
    s.restoreMetadata P = m.restoreMetadata P := by
  rw [FileStorage.restoreMetadata, InMemoryStorage.restoreMetadata, h.metadata]
  rcases h.metadataFile with hnone | ⟨x, hx⟩
  · rw [hnone, Option.getD_none, hm]
    rfl
  · rw [hx, Option.getD_some, P.metadata.decode_encode, readType, P.metadata.decode_encode]

include h in
theorem restoreSnapshot (hs : P.snapshot.decode [] = none) :
    s.restoreSnapshot P = m.restoreSnapshot P := by
  rw [FileStorage.restoreSnapshot, InMemoryStorage.restoreSnapshot, InMemoryStorage.getSnapshot,
    h.snapshot]
  rcases h.snapshotFile with hnone | ⟨x, hx⟩
  · rw [hnone, Option.getD_none, if_pos rfl]
    rfl
  · rw [hx, Option.getD_some, if_neg (encode_ne_nil hs x), P.snapshot.decode_encode, readType,
      P.snapshot.decode_encode]

include h in
theorem retrieveSnapshotBytes (hs : P.snapshot.decode [] = none) :
    (s.retrieveSnapshotBytes P).toOption = (m.retrieveSnapshotBytes P).toOption := by
  rw [FileStorage.retrieveSnapshotBytes, FileStorage.restoreSnapshot,
    InMemoryStorage.retrieveSnapshotBytes, InMemoryStorage.getSnapshot, h.snapshot]
  rcases h.snapshotFile with hnone | ⟨x, hx⟩
  · rw [hnone, Option.getD_none, hs]
    rfl
  · rw [hx, Option.getD_some, P.snapshot.decode_encode, readType, P.snapshot.decode_encode]
    rfl

theorem toOption_map {α β : Type*} (f : α → β) (r : IoResult α) :
    (r.map f).toOption = r.toOption.map f := by
  cases r <;> rfl

include h in
/-- A call ends both storages in a panic, or it keeps the two side by side and they answer it
alike unless it tells them apart. -/
theorem call (hm : P.metadata.decode [] = none) (hs : P.snapshot.decode [] = none)
    {c : StorageCall} (hes : ∀ e ∈ c.entries, P.Fits e) :
    s.call P c = none ∧ m.call P c = none ∧ ¬s.Tells c ∨
      ∃ s' r m' r', s.call P c = some (s', r) ∧ m.call P c = some (m', r') ∧ Mirrored P s' m' ∧
        (r.toOption = r'.toOption ↔ ¬s.Tells c) := by
  cases c with
  | storeMetadata metadata =>
    exact Or.inr ⟨_, _, _, _, rfl, rfl, ⟨rfl, h.snapshot, h.log, Or.inr ⟨metadata, rfl⟩,
      h.snapshotFile, h.logFile⟩, iff_of_true rfl id⟩
  | restoreMetadata =>
    refine Or.inr ⟨_, _, _, _, rfl, rfl, h, iff_of_true ?_ id⟩
    rw [h.restoreMetadata hm]
  | storeLogEntries addendum =>
    rw [FileStorage.call, InMemoryStorage.call]
    rcases h.storeLogEntries addendum hes with ⟨hfile, hmem⟩ | ⟨s', m', hfile, hmem, hmirror⟩
    · rw [hfile, hmem]
      exact Or.inl ⟨rfl, rfl, id⟩
    · rw [hfile, hmem]
      exact Or.inr ⟨_, _, _, _, rfl, rfl, hmirror, iff_of_true rfl id⟩
  | restoreLogEntries =>
    refine Or.inr ⟨_, _, _, _, rfl, rfl, h, ?_⟩
    rw [toOption_map, toOption_map, (Option.map_injective fun _ _ => Answer.entries.inj).eq_iff,
      h.restoreLogEntries]
    rfl
  | storeSnapshot snapshot =>
    exact Or.inr ⟨_, _, _, _, rfl, rfl, ⟨h.metadata, rfl, h.log, h.metadataFile,
      Or.inr ⟨snapshot, rfl⟩, h.logFile⟩, iff_of_true rfl id⟩
  | restoreSnapshot =>
    refine Or.inr ⟨_, _, _, _, rfl, rfl, h, iff_of_true ?_ id⟩
    rw [h.restoreSnapshot hs]
  | retrieveSnapshotBytes =>
    refine Or.inr ⟨_, _, _, _, rfl, rfl, h, iff_of_true ?_ id⟩
    rw [toOption_map, toOption_map, h.retrieveSnapshotBytes hs]
  | truncateLog =>
    refine Or.inr ⟨_, _, _, _, rfl, rfl, ?_⟩
    rw [FileStorage.truncateLog]
    have hnil : ∃ frames : List (ℕ × LogEntry), (∀ f ∈ frames, P.Fits f.2) ∧
        ([] : Bytes) = P.logFile frames := ⟨[], fun _ h => absurd h List.not_mem_nil, rfl⟩
    cases hl : s.log with
    | none =>
      have hopened : s.opened = [] := by rw [opened, hl, Option.getD_none]
      refine ⟨⟨h.metadata, h.snapshot, hopened.symm, h.metadataFile, h.snapshotFile, ?_⟩, ?_⟩
      · change ∃ frames, _ ∧ s.opened = P.logFile frames
        rwa [hopened]
      · exact iff_of_false (fun hc => by cases hc) fun hn => hn hl
    | some bytes =>
      refine ⟨⟨h.metadata, h.snapshot, rfl, h.metadataFile, h.snapshotFile, hnil⟩, ?_⟩
      refine iff_of_true rfl fun ht => ?_
      rw [Tells, hl] at ht
      cases ht

end Mirrored

/-- The storage of the tests answers a sequence of calls as the files do, from the start on,
exactly if no call of the sequence truncates a log that is not there or restores one that is
empty. -/
theorem answers_eq_iff (hm : P.metadata.decode [] = none) (hs : P.snapshot.decode [] = none)
    {calls : List StorageCall} (hes : ∀ c ∈ calls, ∀ e ∈ c.entries, P.Fits e) :
    empty.answers P calls = InMemoryStorage.new.answers P calls ↔ empty.Untold P calls := by
  have hrel := mirrored_empty P
  generalize empty = s at hrel
  generalize InMemoryStorage.new = m at hrel
  induction calls generalizing s m with
  | nil => exact iff_of_true rfl trivial
  | cons c calls ih =>
    rw [answers, InMemoryStorage.answers, Untold]
    rcases hrel.call hm hs (hes c List.mem_cons_self) with
      ⟨hfile, hmem, htold⟩ | ⟨s', r, m', r', hfile, hmem, hmirror, hiff⟩
    · rw [hfile, hmem]
      exact iff_of_true rfl ⟨htold, trivial⟩
    · have hrest : s'.answers P calls = m'.answers P calls ↔ s'.Untold P calls :=
        ih (fun c hc => hes c (List.mem_cons_of_mem _ hc)) s' m' hmirror
      rw [hfile, hmem, ← hiff]
      dsimp only
      rw [← hrest, List.cons.injEq, Option.some.injEq]

/-- A first start, two entries and a look at them, in both storages. -/
theorem answers_eq_iff_firstStart :
    empty.answers Postcard.format [.restoreLogEntries, .storeMetadata ⟨1, none⟩,
        .storeLogEntries ⟨1, [⟨1, []⟩, ⟨1, [7]⟩]⟩, .restoreLogEntries, .retrieveSnapshotBytes] =
      InMemoryStorage.new.answers Postcard.format [.restoreLogEntries, .storeMetadata ⟨1, none⟩,
        .storeLogEntries ⟨1, [⟨1, []⟩, ⟨1, [7]⟩]⟩, .restoreLogEntries, .retrieveSnapshotBytes] :=
  (answers_eq_iff rfl rfl (by decide)).mpr ⟨by decide, by decide, by decide, by decide, by decide,
    trivial⟩

/-- A log that is emptied and restored : `Some` of an empty list from the files, `None` from
memory. -/
theorem answers_differ :
    ¬∀ (P : Postcard) (calls : List StorageCall), P.metadata.decode [] = none →
      P.snapshot.decode [] = none → (∀ c ∈ calls, ∀ e ∈ c.entries, P.Fits e) →
      empty.answers P calls = InMemoryStorage.new.answers P calls := by
  intro hall
  have h := hall Postcard.format [.storeLogEntries ⟨1, [⟨1, []⟩]⟩, .truncateLog, .restoreLogEntries]
    rfl rfl (by decide)
  revert h
  decide

end FileStorage

end FerrisFerry
