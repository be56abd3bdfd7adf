import FerrisFerry.Cluster

/-!
# Durable storage

A `Storage` as its trait documents it : the metadata and the snapshot are replaced as a
whole, the log is a sequence of frames, each an entry with its logical index. A store of
entries cuts the log at the frame with its start index, or nowhere, and appends.

The log is read back by position : `restore_log_entries` drops the indices. The frames are
`Storage.Aligned` when they are numbered from the index after the snapshot, which is where
`RaftDriver::new` puts them. Then the storage amounts to a `Mirror` (`Storage.image`).
-/

namespace FerrisFerry

/-- Frames numbered from `start`. -/
def number (start : ℕ) : List LogEntry → List (ℕ × LogEntry)
  | [] => []
  | e :: entries => (start, e) :: number (start + 1) entries

structure Storage where
  metadata : Option PersistedMetadata
  /-- The frames of the log file, `none` before there is one. -/
  log : Option (List (ℕ × LogEntry))
  snapshot : Option Snapshot

inductive StorageOp where
  | storeMetadata (metadata : PersistedMetadata)
  | storeLogEntries (addendum : PersistedLogAddendum)
  | storeSnapshot (snapshot : Snapshot)
  | truncateLog
deriving DecidableEq

namespace Storage

def empty : Storage := ⟨none, none, none⟩

def frames (s : Storage) : List (ℕ × LogEntry) :=
  s.log.getD []

def exec (s : Storage) : StorageOp → Storage
  | .storeMetadata metadata => { s with metadata := some metadata }
  | .storeLogEntries addendum =>
    { s with log := some (s.frames.takeWhile (fun frame => frame.1 ≠ addendum.startIndex) ++
        number addendum.startIndex addendum.entries) }
  | .storeSnapshot snapshot => { s with snapshot := some snapshot }
  | .truncateLog => { s with log := some [] }

def restoreLogEntries (s : Storage) : Option (List LogEntry) :=
  s.log.map (List.map Prod.snd)

def retrieveSnapshotBytes (s : Storage) : Option Bytes :=
  s.snapshot.map Snapshot.data

/-- The entry persisted for a logical index. -/
def entryFor (s : Storage) (index : ℕ) : Option LogEntry :=
  (s.frames.find? fun frame => frame.1 = index).map Prod.snd

/-- What the stored files amount to when the log is read back by position. -/
def image (s : Storage) : Mirror where
  term := s.metadata.elim 0 PersistedMetadata.term
  votedFor := s.metadata.elim none PersistedMetadata.votedFor
  lastIncludedIndex := s.snapshot.elim 0 Snapshot.lastIncludedIndex
  lastIncludedTerm := s.snapshot.elim 0 Snapshot.lastIncludedTerm
  snapshot := s.retrieveSnapshotBytes
  log := s.frames.map Prod.snd

/-- The frames are numbered from the index after the snapshot, a snapshot or an entry comes
with metadata and a snapshot with a log file. -/
structure Aligned (s : Storage) : Prop where
  frames : s.frames = number (s.image.lastIncludedIndex + 1) s.image.log
  fresh : s.metadata = none → s.frames = [] ∧ s.snapshot = none
  log : s.snapshot.isSome → s.log.isSome

end Storage

/-! ## Numbered frames -/

theorem number_append (start : ℕ) (es es' : List LogEntry) :
    number start (es ++ es') = number start es ++ number (start + es.length) es' := by
  induction es generalizing start with
  | nil => rfl
  | cons e es ih =>
    rw [List.cons_append, number, ih, number, List.cons_append, List.length_cons,
      Nat.add_right_comm, Nat.add_assoc]

@[simp] theorem map_snd_number (start : ℕ) (es : List LogEntry) :
    (number start es).map Prod.snd = es := by
  induction es generalizing start with
  | nil => rfl
  | cons e es ih => rw [number, List.map_cons, ih]

/-- Cutting numbered frames at an index. -/
theorem takeWhile_number {start i : ℕ} (h : start ≤ i) (es : List LogEntry) :
    (number start es).takeWhile (fun frame => frame.1 ≠ i) =
      number start (es.take (i - start)) := by
  induction es generalizing start with
  | nil => simp [number]
  | cons e es ih =>
    rcases h.eq_or_lt with rfl | hlt
    · simp [number]
    · obtain ⟨k, hk⟩ : ∃ k, i - start = k + 1 := ⟨i - start - 1, by omega⟩
      have hk' : i - (start + 1) = k := by omega
      rw [hk, List.take_succ_cons, number, number,
        List.takeWhile_cons_of_pos (by simpa using hlt.ne), ih hlt, hk']

theorem find?_number {start : ℕ} (es : List LogEntry) (k : ℕ) :
    ((number start es).find? fun frame => frame.1 = start + k).map Prod.snd = es[k]? := by
  induction es generalizing start k with
  | nil => rfl
  | cons e es ih =>
    cases k with
    | zero => simp [number]
    | succ k =>
      rw [number, List.find?_cons_of_neg (by simp), List.getElem?_cons_succ, ← ih k,
        Nat.add_right_comm, Nat.add_assoc]

/-! ## Operations on aligned storage -/

namespace Storage

variable {s : Storage}

theorem aligned_empty : Storage.empty.Aligned :=
  ⟨rfl, fun _ => ⟨rfl, rfl⟩, nofun⟩

/-- The entry persisted for an index is where it is read back. -/
theorem Aligned.entryFor (h : s.Aligned) {i : ℕ} (hi : s.image.lastIncludedIndex < i) :
    s.entryFor i = s.image.log[i - s.image.lastIncludedIndex - 1]? := by
  obtain ⟨k, rfl⟩ : ∃ k, i = s.image.lastIncludedIndex + 1 + k :=
    ⟨i - s.image.lastIncludedIndex - 1, by omega⟩
  rw [Storage.entryFor, h.frames, find?_number]
  congr 1
  omega

theorem Aligned.storeMetadata (h : s.Aligned) (metadata : PersistedMetadata) :
    (s.exec (.storeMetadata metadata)).Aligned ∧
      (s.exec (.storeMetadata metadata)).image =
        s.image.apply (.persistMetadata metadata.term metadata.votedFor) :=
  ⟨⟨h.frames, nofun, h.log⟩, rfl⟩

/-- A store inside or right after the log. -/
theorem Aligned.storeLogEntries (h : s.Aligned) {start : ℕ} (es : List LogEntry)
    (hm : s.metadata ≠ none) (hlo : s.image.lastIncludedIndex < start)
    (hhi : start ≤ s.image.lastIncludedIndex + s.image.log.length + 1) :
    (s.exec (.storeLogEntries ⟨start, es⟩)).Aligned ∧
      (s.exec (.storeLogEntries ⟨start, es⟩)).image =
        s.image.apply (.persistLogEntries start es) := by
  have hframes : (s.exec (.storeLogEntries ⟨start, es⟩)).frames =
      number (s.image.lastIncludedIndex + 1)
        (s.image.log.take (start - s.image.lastIncludedIndex - 1) ++ es) := by
    change s.frames.takeWhile (fun frame => frame.1 ≠ start) ++ number start es = _
    rw [number_append, h.frames, takeWhile_number hlo, List.length_take, Nat.sub_sub]
    congr 2
    omega
  have himage : (s.exec (.storeLogEntries ⟨start, es⟩)).image =
      s.image.apply (.persistLogEntries start es) := by
    rw [Mirror.apply, ← map_snd_number (s.image.lastIncludedIndex + 1)
      (s.image.log.take (start - s.image.lastIncludedIndex - 1) ++ es), ← hframes]
    rfl
  refine ⟨⟨?_, fun h => absurd h hm, fun _ => rfl⟩, himage⟩
  rw [himage, hframes]
  rfl

/-- A snapshot and an empty log. -/
theorem aligned_snapshot (hm : s.metadata ≠ none) (snapshot : Snapshot) :
    ((s.exec (.storeSnapshot snapshot)).exec .truncateLog).Aligned ∧
      ((s.exec (.storeSnapshot snapshot)).exec .truncateLog).image =
        s.image.apply (.installSnapshot snapshot.lastIncludedIndex snapshot.lastIncludedTerm
          snapshot.data) :=
  ⟨⟨rfl, fun h => absurd h hm, fun _ => rfl⟩, rfl⟩

end Storage

end FerrisFerry
