import FerrisFerry.Frames
import FerrisFerry.Storage
import FerrisFerry.Wire

/-!
# Storage in files

`FileStorage` of `raft-file-storage/src/lib.rs`, byte by byte : three files, each of which may
not exist yet. The metadata and the snapshot are serialized as a whole and moved into place;
the log is a sequence of frames, each with the index of its entry (`u64`), the length of the
serialized entry (`u32`) and the entry. Overflow checks are on : a store of entries counts its
index up behind every frame and panics behind the one numbered `2^64 - 1`, before the writer is
flushed. A length is cast to its `u32`, which keeps it modulo `2^32`. The file system does not
fail; what is left of errors is a missing file and bytes that do not deserialize.

`postcard` is a parameter : a codec for each of the three types. `Postcard.format` is one that
follows the format on natural numbers.

A store of entries looks for the frame to overwrite, cuts the file there and writes. Frames in
front of a torn one are found, and a store returns exactly if the index behind its last entry
is a `u64` (`FileStorage.store_restore_torn`). What is cut is gone until it has been written
again (`FileStorage.interrupted_keeps_iff`).
-/

namespace FerrisFerry

/-- The serialization of what is stored. -/
structure Postcard where
  metadata : Codec PersistedMetadata
  entry : Codec LogEntry
  snapshot : Codec Snapshot

namespace Postcard

/-- The postcard format. -/
def format : Postcard where
  metadata := ((Wire.varint.pair Wire.varint.option).record (fun x => ⟨x.1, x.2⟩)
    (fun m => (m.term, m.votedFor)) fun _ => rfl).codec
  entry := ((Wire.varint.pair Wire.bytes).record (fun x => ⟨x.1, x.2⟩)
    (fun e => (e.term, e.command)) fun _ => rfl).codec
  snapshot := ((Wire.varint.pair (Wire.varint.pair Wire.bytes)).record
    (fun x => ⟨x.1, x.2.1, x.2.2⟩)
    (fun s => (s.lastIncludedIndex, s.lastIncludedTerm, s.data)) fun _ => rfl).codec

variable (P : Postcard)

/-- The length of a serialized entry fits into its field. -/
def Fits (e : LogEntry) : Prop :=
  (P.entry.encode e).length < 2 ^ 32

instance (e : LogEntry) : Decidable (P.Fits e) :=
  inferInstanceAs (Decidable (_ < _))

/-- A log file of numbered entries. -/
def logFile (frames : List (ℕ × LogEntry)) : Bytes :=
  Frames.concat 8 4 (frames.map fun f => (f.1, P.entry.encode f.2))

/-- The frame of one entry. -/
def frame (index : ℕ) (e : LogEntry) : Bytes :=
  Frames.frame 8 4 index (P.entry.encode e)

end Postcard

inductive ErrorKind where
  | notFound
  | other
deriving DecidableEq, Repr

/-- `std::io::Error`. -/
structure IoError where
  kind : ErrorKind
  message : String
deriving DecidableEq, Repr

/-- `std::io::Result`. -/
abbrev IoResult (α : Type*) := Except IoError α

/-- What `open` answers for a file that is not there. -/
def fileNotFound : IoError := ⟨.notFound, "No such file or directory"⟩

/-- The directory : the files `metadata`, `log` and `snapshot`. -/
structure FileStorage where
  metadata : Option Bytes
  log : Option Bytes
  snapshot : Option Bytes
deriving DecidableEq

namespace FileStorage

def empty : FileStorage := ⟨none, none, none⟩

/-- A file replaced as a whole : written beside it, synced and renamed. -/
def atomicSerialize {α : Type*} (c : Codec α) (data : α) : Option Bytes :=
  some (c.encode data)

def readType {α : Type*} (c : Codec α) (file : Option Bytes) : IoResult (Option α) :=
  match file with
  | none => .ok none
  | some data =>
    match c.decode data with
    | none => .error ⟨.other, "Error deserializing data"⟩
    | some value => .ok (some value)

/-- The position of the first frame that is numbered `startIndex`, torn or not there. -/
def truncateAt (startIndex : ℕ) : ℕ → Bytes → ℕ
  | 0, _ => 0
  | fuel + 1, bytes =>
    match Frames.readNat 8 bytes with
    | none => 0
    | some (index, rest) =>
      if index = startIndex then 0
      else
        match Frames.readNat 4 rest with
        | none => 0
        | some (length, rest) =>
          match Frames.readExact length rest with
          | none => 0
          | some (_, rest) => 8 + 4 + length + truncateAt startIndex fuel rest

/-- The entries of the complete frames. -/
def readEntries (decode : Bytes → Option LogEntry) (message : String) :
    ℕ → Bytes → IoResult (List LogEntry)
  | 0, _ => .ok []
  | fuel + 1, bytes =>
    match Frames.readNat 8 bytes with
    | none => .ok []
    | some (_, rest) =>
      match Frames.readNat 4 rest with
      | none => .ok []
      | some (length, rest) =>
        match Frames.readExact length rest with
        | none => .ok []
        | some (buf, rest) =>
          match decode buf with
          | none => .error ⟨.other, message⟩
          | some entry => (readEntries decode message fuel rest).map (entry :: ·)

/-- `n + 1` on a `u64`, a panic on overflow. -/
def checkedSucc (n : ℕ) : Option ℕ :=
  if n + 1 < 2 ^ 64 then some (n + 1) else none

/-- The loop over new entries, numbered from `index` : what it hands to the writer, and whether
it comes to its end. The index is counted up behind the last entry as well. -/
def writeEntries (encode : LogEntry → Bytes) : ℕ → List LogEntry → Bytes × Bool
  | _, [] => ([], true)
  | index, entry :: entries =>
    let frame :=
      Frames.bigEndian 8 index ++ Frames.bigEndian 4 (encode entry).length ++ encode entry
    match checkedSucc index with
    | none => (frame, false)
    | some index =>
      (frame ++ (writeEntries encode index entries).1, (writeEntries encode index entries).2)

section calls

variable (P : Postcard) (s : FileStorage)

def storeMetadata (metadata : PersistedMetadata) : IoResult FileStorage :=
  .ok { s with metadata := atomicSerialize P.metadata metadata }

def restoreMetadata : IoResult (Option PersistedMetadata) :=
  readType P.metadata s.metadata

/-- The log file as it is opened for a store : created if it is not there. -/
def opened : Bytes := s.log.getD []

/-- The log file after `set_len`. -/
def kept (startIndex : ℕ) : Bytes :=
  s.opened.take (truncateAt startIndex s.opened.length s.opened)

/-- A panic is `none`. -/
def storeLogEntries (addendum : PersistedLogAddendum) : Option (IoResult FileStorage) :=
  let written := writeEntries P.entry.encode addendum.startIndex addendum.entries
  if written.2 then some (.ok { s with log := some (s.kept addendum.startIndex ++ written.1) })
  else none

/-- The files when a store of entries is interrupted, by a crash or by its own panic : in front
of `set_len`, or behind it with the first bytes written. -/
def interrupted (addendum : PersistedLogAddendum) : Option ℕ → FileStorage
  | none => { s with log := some s.opened }
  | some written => { s with log := some (s.kept addendum.startIndex ++
    (writeEntries P.entry.encode addendum.startIndex addendum.entries).1.take written) }

def restoreLogEntries : IoResult (Option (List LogEntry)) :=
  match s.log with
  | none => .ok none
  | some bytes =>
    (readEntries P.entry.decode "Deserialization error on LogEntry" bytes.length bytes).map some

def storeSnapshot (snapshot : Snapshot) : IoResult FileStorage :=
  .ok { s with snapshot := atomicSerialize P.snapshot snapshot }

def restoreSnapshot : IoResult (Option Snapshot) :=
  readType P.snapshot s.snapshot

def retrieveSnapshotBytes : IoResult Bytes := do
  match ← s.restoreSnapshot P with
  | none => .error ⟨.notFound, "Snapshot not found"⟩
  | some snapshot => .ok snapshot.data

/-- The log file is opened for truncation and not created. -/
def truncateLog : IoResult FileStorage :=
  match s.log with
  | none => .error fileNotFound
  | some _ => .ok { s with log := some [] }

end calls

/-! ## The loops over the log file -/

variable {P : Postcard} {s : FileStorage} {frames : List (ℕ × LogEntry)} {torn : Bytes}

theorem length_of_readExact {n : ℕ} {bytes body rest : Bytes}
    (h : Frames.readExact n bytes = some (body, rest)) : body.length = n := by
  unfold Frames.readExact at h
  split_ifs at h with hle
  obtain ⟨rfl, -⟩ := Prod.mk.inj (Option.some.inj h)
  rw [List.length_take, min_eq_left hle]

/-- One turn of the search for the frame to overwrite. It does not matter whether that frame is
complete. -/
theorem truncateAt_succ (startIndex fuel : ℕ) (bytes : Bytes) :
    truncateAt startIndex (fuel + 1) bytes =
      match Frames.readFrame 8 4 bytes with
      | none => 0
      | some (f, rest) =>
        if f.1 = startIndex then 0
        else (Frames.frame 8 4 f.1 f.2).length + truncateAt startIndex fuel rest := by
  rw [truncateAt, Frames.readFrame]
  cases Frames.readNat 8 bytes with
  | none => rfl
  | some r =>
    obtain ⟨index, rest⟩ := r
    dsimp only
    cases Frames.readNat 4 rest with
    | none => exact ite_self 0
    | some r =>
      obtain ⟨length, rest⟩ := r
      dsimp only
      cases hb : Frames.readExact length rest with
      | none => exact ite_self 0
      | some r =>
        dsimp only
        rw [Frames.length_frame, length_of_readExact hb]

/-- One turn of the loop that reads the entries. -/
theorem readEntries_succ (decode : Bytes → Option LogEntry) (message : String) (fuel : ℕ)
    (bytes : Bytes) :
    readEntries decode message (fuel + 1) bytes =
      match Frames.readFrame 8 4 bytes with
      | none => .ok []
      | some (f, rest) =>
        match decode f.2 with
        | none => .error ⟨.other, message⟩
        | some entry => (readEntries decode message fuel rest).map (entry :: ·) := by
  rw [readEntries, Frames.readFrame]
  cases Frames.readNat 8 bytes with
  | none => rfl
  | some r =>
    dsimp only
    cases Frames.readNat 4 r.2 with
    | none => rfl
    | some r =>
      dsimp only
      cases Frames.readExact r.1 r.2 with
      | none => rfl
      | some r => rfl

/-- The frame to overwrite is looked for among the complete frames. -/
theorem truncateAt_eq (startIndex : ℕ) : ∀ fuel bytes, truncateAt startIndex fuel bytes =
    (Frames.concat 8 4 ((Frames.parse 8 4 fuel bytes).takeWhile fun f => f.1 ≠ startIndex)).length
  | 0, _ => rfl
  | fuel + 1, bytes => by
    rw [truncateAt_succ, Frames.parse]
    cases Frames.readFrame 8 4 bytes with
    | none => rfl
    | some r =>
      dsimp only
      split_ifs with hi
      · rw [List.takeWhile_cons_of_neg (by simp [hi])]
        rfl
      · rw [List.takeWhile_cons_of_pos (by simp [hi]), Frames.concat, List.length_append,
          truncateAt_eq startIndex fuel]

/-- The entries are those of the complete frames, if all of them deserialize. -/
theorem readEntries_eq {decode : Bytes → Option LogEntry} {message : String} :
    ∀ {fuel : ℕ} {bytes : Bytes} {entries : List LogEntry},
      (Frames.parse 8 4 fuel bytes).map (fun f => decode f.2) = entries.map some →
      readEntries decode message fuel bytes = .ok entries
  | 0, _, entries, h => by
    obtain rfl : entries = [] := by simpa [Frames.parse] using h.symm
    rfl
  | fuel + 1, bytes, entries, h => by
    rw [Frames.parse] at h
    rw [readEntries_succ]
    cases hr : Frames.readFrame 8 4 bytes with
    | none =>
      rw [hr] at h
      obtain rfl : entries = [] := by simpa using h.symm
      rfl
    | some r =>
      rw [hr] at h
      dsimp only at h ⊢
      cases entries with
      | nil => simp at h
      | cons entry entries =>
        rw [List.map_cons, List.map_cons] at h
        obtain ⟨hd, ht⟩ := List.cons.inj h
        rw [hd]
        dsimp only
        rw [readEntries_eq ht]
        rfl

theorem checkedSucc_of_lt {n : ℕ} (h : n + 1 < 2 ^ 64) : checkedSucc n = some (n + 1) :=
  if_pos h

theorem checkedSucc_of_ge {n : ℕ} (h : 2 ^ 64 ≤ n + 1) : checkedSucc n = none :=
  if_neg (Nat.not_lt.mpr h)

/-- The loop that writes comes to its end exactly if the index behind the last entry is a `u64`. -/
theorem writeEntries_snd (encode : LogEntry → Bytes) (index : ℕ) (entries : List LogEntry) :
    (writeEntries encode index entries).2 = true ↔
      entries = [] ∨ index + entries.length < 2 ^ 64 := by
  induction entries generalizing index with
  | nil => exact iff_of_true rfl (Or.inl rfl)
  | cons e entries ih =>
    rw [writeEntries, List.length_cons]
    rcases Nat.lt_or_ge (index + 1) (2 ^ 64) with hlt | hge
    · rw [checkedSucc_of_lt hlt]
      dsimp only
      rw [ih]
      constructor
      · rintro (rfl | h)
        · exact Or.inr hlt
        · exact Or.inr (by omega)
      · rintro (h | h)
        · cases h
        · exact Or.inr (by omega)
    · rw [checkedSucc_of_ge hge]
      refine iff_of_false Bool.false_ne_true ?_
      rintro (h | h)
      · cases h
      · omega

/-! ## Files of entries -/

theorem logFile_cons (P : Postcard) (f : ℕ × LogEntry) (frames : List (ℕ × LogEntry)) :
    P.logFile (f :: frames) = P.frame f.1 f.2 ++ P.logFile frames := rfl

theorem logFile_append (P : Postcard) (frames frames' : List (ℕ × LogEntry)) :
    P.logFile (frames ++ frames') = P.logFile frames ++ P.logFile frames' := by
  rw [Postcard.logFile, List.map_append, Frames.concat_append]
  rfl

/-- What is written are frames of the first entries, of all of them if the loop comes to its
end. -/
theorem exists_writeEntries (P : Postcard) (index : ℕ) (entries : List LogEntry) :
    ∃ m, (writeEntries P.entry.encode index entries).1 = P.logFile (number index (entries.take m)) ∧
      ((writeEntries P.entry.encode index entries).2 = true → entries.take m = entries) := by
  induction entries generalizing index with
  | nil => exact ⟨0, rfl, fun _ => rfl⟩
  | cons e entries ih =>
    rw [writeEntries]
    rcases Nat.lt_or_ge (index + 1) (2 ^ 64) with hlt | hge
    · obtain ⟨m, hbytes, hall⟩ := ih (index + 1)
      rw [checkedSucc_of_lt hlt]
      refine ⟨m + 1, ?_, fun h => ?_⟩
      · dsimp only
        rw [hbytes, List.take_succ_cons, number, logFile_cons]
        rfl
      · rw [List.take_succ_cons, hall h]
    · rw [checkedSucc_of_ge hge]
      refine ⟨1, ?_, fun h => absurd h Bool.false_ne_true⟩
      rw [List.take_succ_cons, List.take_zero, number, number, logFile_cons]
      exact (List.append_nil _).symm

/-- A store of entries returns exactly if the index behind the last one is a `u64`, and has
then written all of them. -/
theorem storeLogEntries_eq_some {addendum : PersistedLogAddendum} {r : IoResult FileStorage} :
    s.storeLogEntries P addendum = some r ↔
      (addendum.entries = [] ∨ addendum.startIndex + addendum.entries.length < 2 ^ 64) ∧
      r = .ok { s with log := some (s.kept addendum.startIndex ++
        P.logFile (number addendum.startIndex addendum.entries)) } := by
  obtain ⟨m, hbytes, hall⟩ := exists_writeEntries P addendum.startIndex addendum.entries
  rw [storeLogEntries, ← writeEntries_snd P.entry.encode]
  split_ifs with hw
  · rw [Option.some.injEq, hbytes, hall hw, eq_comm]
    exact (and_iff_right hw).symm
  · exact iff_of_false (by simp) fun h => hw h.1

/-- The frames of a log file are found, up to a torn one. -/
theorem parse_logFile (hf : ∀ f ∈ frames, P.Fits f.2) (ht : Frames.readFrame 8 4 torn = none) :
    Frames.parse 8 4 (P.logFile frames ++ torn).length (P.logFile frames ++ torn) =
      frames.map fun f => (f.1 % 2 ^ 64, P.entry.encode f.2) := by
  have hlen : frames.length ≤ (P.logFile frames ++ torn).length := by
    have hframes : (frames.map fun f => (f.1, P.entry.encode f.2)).length ≤
        (P.logFile frames).length := Frames.length_le_concat (by decide) _
    rw [List.length_map] at hframes
    rw [List.length_append]
    exact hframes.trans (Nat.le_add_right _ _)
  have hfits : ∀ f ∈ frames.map fun f => (f.1, P.entry.encode f.2), f.2.length < 256 ^ 4 := by
    intro f hm
    obtain ⟨g, hg, rfl⟩ := List.mem_map.mp hm
    exact hf g hg
  rw [Postcard.logFile] at hlen ⊢
  rw [Frames.parse_concat ht hfits (by rwa [List.length_map]), List.map_map]
  rfl

/-- The entries of a log file come back, up to a torn frame. -/
theorem restore_logFile (hl : s.log = some (P.logFile frames ++ torn))
    (hf : ∀ f ∈ frames, P.Fits f.2) (ht : Frames.readFrame 8 4 torn = none) :
    s.restoreLogEntries P = .ok (some (frames.map Prod.snd)) := by
  have hparse : (Frames.parse 8 4 (P.logFile frames ++ torn).length
      (P.logFile frames ++ torn)).map (fun f => P.entry.decode f.2) =
      (frames.map Prod.snd).map some := by
    rw [parse_logFile hf ht, List.map_map, List.map_map]
    exact List.map_congr_left fun f _ => P.entry.decode_encode f.2
  rw [restoreLogEntries, hl]
  dsimp only
  rw [readEntries_eq hparse]
  rfl

/-- A store cuts a log file in front of the first frame with its start index. -/
theorem kept_logFile (hl : s.opened = P.logFile frames ++ torn)
    (hf : ∀ f ∈ frames, P.Fits f.2) (ht : Frames.readFrame 8 4 torn = none) (startIndex : ℕ) :
    s.kept startIndex =
      P.logFile (frames.takeWhile fun f => f.1 % 2 ^ 64 ≠ startIndex) := by
  -- the frames as they are read have the lengths they were written with
  have hlen : ∀ fs : List (ℕ × LogEntry),
      (Frames.concat 8 4 (fs.map fun f => (f.1 % 2 ^ 64, P.entry.encode f.2))).length =
        (P.logFile fs).length := by
    intro fs
    induction fs with
    | nil => rfl
    | cons f fs ih =>
      rw [List.map_cons, Frames.concat, List.length_append, ih, logFile_cons, List.length_append,
        Postcard.frame, Frames.length_frame, Frames.length_frame]
  have hsplit : P.logFile frames ++ torn =
      P.logFile (frames.takeWhile fun f => f.1 % 2 ^ 64 ≠ startIndex) ++
        (P.logFile (frames.dropWhile fun f => f.1 % 2 ^ 64 ≠ startIndex) ++ torn) := by
    rw [← List.append_assoc, ← logFile_append, List.takeWhile_append_dropWhile]
  rw [kept, hl, truncateAt_eq, parse_logFile hf ht, List.takeWhile_map, hlen, hsplit]
  exact List.take_left' rfl

theorem mem_number {start : ℕ} {es : List LogEntry} {f : ℕ × LogEntry} (h : f ∈ number start es) :
    start ≤ f.1 ∧ f.1 < start + es.length ∧ f.2 ∈ es := by
  induction es generalizing start with
  | nil => simp [number] at h
  | cons e es ih =>
    rw [number] at h
    rcases List.mem_cons.mp h with rfl | h
    · simp
    · obtain ⟨h1, h2, h3⟩ := ih h
      rw [List.length_cons]
      exact ⟨by omega, by omega, List.mem_cons_of_mem e h3⟩

/-- Entries that are numbered by `u64`s are found by their numbers. -/
theorem takeWhile_number_mod {a startIndex : ℕ} {old : List LogEntry}
    (hfit : a + old.length ≤ 2 ^ 64) (hstart : old = [] ∨ a ≤ startIndex) :
    (number a old).takeWhile (fun f => f.1 % 2 ^ 64 ≠ startIndex) =
      number a (old.take (startIndex - a)) := by
  rcases hstart with rfl | hstart
  · rw [List.take_nil]
    rfl
  rw [← takeWhile_number hstart old]
  have hlt : ∀ f ∈ number a old, f.1 % 2 ^ 64 = f.1 := fun f hf =>
    Nat.mod_eq_of_lt (by have := mem_number hf; omega)
  generalize number a old = frames at hlt
  induction frames with
  | nil => rfl
  | cons f frames ih =>
    rw [List.takeWhile_cons, List.takeWhile_cons, hlt f List.mem_cons_self,
      ih fun g hg => hlt g (List.mem_cons_of_mem f hg)]

theorem kept_number {a startIndex : ℕ} {old : List LogEntry}
    (hl : s.opened = P.logFile (number a old) ++ torn) (hold : ∀ e ∈ old, P.Fits e)
    (ht : Frames.readFrame 8 4 torn = none) (hfit : a + old.length ≤ 2 ^ 64)
    (hstart : old = [] ∨ a ≤ startIndex) :
    s.kept startIndex = P.logFile (number a (old.take (startIndex - a))) := by
  rw [kept_logFile hl (fun f hf => hold f.2 (mem_number hf).2.2) ht,
    takeWhile_number_mod hfit hstart]

/-- The files of two stretches of numbered entries. -/
theorem restore_numbers {a b : ℕ} {es es' : List LogEntry}
    (hl : s.log = some (P.logFile (number a es ++ number b es') ++ torn))
    (hes : ∀ e ∈ es, P.Fits e) (hes' : ∀ e ∈ es', P.Fits e)
    (ht : Frames.readFrame 8 4 torn = none) :
    s.restoreLogEntries P = .ok (some (es ++ es')) := by
  rw [restore_logFile hl ?_ ht, List.map_append, map_snd_number, map_snd_number]
  intro f hf
  rcases List.mem_append.mp hf with hf | hf
  · exact hes f.2 (mem_number hf).2.2
  · exact hes' f.2 (mem_number hf).2.2

/-- Storing and restoring a log file that ends in a torn frame : the entries of the complete
frames come back, and a store overwrites from its start index on, the torn frame included, and
what it leaves comes back as well, exactly if the index behind its last entry is a `u64`. -/
theorem store_restore_torn {a startIndex i n : ℕ} {old es : List LogEntry} {e : LogEntry}
    (hlog : s.log = some (P.logFile (number a old) ++ (P.frame i e).take n))
    (hn : n < (P.frame i e).length) (hfit : a + old.length ≤ 2 ^ 64)
    (hold : ∀ e ∈ old, P.Fits e) (hes : ∀ e ∈ es, P.Fits e) (he : P.Fits e)
    (hstart : old = [] ∨ a ≤ startIndex ∧ startIndex ≤ a + old.length) :
    s.restoreLogEntries P = .ok (some old) ∧
      ((∃ s', s.storeLogEntries P ⟨startIndex, es⟩ = some (.ok s') ∧
          s'.log = some (P.logFile (number a (old.take (startIndex - a)) ++
            number startIndex es)) ∧
          s'.restoreLogEntries P = .ok (some (old.take (startIndex - a) ++ es))) ↔
        es = [] ∨ startIndex + es.length < 2 ^ 64) := by
  have ht : Frames.readFrame 8 4 ((P.frame i e).take n) = none := Frames.readFrame_torn he hn
  have hkept := kept_number (show s.opened = _ by rw [opened, hlog]; rfl) hold ht hfit
    (hstart.imp_right And.left)
  refine ⟨?_, fun ⟨s', hs', _⟩ => (storeLogEntries_eq_some.mp hs').1, fun hroom => ?_⟩
  · have hrestore := restore_logFile hlog (fun f hf => hold f.2 (mem_number hf).2.2) ht
    rwa [map_snd_number] at hrestore
  · have hafter : s.kept startIndex ++ P.logFile (number startIndex es) =
        P.logFile (number a (old.take (startIndex - a)) ++ number startIndex es) ++ [] := by
      rw [hkept, logFile_append, List.append_nil]
    refine ⟨_, storeLogEntries_eq_some.mpr ⟨hroom, rfl⟩, ?_, ?_⟩
    · exact congrArg some (hafter.trans (List.append_nil _))
    · exact restore_numbers (congrArg some hafter) (fun e h => hold e (List.mem_of_mem_take h)) hes
        (Frames.readFrame_nil (by decide))

/-- Two entries and the index of a third. -/
theorem store_restore_torn_partialFrame :
    let file := Postcard.format.logFile [(1, ⟨1, [7]⟩), (2, ⟨1, [8]⟩)] ++ [0, 0, 0, 0, 0, 0, 0, 3]
    let s : FileStorage := ⟨none, some file, none⟩
    s.restoreLogEntries Postcard.format = .ok (some [⟨1, [7]⟩, ⟨1, [8]⟩]) ∧
      ∃ s', s.storeLogEntries Postcard.format ⟨2, [⟨2, []⟩]⟩ = some (.ok s') ∧
        s'.log = some (Postcard.format.logFile [(1, ⟨1, [7]⟩), (2, ⟨2, []⟩)]) ∧
        s'.restoreLogEntries Postcard.format = .ok (some [⟨1, [7]⟩, ⟨2, []⟩]) := by
  intro file s
  have hlog : s.log = some (Postcard.format.logFile (number 1 [⟨1, [7]⟩, ⟨1, [8]⟩]) ++
      (Postcard.format.frame 3 ⟨2, []⟩).take 8) := by decide
  obtain ⟨hbefore, hafter⟩ := @store_restore_torn Postcard.format s 1 2 3 8 _ [⟨2, []⟩] _ hlog
    (by decide) (by decide) (by decide) (by decide) (by decide) (Or.inr (by decide))
  exact ⟨hbefore, hafter.mpr (Or.inr (by decide))⟩

/-- An entry with the last index there is : its frame is complete, and the store panics in
front of the flush. -/
theorem store_panics_of_lastIndex :
    ¬∀ (P : Postcard) (s : FileStorage) (a startIndex i n : ℕ) (old es : List LogEntry)
      (e : LogEntry), s.log = some (P.logFile (number a old) ++ (P.frame i e).take n) →
      n < (P.frame i e).length → a + old.length ≤ 2 ^ 64 → startIndex < 2 ^ 64 →
      (∀ e ∈ old, P.Fits e) → (∀ e ∈ es, P.Fits e) → P.Fits e →
      (old = [] ∨ a ≤ startIndex ∧ startIndex ≤ a + old.length) →
      s.restoreLogEntries P = .ok (some old) ∧
        ∃ s', s.storeLogEntries P ⟨startIndex, es⟩ = some (.ok s') ∧
          s'.log = some (P.logFile (number a (old.take (startIndex - a)) ++
            number startIndex es)) ∧
          s'.restoreLogEntries P = .ok (some (old.take (startIndex - a) ++ es)) := by
  intro hall
  obtain ⟨-, s', hs', -⟩ := hall Postcard.format ⟨none, some [], none⟩ 1 (2 ^ 64 - 1) 1 0 []
    [⟨1, [7]⟩] ⟨1, []⟩ rfl (by decide) (by decide) (by decide) (by decide) (by decide) (by decide)
    (Or.inl rfl)
  rcases (storeLogEntries_eq_some.mp hs').1 with h | h
  · cases h
  · exact absurd h (by decide)

/-- A prefix of a log file is some of its frames and a torn one. -/
theorem exists_take_logFile (hf : ∀ f ∈ frames, P.Fits f.2) (n : ℕ) :
    ∃ m torn, (P.logFile frames).take n = P.logFile (frames.take m) ++ torn ∧
      Frames.readFrame 8 4 torn = none := by
  have hfits : ∀ f ∈ frames.map fun f => (f.1, P.entry.encode f.2), f.2.length < 256 ^ 4 := by
    intro f hm
    obtain ⟨g, hg, rfl⟩ := List.mem_map.mp hm
    exact hf g hg
  obtain ⟨m, torn, htake, ht⟩ := Frames.exists_take_concat (Nat.succ_pos 7) hfits n
  refine ⟨m, torn, ?_, ht⟩
  rw [← List.map_take] at htake
  exact htake

theorem take_number (start m : ℕ) (es : List LogEntry) :
    (number start es).take m = number start (es.take m) := by
  induction es generalizing start m with
  | nil => rw [List.take_nil, number, List.take_nil]
  | cons e es ih =>
    cases m with
    | zero => rfl
    | succ m => rw [number, List.take_succ_cons, List.take_succ_cons, number, ih]

/-! ## Interrupted stores -/

/-- What an interrupted store leaves : the old entries, or those in front of its start index and
some of the new ones, none of them right after `set_len`. -/
theorem restore_interrupted {a startIndex : ℕ} {old es : List LogEntry}
    (hlog : s.log = some (P.logFile (number a old))) (hfit : a + old.length ≤ 2 ^ 64)
    (hold : ∀ e ∈ old, P.Fits e) (hes : ∀ e ∈ es, P.Fits e) (hstart : a ≤ startIndex) :
    (s.interrupted P ⟨startIndex, es⟩ none).restoreLogEntries P = .ok (some old) ∧
      (s.interrupted P ⟨startIndex, es⟩ (some 0)).restoreLogEntries P =
        .ok (some (old.take (startIndex - a))) ∧
      ∀ written, ∃ m, (s.interrupted P ⟨startIndex, es⟩ (some written)).restoreLogEntries P =
        .ok (some (old.take (startIndex - a) ++ es.take m)) := by
  have hnil : Frames.readFrame 8 4 [] = none := Frames.readFrame_nil (by decide)
  have hopened : s.opened = P.logFile (number a old) ++ [] := by
    rw [opened, hlog, List.append_nil]
    rfl
  have hkept := kept_number hopened hold hnil hfit (Or.inr hstart)
  have hshort : ∀ f ∈ number a (old.take (startIndex - a)), P.Fits f.2 := fun f hf =>
    hold f.2 (List.mem_of_mem_take (mem_number hf).2.2)
  refine ⟨?_, ?_, fun written => ?_⟩
  · have hl : (s.interrupted P ⟨startIndex, es⟩ none).log = some (P.logFile (number a old) ++ []) :=
      congrArg some hopened
    rw [restore_logFile hl (fun f hf => hold f.2 (mem_number hf).2.2) hnil, map_snd_number]
  · have hl : (s.interrupted P ⟨startIndex, es⟩ (some 0)).log =
        some (P.logFile (number a (old.take (startIndex - a))) ++ []) := by
      rw [← hkept]
      rfl
    rw [restore_logFile hl hshort hnil, map_snd_number]
  · obtain ⟨k, hbytes, -⟩ := exists_writeEntries P startIndex es
    have hfits : ∀ f ∈ number startIndex (es.take k), P.Fits f.2 := fun f hf =>
      hes f.2 (List.mem_of_mem_take (mem_number hf).2.2)
    obtain ⟨m, torn, htake, ht⟩ := exists_take_logFile hfits written
    rw [take_number, List.take_take] at htake
    have hl : (s.interrupted P ⟨startIndex, es⟩ (some written)).log =
        some (P.logFile (number a (old.take (startIndex - a)) ++
          number startIndex (es.take (min m k))) ++ torn) := by
      change some (s.kept startIndex ++
        (writeEntries P.entry.encode startIndex es).1.take written) = _
      rw [hkept, hbytes, htake, logFile_append, List.append_assoc]
    exact ⟨min m k, restore_numbers hl (fun e h => hold e (List.mem_of_mem_take h))
      (fun e h => hes e (List.mem_of_mem_take h)) ht⟩

/-- The entry at position `i` of the file is not to be lost : it lies in front of the start
index, or the store writes an equal one. -/
def Unchanged (a : ℕ) (addendum : PersistedLogAddendum) (i : ℕ) (e : LogEntry) : Prop :=
  a + i < addendum.startIndex ∨ addendum.startIndex ≤ a + i ∧
    addendum.entries[a + i - addendum.startIndex]? = some e

/-- Wherever a store is interrupted, the entries it does not change are restored, exactly if it
repeats none of the entries it cuts off. -/
theorem interrupted_keeps_iff {a startIndex : ℕ} {old es : List LogEntry}
    (hlog : s.log = some (P.logFile (number a old))) (hfit : a + old.length ≤ 2 ^ 64)
    (hold : ∀ e ∈ old, P.Fits e) (hes : ∀ e ∈ es, P.Fits e)
    (hstart : a ≤ startIndex ∧ startIndex ≤ a + old.length) :
    (∀ point, ∃ restored,
        (s.interrupted P ⟨startIndex, es⟩ point).restoreLogEntries P = .ok (some restored) ∧
        ∀ i e, old[i]? = some e → Unchanged a ⟨startIndex, es⟩ i e → restored[i]? = some e) ↔
      ∀ i e, old[i]? = some e → startIndex ≤ a + i → es[a + i - startIndex]? ≠ some e := by
  obtain ⟨hnone, hzero, hsome⟩ := restore_interrupted hlog hfit hold hes hstart.1
  constructor
  · -- with nothing written yet, whatever was cut off is lost
    intro hall i e hi hle hrepeat
    obtain ⟨restored, hr, hkeep⟩ := hall (some 0)
    rw [hzero] at hr
    obtain rfl := Option.some.inj (Except.ok.inj hr)
    have hget := hkeep i e hi (Or.inr ⟨hle, hrepeat⟩)
    rw [List.getElem?_take, if_neg (by omega)] at hget
    cases hget
  · intro hne point
    cases point with
    | none => exact ⟨old, hnone, fun i e hi _ => hi⟩
    | some written =>
      obtain ⟨m, hm⟩ := hsome written
      refine ⟨_, hm, fun i e hi hun => ?_⟩
      rcases hun with hlt | ⟨hle, hrepeat⟩
      · have hlen := (List.getElem?_eq_some_iff.mp hi).1
        change a + i < startIndex at hlt
        rw [List.getElem?_append_left (by rw [List.length_take]; omega), List.getElem?_take,
          if_pos (by omega), hi]
      · exact absurd hrepeat (hne i e hi hle)

/-- A log file with two entries. -/
def twoEntries : FileStorage :=
  ⟨none, some (Postcard.format.logFile (number 1 [⟨1, [7]⟩, ⟨1, [8]⟩])), none⟩

/-- A store that only appends loses nothing. -/
theorem interrupted_keeps_iff_append :
    twoEntries.log = some (Postcard.format.logFile (number 1 [⟨1, [7]⟩, ⟨1, [8]⟩])) ∧
    ∀ point, ∃ restored,
      (twoEntries.interrupted Postcard.format ⟨3, [⟨1, [9]⟩]⟩ point).restoreLogEntries
        Postcard.format = .ok (some restored) ∧
      ∀ i e, ([⟨1, [7]⟩, ⟨1, [8]⟩] : List LogEntry)[i]? = some e →
        Unchanged 1 ⟨3, [⟨1, [9]⟩]⟩ i e → restored[i]? = some e := by
  refine ⟨rfl, (interrupted_keeps_iff rfl (by decide) (by decide) (by decide) (by decide)).mpr ?_⟩
  intro i e hi hle
  have hlen := (List.getElem?_eq_some_iff.mp hi).1
  simp only [List.length_cons, List.length_nil] at hlen
  omega

/-- A store that repeats both entries in front of a new one has lost them after `set_len`. -/
theorem lost_of_repeated :
    ¬∀ (P : Postcard) (s : FileStorage) (a startIndex : ℕ) (old es : List LogEntry)
      (point : Option ℕ), s.log = some (P.logFile (number a old)) → a + old.length ≤ 2 ^ 64 →
      (∀ e ∈ old, P.Fits e) → (∀ e ∈ es, P.Fits e) →
      a ≤ startIndex ∧ startIndex ≤ a + old.length →
      ∃ restored,
        (s.interrupted P ⟨startIndex, es⟩ point).restoreLogEntries P = .ok (some restored) ∧
        ∀ i e, old[i]? = some e → Unchanged a ⟨startIndex, es⟩ i e → restored[i]? = some e := by
  intro hall
  obtain ⟨restored, hr, hkeep⟩ := hall Postcard.format twoEntries 1 1 [⟨1, [7]⟩, ⟨1, [8]⟩]
    [⟨1, [7]⟩, ⟨1, [8]⟩, ⟨1, [9]⟩] (some 0) rfl (by decide) (by decide) (by decide) (by decide)
  have hempty : restored = [] := by
    have hzero : (twoEntries.interrupted Postcard.format ⟨1, [⟨1, [7]⟩, ⟨1, [8]⟩, ⟨1, [9]⟩]⟩
        (some 0)).restoreLogEntries Postcard.format = .ok (some []) := by rfl
    rw [hzero] at hr
    exact (Option.some.inj (Except.ok.inj hr)).symm
  have hget := hkeep 0 ⟨1, [7]⟩ rfl (Or.inr ⟨le_rfl, rfl⟩)
  rw [hempty] at hget
  cases hget

end FileStorage

end FerrisFerry
