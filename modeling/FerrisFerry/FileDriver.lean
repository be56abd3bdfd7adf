import FerrisFerry.Handling
import FerrisFerry.FileStorage

/-!
# The event loop over files

A driver whose storage is a directory. Its storage calls change the files, a call that fails is
a panic like one that panics itself, and a restart reads what the files hold then.
`FileStorage.Shows` says that the files hold the metadata and the snapshot the driver has
stored, so that what it retrieves from its storage is what the files give.

`truncate_log` opens the log file and does not create it. A node that has voted and never
stored an entry has no log file, and it is such a node that is sent a snapshot.
`DriverConfig.installs_iff` : to install a snapshot succeeds, and can be recovered from,
exactly if there is a log file and a metadata file.
-/

namespace FerrisFerry

namespace FileStorage

variable (P : Postcard)

/-- A storage call of the driver. A panic is `none`. -/
def exec (s : FileStorage) : StorageOp → Option (IoResult FileStorage)
  | .storeMetadata metadata => some (s.storeMetadata P metadata)
  | .storeLogEntries addendum => s.storeLogEntries P addendum
  | .storeSnapshot snapshot => some (s.storeSnapshot P snapshot)
  | .truncateLog => some s.truncateLog

/-- Calls in order; one that fails or panics ends them. -/
def execAll : FileStorage → List StorageOp → Option (IoResult FileStorage)
  | s, [] => some (.ok s)
  | s, op :: ops =>
    match s.exec P op with
    | some (.ok s') => execAll s' ops
    | some (.error e) => some (.error e)
    | none => none

/-- What a call leaves that does not succeed : a store of entries that panics has cut the log
and written some of its bytes. -/
def broken (s : FileStorage) (written : ℕ) : StorageOp → FileStorage
  | .storeLogEntries addendum => s.interrupted P addendum (some written)
  | _ => s

/-- The files the calls leave when the driver panics at the first one that does not succeed. -/
def settle (written : ℕ) : FileStorage → List StorageOp → FileStorage
  | s, [] => s
  | s, op :: ops =>
    match s.exec P op with
    | some (.ok s') => settle written s' ops
    | some (.error _) => s.broken P written op
    | none => s.broken P written op

/-- What `RaftDriver::new` reads. The entries come without their indices, and the driver takes
them to follow the snapshot. -/
def view (s : FileStorage) : IoResult Storage := do
  let snapshot ← s.restoreSnapshot P
  let metadata ← s.restoreMetadata P
  let entries ← s.restoreLogEntries P
  .ok ⟨metadata, entries.map (number (snapshot.elim 0 Snapshot.lastIncludedIndex + 1)), snapshot⟩

end FileStorage

structure FileDriver where
  driver : RaftDriver
  files : FileStorage

/-- As `DriverInput`, with the bytes that are `written` when a store panics. -/
inductive FileInput where
  | event (event : RaftDriver.Event) (rnd : ℕ)
  | crash (event : RaftDriver.Event) (rnd done written restartRnd : ℕ)

namespace DriverConfig

variable (cfg : DriverConfig) (P : Postcard) (app : List AppliedEntry → Bytes)

/-- `RaftDriver::new` on a directory : a file that cannot be read is a panic. -/
def newOn (files : FileStorage) (rnd : ℕ) : Option RaftDriver :=
  match files.view P with
  | .ok storage => cfg.new storage rnd
  | .error _ => none

/-- The first start, in an empty directory. -/
def bootOn (rnd : ℕ) : FileDriver := ⟨cfg.boot rnd, FileStorage.empty⟩

/-- A driver over files as a machine. -/
def fileMachine : Machine FileDriver FileInput where
  step s
    | .event event rnd =>
      match (s.driver.handleEvent app rnd event).2,
        s.files.execAll P ((s.driver.handleEvent app rnd event).1.filterMap Effect.op) with
      | some d, some (.ok files) => some ⟨d, files⟩
      | _, _ => none
    | .crash event rnd done written restartRnd =>
      let files := s.files.settle P written
        (((s.driver.handleEvent app rnd event).1.take done).filterMap Effect.op)
      (cfg.newOn P files restartRnd).map (⟨·, files⟩)

end DriverConfig

/-! ## Files and storage -/

namespace FileStorage

variable {P : Postcard} {files files' : FileStorage} {s : Storage}

/-- The files hold the metadata and the snapshot of a storage. -/
structure Shows (P : Postcard) (files : FileStorage) (s : Storage) : Prop where
  metadata : files.restoreMetadata P = .ok s.metadata
  snapshot : files.restoreSnapshot P = .ok s.snapshot

theorem shows_empty : Shows P empty Storage.empty := ⟨rfl, rfl⟩

theorem readType_atomicSerialize {α : Type*} (c : Codec α) (data : α) :
    readType c (atomicSerialize c data) = .ok (some data) := by
  rw [atomicSerialize, readType, c.decode_encode]

/-- There is metadata where there is a file for it. -/
theorem Shows.exists_metadata (h : Shows P files s) (hm : files.metadata ≠ none) :
    ∃ metadata, s.metadata = some metadata := by
  have hmeta := h.metadata
  obtain ⟨file, hfile⟩ := Option.ne_none_iff_exists'.mp hm
  rw [restoreMetadata, hfile, readType] at hmeta
  cases hdecode : P.metadata.decode file with
  | none =>
    rw [hdecode] at hmeta
    cases hmeta
  | some metadata =>
    rw [hdecode] at hmeta
    exact ⟨metadata, (Except.ok.inj hmeta).symm⟩

/-- What the driver retrieves from its storage is what the files give it. -/
theorem Shows.retrieveSnapshotBytes (h : Shows P files s) :
    (files.retrieveSnapshotBytes P).toOption = s.retrieveSnapshotBytes := by
  rw [FileStorage.retrieveSnapshotBytes, h.snapshot, Storage.retrieveSnapshotBytes]
  cases s.snapshot <;> rfl

theorem Shows.exec (h : Shows P files s) {op : StorageOp}
    (he : files.exec P op = some (.ok files')) : Shows P files' (s.exec op) := by
  cases op with
  | storeMetadata metadata =>
    obtain rfl := Except.ok.inj (Option.some.inj he)
    exact ⟨readType_atomicSerialize P.metadata metadata, h.snapshot⟩
  | storeLogEntries addendum =>
    obtain ⟨-, hfiles⟩ := storeLogEntries_eq_some.mp he
    obtain rfl := Except.ok.inj hfiles
    exact ⟨h.metadata, h.snapshot⟩
  | storeSnapshot snapshot =>
    obtain rfl := Except.ok.inj (Option.some.inj he)
    exact ⟨h.metadata, readType_atomicSerialize P.snapshot snapshot⟩
  | truncateLog =>
    rw [FileStorage.exec, truncateLog] at he
    cases hl : files.log with
    | none =>
      rw [hl] at he
      cases he
    | some bytes =>
      rw [hl] at he
      obtain rfl := Except.ok.inj (Option.some.inj he)
      exact ⟨h.metadata, h.snapshot⟩

theorem Shows.execAll (h : Shows P files s) {ops : List StorageOp}
    (he : files.execAll P ops = some (.ok files')) :
    Shows P files' (ops.foldl Storage.exec s) := by
  induction ops generalizing files s with
  | nil =>
    obtain rfl := Except.ok.inj (Option.some.inj he)
    exact h
  | cons op ops ih =>
    rw [FileStorage.execAll] at he
    cases hop : files.exec P op with
    | none =>
      rw [hop] at he
      cases he
    | some r =>
      rw [hop] at he
      cases r with
      | error e => cases Option.some.inj he
      | ok files₁ => exact ih (h.exec hop) he

theorem view_of_restore {metadata : Option PersistedMetadata} {e : Option (List LogEntry)}
    {snapshot : Option Snapshot} (hs : files.restoreSnapshot P = .ok snapshot)
    (hm : files.restoreMetadata P = .ok metadata) (hl : files.restoreLogEntries P = .ok e) :
    files.view P = .ok ⟨metadata,
      e.map (number (snapshot.elim 0 Snapshot.lastIncludedIndex + 1)), snapshot⟩ := by
  rw [view, hs, hm, hl]
  rfl

/-- What is read at a restart is what the files hold. -/
theorem shows_view (h : files.view P = .ok s) : Shows P files s := by
  unfold view at h
  cases hs : files.restoreSnapshot P with
  | error e =>
    rw [hs] at h
    cases h
  | ok snapshot =>
    cases hm : files.restoreMetadata P with
    | error e =>
      rw [hs, hm] at h
      cases h
    | ok metadata =>
      cases hl : files.restoreLogEntries P with
      | error e =>
        rw [hs, hm, hl] at h
        cases h
      | ok entries =>
        rw [hs, hm, hl] at h
        obtain rfl := Except.ok.inj h
        exact ⟨hm, hs⟩

end FileStorage

namespace DriverConfig

variable {cfg : DriverConfig} {P : Postcard} {app : List AppliedEntry → Bytes}

theorem storage_of_new {storage : Storage} {rnd : ℕ} {d : RaftDriver}
    (h : cfg.new storage rnd = some d) : d.storage = storage := by
  unfold DriverConfig.new at h
  cases hs : storage.snapshot with
  | none =>
    rw [hs] at h
    cases hm : storage.metadata with
    | none =>
      rw [hm] at h
      obtain rfl := Option.some.inj h
      rfl
    | some metadata =>
      rw [hm] at h
      obtain rfl := Option.some.inj h
      rfl
  | some snapshot =>
    rw [hs] at h
    simp only [bind, Option.bind_eq_some_iff, Option.some.injEq] at h
    obtain ⟨metadata, -, entries, -, rfl⟩ := h
    rfl

/-- The files hold what the driver has stored, at every head of the event loop. -/
theorem shows_run {rnd : ℕ} {s : FileDriver}
    (h : (cfg.fileMachine P app).Run (fun _ _ => True) (cfg.bootOn rnd) s) :
    s.files.Shows P s.driver.storage := by
  refine h.invariant (P := fun s => s.files.Shows P s.driver.storage) FileStorage.shows_empty ?_
  intro s i s' hs _ hstep
  cases i with
  | event event rnd =>
    simp only [fileMachine] at hstep
    cases hd : (s.driver.handleEvent app rnd event).2 with
    | none =>
      rw [hd] at hstep
      cases hstep
    | some d =>
      cases hf : s.files.execAll P ((s.driver.handleEvent app rnd event).1.filterMap Effect.op) with
      | none =>
        rw [hd, hf] at hstep
        cases hstep
      | some r =>
        rw [hd, hf] at hstep
        cases r with
        | error e => cases hstep
        | ok files =>
          obtain rfl := Option.some.inj hstep
          have hstores : d.storage = s.driver.storage.replay _ :=
            (s.driver.performs_handleEvent rnd event d hd).1
          rw [hstores]
          exact hs.execAll hf
  | crash event rnd done written restartRnd =>
    simp only [fileMachine, Option.map_eq_some_iff] at hstep
    obtain ⟨d, hd, rfl⟩ := hstep
    rw [newOn] at hd
    cases hv : FileStorage.view P (s.files.settle P written
        (((s.driver.handleEvent app rnd event).1.take done).filterMap Effect.op)) with
    | error e =>
      rw [hv] at hd
      cases hd
    | ok storage =>
      rw [hv] at hd
      rw [storage_of_new hd]
      exact FileStorage.shows_view hv

/-! ## Installing a snapshot -/

/-- The files, and what has been stored in them, after the calls a run makes up to some point
inside an event. -/
def Reaches (cfg : DriverConfig) (P : Postcard) (app : List AppliedEntry → Bytes) (rnd₀ : ℕ)
    (files : FileStorage) (storage : Storage) : Prop :=
  ∃ (s : FileDriver) (event : RaftDriver.Event) (rnd done : ℕ),
    (cfg.fileMachine P app).Run (fun _ _ => True) (cfg.bootOn rnd₀) s ∧
    s.files.execAll P (((s.driver.handleEvent app rnd event).1.take done).filterMap Effect.op) =
      some (.ok files) ∧
    storage = s.driver.storage.replay ((s.driver.handleEvent app rnd event).1.take done)

theorem Reaches.shows {rnd₀ : ℕ} {files : FileStorage} {storage : Storage}
    (h : cfg.Reaches P app rnd₀ files storage) : files.Shows P storage := by
  obtain ⟨s, event, rnd, done, hrun, hexec, rfl⟩ := h
  exact (shows_run hrun).execAll hexec

/-- The core of a restart behind an installed snapshot. -/
structure Installed (metadata : Option PersistedMetadata) (lastIncludedIndex lastIncludedTerm : ℕ)
    (core : RaftCore) : Prop where
  metadata : metadata = some ⟨core.currentTerm, core.votedFor⟩
  index : core.lastIncludedIndex = lastIncludedIndex
  term : core.lastIncludedTerm = lastIncludedTerm
  log : core.log = []

/-- Installing a snapshot, on every directory a run of a driver comes to : both storage calls
succeed, and a restart right behind them rebuilds the persisted term and vote, the snapshot
point and an empty log, exactly if there is a log file and a metadata file. -/
theorem installs_iff {rnd₀ : ℕ} {files : FileStorage} {storage : Storage}
    (h : cfg.Reaches P app rnd₀ files storage) (d : RaftDriver)
    (lastIncludedIndex lastIncludedTerm : ℕ) (data : Bytes) (rnd : ℕ) :
    (∃ files' d',
        files.execAll P ((d.handleAction app (.installSnapshot lastIncludedIndex lastIncludedTerm
          data)).1.filterMap Effect.op) = some (.ok files') ∧
        cfg.newOn P files' rnd = some d' ∧
        Installed storage.metadata lastIncludedIndex lastIncludedTerm d'.core) ↔
      files.log ≠ none ∧ files.metadata ≠ none := by
  have hops : (d.handleAction app (.installSnapshot lastIncludedIndex lastIncludedTerm
      data)).1.filterMap Effect.op =
      [.storeSnapshot ⟨lastIncludedIndex, lastIncludedTerm, data⟩, .truncateLog] := rfl
  have hmeta := h.shows.metadata
  rw [hops]
  constructor
  · rintro ⟨files', d', hexec, -, hinst⟩
    refine ⟨fun hl => ?_, fun hm => ?_⟩
    · -- `truncate_log` does not find the file
      simp only [FileStorage.execAll, FileStorage.exec, FileStorage.storeSnapshot,
        FileStorage.truncateLog, hl] at hexec
      cases hexec
    · rw [FileStorage.restoreMetadata, hm, hinst.metadata] at hmeta
      cases hmeta
  · rintro ⟨hl, hm⟩
    obtain ⟨bytes, hbytes⟩ := Option.ne_none_iff_exists'.mp hl
    obtain ⟨metadata, hstored⟩ := h.shows.exists_metadata hm
    rw [hstored] at hmeta
    obtain ⟨files', hfiles'⟩ : ∃ files', files' = { files with
        log := some []
        snapshot := FileStorage.atomicSerialize P.snapshot
          ⟨lastIncludedIndex, lastIncludedTerm, data⟩ } := ⟨_, rfl⟩
    have hexec : files.execAll P [.storeSnapshot ⟨lastIncludedIndex, lastIncludedTerm, data⟩,
        .truncateLog] = some (.ok files') := by
      simp only [FileStorage.execAll, FileStorage.exec, FileStorage.storeSnapshot,
        FileStorage.truncateLog, hbytes, hfiles']
    have hview : files'.view P = .ok ⟨some metadata, some [],
        some ⟨lastIncludedIndex, lastIncludedTerm, data⟩⟩ := by
      refine FileStorage.view_of_restore (e := some []) ?_ ?_ ?_ <;> rw [hfiles']
      · exact FileStorage.readType_atomicSerialize P.snapshot _
      · exact hmeta
      · rfl
    refine ⟨files', cfg.driver (RaftCore.restoreWithSnapshot cfg.id cfg.nodes cfg.heartbeatInterval
      cfg.electionRange rnd metadata.term metadata.votedFor [] lastIncludedIndex lastIncludedTerm)
      ⟨some metadata, some [], some ⟨lastIncludedIndex, lastIncludedTerm, data⟩⟩, hexec, ?_,
      hstored, rfl, rfl, rfl⟩
    rw [newOn, hview]
    rfl

/-- A node of three that joins late. -/
def late : DriverConfig := ⟨2, [1, 2, 3], some 1, (1, 2), 8⟩

/-- The leader of term 1 sends its snapshot. -/
def firstContact : RaftDriver.Event := .message (.installSnapshot ⟨1, 1, 5, 1, [9]⟩)

/-- With an entry stored before, the snapshot is installed and comes back. -/
theorem installs_iff_secondContact :
    ∃ files storage files' d', late.Reaches Postcard.format (fun _ => []) 1 files storage ∧
      files.execAll Postcard.format (((late.boot 1).handleAction (fun _ => [])
        (.installSnapshot 5 1 [9])).1.filterMap Effect.op) = some (.ok files') ∧
      late.newOn Postcard.format files' 1 = some d' ∧
      Installed storage.metadata 5 1 d'.core := by
  obtain ⟨s, hrun, hlog, hmeta⟩ := (late.fileMachine Postcard.format fun _ => []).exists_run_of_exec
    (fun _ _ => True) (late.bootOn 1)
    [.event (.message (.appendEntries ⟨1, 1, 0, 0, [⟨1, []⟩], 0⟩)) 1]
    (fun s => s.files.log ≠ none ∧ s.files.metadata ≠ none) (by decide +kernel)
    (Machine.execOk_true _ _)
  have hreach : late.Reaches Postcard.format (fun _ => []) 1 s.files s.driver.storage :=
    ⟨s, firstContact, 1, 0, hrun, rfl, rfl⟩
  obtain ⟨files', d', hinst⟩ := (installs_iff hreach (late.boot 1) 5 1 [9] 1).mpr ⟨hlog, hmeta⟩
  exact ⟨s.files, s.driver.storage, files', d', hreach, hinst⟩

/-- On a node that has stored its term and no entry, `truncate_log` fails. -/
theorem install_fails_of_firstContact :
    ¬∀ (cfg : DriverConfig) (P : Postcard) (app : List AppliedEntry → Bytes) (rnd₀ : ℕ)
      (files : FileStorage) (storage : Storage) (d : RaftDriver)
      (lastIncludedIndex lastIncludedTerm : ℕ) (data : Bytes) (rnd : ℕ),
      cfg.Reaches P app rnd₀ files storage → ∃ files' d',
        files.execAll P ((d.handleAction app (.installSnapshot lastIncludedIndex lastIncludedTerm
          data)).1.filterMap Effect.op) = some (.ok files') ∧
        cfg.newOn P files' rnd = some d' ∧
        Installed storage.metadata lastIncludedIndex lastIncludedTerm d'.core := by
  intro hall
  have hreach : late.Reaches Postcard.format (fun _ => []) 1
      ⟨FileStorage.atomicSerialize Postcard.format.metadata ⟨1, none⟩, none, none⟩
      ⟨some ⟨1, none⟩, none, none⟩ :=
    ⟨late.bootOn 1, firstContact, 1, 1, .init, rfl, rfl⟩
  obtain ⟨files', d', hexec, -⟩ := hall _ _ _ _ _ _ (late.boot 1) 5 1 [9] 1 hreach
  cases hexec

end DriverConfig

end FerrisFerry
