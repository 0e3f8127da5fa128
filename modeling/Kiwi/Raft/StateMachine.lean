import Kiwi.Raft.Binlog

/-!
# The Raft state machine

`KiwiStateMachine` applies log entries to the storage. Only binlogs write; blank and membership
entries only advance what is kept in memory, the id of the last applied entry and the last
membership. After a restart both come from the snapshot that was persisted last (`appliedState`).

A snapshot is a checkpoint of the contents together with the id and the membership that the builder
was given when it was created (`SnapshotBuilder.metadata`). Memberships are of any type `M`.
-/

namespace Kiwi.Raft

/-- `EntryPayload`. -/
inductive Payload (M : Type) where
  | blank
  | normal (binlog : Binlog)
  | membership (membership : M)
deriving DecidableEq, Repr

structure StoredMembership (M : Type) where
  /-- The entry that set the membership. -/
  logId : Option LogId
  membership : M
deriving DecidableEq, Repr

instance {M : Type} [Inhabited M] : Inhabited (StoredMembership M) := ⟨⟨none, default⟩⟩

structure SnapshotMeta (M : Type) where
  /-- The last entry that the snapshot covers. -/
  lastLogId : Option LogId
  lastMembership : StoredMembership M
  snapshotId : String
deriving DecidableEq, Repr

/-- The fields of `KiwiStateMachine` that calls change. -/
structure StateMachine (M : Type) where
  /-- The storage that is swapped in. -/
  storage : Storage
  lastApplied : Option LogId
  lastMembership : StoredMembership M
  snapshotIdx : ℕ

section

variable {M : Type}

/-- The body of the loop of `apply`: `last_applied` advances only after the writes are
committed. -/
def applyEntry (sm : StateMachine M) (entry : Entry (Payload M)) :
    Except Error (StateMachine M) :=
  match entry.payload with
  | .blank => .ok { sm with lastApplied := some entry.logId }
  | .normal binlog =>
    match onBinlogWrite sm.storage binlog with
    | .error e => .error e
    | .ok storage => .ok { sm with storage := storage, lastApplied := some entry.logId }
  | .membership membership =>
    .ok { sm with
      lastMembership := ⟨some entry.logId, membership⟩
      lastApplied := some entry.logId }

/-- `apply`, which stops at the first entry that fails. -/
def apply (sm : StateMachine M) : List (Entry (Payload M)) → Except Error Unit × StateMachine M
  | [] => (.ok (), sm)
  | entry :: entries =>
    match applyEntry sm entry with
    | .error e => (.error e, sm)
    | .ok sm => apply sm entries

/-- `applied_state`, given the metadata of the snapshot on disk. -/
def appliedState (sm : StateMachine M) (persisted : Option (SnapshotMeta M)) : StateMachine M :=
  match sm.lastApplied, persisted with
  | none, some snapshot =>
    { sm with lastApplied := snapshot.lastLogId, lastMembership := snapshot.lastMembership }
  | _, _ => sm

/-- What a `KiwiSnapshotBuilder` captures. -/
structure SnapshotBuilder (M : Type) where
  idx : ℕ
  /-- `last_applied` when the builder was created. -/
  lastApplied : Option LogId
  /-- `last_membership` when the builder was created. -/
  lastMembership : StoredMembership M
deriving DecidableEq, Repr

/-- `get_snapshot_builder`, without its locks. -/
def getSnapshotBuilder (sm : StateMachine M) : SnapshotBuilder M × StateMachine M :=
  let idx := min (sm.snapshotIdx + 1) maxU64
  (⟨idx, sm.lastApplied, sm.lastMembership⟩, { sm with snapshotIdx := idx })

/-- The metadata of `build_snapshot` on node `nodeId`. Without an applied entry the id is made up of
index and term zero. -/
def SnapshotBuilder.metadata (nodeId : ℕ) (builder : SnapshotBuilder M) : SnapshotMeta M where
  lastLogId := some
    { leaderId := (builder.lastApplied.map LogId.leaderId).getD ⟨0, nodeId⟩
      index := (builder.lastApplied.map LogId.index).getD 0 }
  lastMembership := builder.lastMembership
  snapshotId := s!"snapshot-{builder.idx}"

/-! ### Applying valid entries -/

/-- The writes of an entry. -/
def Entry.batch (instanceNum : ℕ) (entry : Entry (Payload M)) : ContentsBatch :=
  match entry.payload with
  | .normal binlog => binlog.batch instanceNum
  | _ => []

/-- The binlog of the entry, if there is one, is valid for the storage. -/
def Entry.Valid (storage : Storage) (entry : Entry (Payload M)) : Prop :=
  match entry.payload with
  | .normal binlog => validateBinlog storage binlog = .ok ()
  | _ => True

/-- Validity depends on the number of the database only. -/
theorem Entry.valid_congr {storage storage' : Storage} (h : storage.dbId = storage'.dbId)
    (entry : Entry (Payload M)) : entry.Valid storage ↔ entry.Valid storage' := by
  rcases hp : entry.payload with _ | binlog | membership
  · simp [Valid, hp]
  · simp only [Valid, hp, validateBinlog, h]
  · simp [Valid, hp]

/-- The membership after an entry. -/
def Entry.membershipAfter (entry : Entry (Payload M)) (before : StoredMembership M) :
    StoredMembership M :=
  match entry.payload with
  | .membership membership => ⟨some entry.logId, membership⟩
  | _ => before

/-- The state machine after an entry, where the writes succeed. -/
def StateMachine.after (sm : StateMachine M) (entry : Entry (Payload M)) : StateMachine M :=
  { sm with
    storage := { sm.storage with
      contents := sm.storage.contents.write (entry.batch sm.storage.instanceNum) }
    lastApplied := some entry.logId
    lastMembership := entry.membershipAfter sm.lastMembership }

section

variable {sm : StateMachine M} (hopen : sm.storage.Open)

include hopen

/-- **One entry.** A valid entry is applied. -/
theorem applyEntry_of_valid {entry : Entry (Payload M)} (h : entry.Valid sm.storage) :
    applyEntry sm entry = .ok (sm.after entry) := by
  rcases hp : entry.payload with _ | binlog | membership
  · simp [applyEntry, StateMachine.after, Entry.batch, Entry.membershipAfter, hp]
  · have hvalid : validateBinlog sm.storage binlog = .ok () := by
      rw [Entry.Valid, hp] at h
      exact h
    simp only [applyEntry, hp, onBinlogWrite_of_valid hopen hvalid, StateMachine.after,
      Entry.batch, Entry.membershipAfter]
  · simp [applyEntry, StateMachine.after, Entry.batch, Entry.membershipAfter, hp]

theorem StateMachine.after_open (entry : Entry (Payload M)) : (sm.after entry).storage.Open :=
  ⟨hopen.pos, hopen.insts⟩

/-- **A batch of entries.** Valid entries are applied one after the other. -/
theorem apply_of_valid {entries : List (Entry (Payload M))} (h : ∀ e ∈ entries, e.Valid sm.storage) :
    apply sm entries = (.ok (), entries.foldl StateMachine.after sm) := by
  induction entries generalizing sm with
  | nil => rfl
  | cons entry entries ih =>
    rw [apply, applyEntry_of_valid hopen (h entry List.mem_cons_self)]
    exact ih (sm.after_open hopen entry) fun e he ↦
      (Entry.valid_congr rfl e).1 (h e (List.mem_cons_of_mem _ he))

end

end

end Kiwi.Raft
