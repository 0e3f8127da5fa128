import Kiwi.Raft.LogStore
import Kiwi.Storage.Redis
import Kiwi.Storage.Slots
import Kiwi.Storage.UserKeys

/-!
# Binlogs

A write command of the cluster is replicated as a binlog: the physical puts and deletes of its write
batch, with the slot of the one user key that they belong to. `on_binlog_write` checks a binlog —
its database, that it is not empty, the shape of every entry, and that the slot of every encoded key
is the slot of the binlog — and commits its writes to the instance of the slot as one batch.

The contents of a storage are a `Database` whose column families are those of all its instances.
-/

namespace Kiwi.Raft

inductive OperateType where
  | noOp
  | put
  | delete
deriving DecidableEq, Repr

structure BinlogEntry where
  /-- The number of the column family. -/
  cfIdx : ℕ
  opType : OperateType
  key : Bytes
  /-- The value, absent for a delete. -/
  value : Option Bytes
deriving DecidableEq, Repr

structure Binlog where
  dbId : ℕ
  slotIdx : ℕ
  entries : List BinlogEntry
deriving DecidableEq, Repr

inductive ColumnFamilyIndex where
  | metaCF
  | hashesDataCF
  | setsDataCF
  | listsDataCF
  | zsetsDataCF
  | zsetsScoreCF
  | vectorDataCF
deriving DecidableEq, Repr

/-- The column family of a number. -/
def ColumnFamilyIndex.ofIdx : ℕ → Option ColumnFamilyIndex
  | 0 => some .metaCF
  | 1 => some .hashesDataCF
  | 2 => some .setsDataCF
  | 3 => some .listsDataCF
  | 4 => some .zsetsDataCF
  | 5 => some .zsetsScoreCF
  | 6 => some .vectorDataCF
  | _ => none

/-! ### The user key of an encoded key -/

/-- The key of `ParsedVectorMemberDataKey::decode`: a version byte, a four-byte length, the key,
and two eight-byte numbers before the element. -/
def decodeVectorKey (encoded : Bytes) : Except Error Bytes :=
  if encoded.length < 21 then
    .error (.invalidFormat s!"vector member key too short: {encoded.length} < 21")
  else if encoded.headD 0 ≠ 1 then
    .error (.invalidFormat
      s!"unsupported vector member key codec version: {(encoded.headD 0).toNat}")
  else
    let keyLen := ofBeBytes ((encoded.drop 1).take 4)
    let reader := encoded.drop 5
    if reader.length - 16 < keyLen then
      .error (.invalidFormat
        s!"vector member key_len {keyLen} exceeds remaining {reader.length} bytes")
    else .ok (reader.take keyLen)

/-- The number of bytes behind the user key, at least. -/
def tailLength : ℕ → Option ℕ
  | 0 => some 16
  | 1 => some 24
  | 2 => some 24
  | 3 => some 32
  | 4 => some 24
  | 5 => some 32
  | _ => none

/-- `BinlogBatch::infer_user_key`. -/
def inferUserKey (cfIdx : ℕ) (encoded : Bytes) : Except Error Bytes :=
  if cfIdx = 6 then decodeVectorKey encoded
  else
    match tailLength cfIdx with
    | none => .error (.invalidFormat s!"Invalid column family index: {cfIdx}")
    | some tail =>
      if encoded.length < 8 + 2 + tail then
        .error (.invalidFormat
          s!"Encoded key is too short for column family {cfIdx}: len={encoded.length}")
      else
        let keyPart := encoded.drop 8
        let keyPartEnd := seekUserkeyDelim false keyPart
        if keyPartEnd = keyPart.length then
          .error (.invalidFormat "Encoded key delimiter not found while inferring binlog slot")
        else
          let remaining := keyPart.length - keyPartEnd
          -- keys of the meta and list families end with the tail
          if (if cfIdx = 0 ∨ cfIdx = 3 then remaining = tail else tail ≤ remaining) then
            decodeUserKey (keyPart.take keyPartEnd)
          else
            .error (.invalidFormat
              s!"Encoded key has invalid physical layout for column family {cfIdx}: trailing bytes={remaining}")

/-! ### Validation -/

/-- The checks of `validate_binlog_entries` on one entry. -/
def checkEntry (slotIdx : ℕ) (entry : BinlogEntry) : Except Error Unit :=
  match entry.opType, entry.value with
  | .put, none => .error (.invalidFormat "Put binlog entry must contain a value")
  | .delete, some _ => .error (.invalidFormat "Delete binlog entry must not contain a value")
  | .noOp, _ => .error (.invalidFormat "Normal Raft binlog cannot contain NoOp entries")
  | _, _ =>
    match inferUserKey entry.cfIdx entry.key with
    | .error e => .error e
    | .ok userKey =>
      let actualSlot := keyToSlotId userKey
      if actualSlot = slotIdx then .ok ()
      else .error (.invalidFormat
        s!"Binlog slot {slotIdx} does not match encoded key slot {actualSlot}")

/-- The loop of `validate_binlog_entries`. -/
def checkEntries (slotIdx : ℕ) : List BinlogEntry → Except Error Unit
  | [] => .ok ()
  | entry :: entries =>
    match checkEntry slotIdx entry with
    | .error e => .error e
    | .ok () => checkEntries slotIdx entries

/-- `BinlogBatch::validate_binlog_entries`. -/
def validateBinlogEntries (binlog : Binlog) : Except Error Unit :=
  if binlog.entries = [] then
    .error (.invalidFormat "Raft binlog must contain at least one entry")
  else checkEntries binlog.slotIdx binlog.entries

/-! ### The storage -/

/-- The contents of all instances. -/
abbrev Contents := Database (ℕ × ColumnFamilyIndex) Bytes Bytes

/-- The writes of a batch on one of the instances. -/
abbrev ContentsBatch := List (WriteOp (ℕ × ColumnFamilyIndex) Bytes Bytes)

/-- The part of `Storage` that the Raft path uses. -/
structure Storage where
  dbId : ℕ
  /-- `db_instance_num`, the number of instances of the slot indexer. -/
  instanceNum : ℕ
  /-- How many instances are open: `insts.len()`. -/
  insts : ℕ
  /-- The column families of the instances. -/
  contents : Contents

/-- `Storage::validate_binlog`. -/
def validateBinlog (storage : Storage) (binlog : Binlog) : Except Error Unit :=
  if 2 ^ 32 ≤ storage.dbId then
    .error (.invalidFormat s!"Storage database ID {storage.dbId} exceeds the Raft format")
  else if binlog.dbId ≠ storage.dbId then
    .error (.invalidFormat
      s!"Binlog database {binlog.dbId} does not match storage database {storage.dbId}")
  else validateBinlogEntries binlog

/-- The write of an entry of a binlog. -/
def toWriteOp (instanceId : ℕ) (entry : BinlogEntry) :
    Except Error (WriteOp (ℕ × ColumnFamilyIndex) Bytes Bytes) :=
  match ColumnFamilyIndex.ofIdx entry.cfIdx with
  | none => .error (.redisErr s!"Invalid column family index: {entry.cfIdx}")
  | some cf =>
    match entry.opType with
    | .put =>
      match entry.value with
      | some value => .ok (.put (instanceId, cf) entry.key value)
      | none => .error (.invalidFormat "Put binlog entry must contain a value")
    | .delete => .ok (.delete (instanceId, cf) entry.key)
    | .noOp => .error (.invalidFormat "Normal Raft binlog cannot contain NoOp entries")

/-- The loop of `on_binlog_write`. -/
def buildBatch (instanceId : ℕ) : List BinlogEntry → Except Error ContentsBatch
  | [] => .ok []
  | entry :: entries =>
    match toWriteOp instanceId entry with
    | .error e => .error e
    | .ok op =>
      match buildBatch instanceId entries with
      | .error e => .error e
      | .ok ops => .ok (op :: ops)

/-- `Storage::on_binlog_write`, without the bookkeeping of log indexes. -/
def onBinlogWrite (storage : Storage) (binlog : Binlog) : Except Error Storage :=
  match validateBinlog storage binlog with
  | .error e => .error e
  | .ok () =>
    let instanceId := getInstanceId storage.instanceNum binlog.slotIdx
    if storage.insts ≤ instanceId then
      .error (.system
        s!"Storage instance {instanceId} is unavailable for slot {binlog.slotIdx}")
    else
      match buildBatch instanceId binlog.entries with
      | .error e => .error e
      | .ok batch => .ok { storage with contents := storage.contents.write batch }

/-! ### Valid binlogs -/

/-- All instances are open. -/
structure Storage.Open (storage : Storage) : Prop where
  pos : 0 < storage.instanceNum
  insts : storage.insts = storage.instanceNum

/-- The writes of a binlog, on the instance of its slot. -/
def Binlog.batch (instanceNum : ℕ) (binlog : Binlog) : ContentsBatch :=
  (buildBatch (getInstanceId instanceNum binlog.slotIdx) binlog.entries).toOption.getD []

/-- An encoded key has a user key only in a column family that exists. -/
theorem ofIdx_isSome_of_inferUserKey {cfIdx : ℕ} {encoded userKey : Bytes}
    (h : inferUserKey cfIdx encoded = .ok userKey) :
    ∃ cf, ColumnFamilyIndex.ofIdx cfIdx = some cf := by
  match cfIdx with
  | 0 | 1 | 2 | 3 | 4 | 5 | 6 => exact ⟨_, rfl⟩
  | n + 7 =>
    rw [inferUserKey, if_neg (by omega)] at h
    cases h

variable {slotIdx : ℕ}

theorem toWriteOp_of_checkEntry {entry : BinlogEntry}
    (h : checkEntry slotIdx entry = .ok ()) (instanceId : ℕ) :
    ∃ op, toWriteOp instanceId entry = .ok op := by
  obtain ⟨cfIdx, opType, key, value⟩ := entry
  rw [checkEntry] at h
  have hcf : ∀ {o : Except Error Unit} {f : Bytes → Except Error Unit},
      (match inferUserKey cfIdx key with
        | .error e => .error e
        | .ok userKey => f userKey) = o → o = .ok () →
      ∃ cf, ColumnFamilyIndex.ofIdx cfIdx = some cf := by
    intro o f ho hok
    rcases hkey : inferUserKey cfIdx key with e | userKey
    · rw [hkey, hok] at ho
      cases ho
    · exact ofIdx_isSome_of_inferUserKey hkey
  cases opType with
  | noOp => cases value <;> cases h
  | put =>
    cases value with
    | none => cases h
    | some value =>
      obtain ⟨cf, hcf⟩ := hcf h rfl
      exact ⟨.put (instanceId, cf) key value, by simp only [toWriteOp, hcf]⟩
  | delete =>
    cases value with
    | some value => cases h
    | none =>
      obtain ⟨cf, hcf⟩ := hcf h rfl
      exact ⟨.delete (instanceId, cf) key, by simp only [toWriteOp, hcf]⟩

theorem buildBatch_of_checkEntries {entries : List BinlogEntry}
    (h : checkEntries slotIdx entries = .ok ()) (instanceId : ℕ) :
    ∃ batch, buildBatch instanceId entries = .ok batch := by
  induction entries with
  | nil => exact ⟨[], rfl⟩
  | cons entry entries ih =>
    rw [checkEntries] at h
    rcases hentry : checkEntry slotIdx entry with e | u <;> rw [hentry] at h
    · cases h
    · obtain ⟨op, hop⟩ := toWriteOp_of_checkEntry hentry instanceId
      obtain ⟨ops, hops⟩ := ih h
      exact ⟨op :: ops, by simp only [buildBatch, hop, hops]⟩

/-- **Valid binlogs are applied.** The writes do not depend on the contents. -/
theorem onBinlogWrite_of_valid {storage : Storage} (hopen : storage.Open) {binlog : Binlog}
    (h : validateBinlog storage binlog = .ok ()) :
    onBinlogWrite storage binlog =
      .ok { storage with
        contents := storage.contents.write (binlog.batch storage.instanceNum) } := by
  have hentries : checkEntries binlog.slotIdx binlog.entries = .ok () := by
    rw [validateBinlog, validateBinlogEntries] at h
    split_ifs at h
    exact h
  obtain ⟨batch, hbatch⟩ := buildBatch_of_checkEntries hentries
    (getInstanceId storage.instanceNum binlog.slotIdx)
  have hinst : ¬storage.insts ≤ getInstanceId storage.instanceNum binlog.slotIdx := by
    rw [hopen.insts, not_le]
    exact Nat.mod_lt _ hopen.pos
  rw [onBinlogWrite, h]
  dsimp only
  rw [if_neg hinst, Binlog.batch, hbatch]
  rfl

end Kiwi.Raft
