import Kiwi.Lib.Script
import Kiwi.Raft.Binlog
import Kiwi.Storage.Operations

/-!
# Binlog batches

In a cluster an operation collects its writes in a `BinlogBatch`. Its commit infers the slot of the
batch from the encoded keys, and hands the writes to `append_log_fn` as a binlog; without a cluster
a `RocksBatch` writes them to the instance at once. This module has the encoded keys of all column
families that operations write to, both commits, and operations as scripts that run against either.

What an operation sees of the stored bytes is a parameter (`view`), and so are the bytes of data
values and of scores (`RowCodec`): both commits get the same.
-/

namespace Kiwi.Raft

variable {S α : Type}

/-! ### Encoded entries -/

/-- How scores and data values are stored. -/
structure RowCodec (S : Type) where
  /-- `f64::to_bits`. -/
  toBits : S → ℕ
  /-- The value of a field of a hash. -/
  field : Bytes → Bytes
  /-- The value of a member of a set. -/
  setMember : Bytes
  /-- The value of an element of a list. -/
  element : Bytes → Bytes
  /-- The value of a member of a zset. -/
  zsetMember : S → Bytes
  /-- The value of a row of the score index. -/
  scoreMember : Bytes

/-- The number of a column family. -/
def ColumnFamilyIndex.idx : ColumnFamilyIndex → ℕ
  | metaCF => 0
  | hashesDataCF => 1
  | setsDataCF => 2
  | listsDataCF => 3
  | zsetsDataCF => 4
  | zsetsScoreCF => 5
  | vectorDataCF => 6

/-- The column family of a write. -/
def cfOf : Kiwi.Entry S → ColumnFamilyIndex
  | .metaCF .. => .metaCF
  | .hashesDataCF .. => .hashesDataCF
  | .setsDataCF .. => .setsDataCF
  | .listsDataCF .. => .listsDataCF
  | .zsetsDataCF .. => .zsetsDataCF
  | .zsetsScoreCF .. => .zsetsScoreCF

/-- `BaseMetaKey`, `MemberDataKey`, `ListsDataKey` and `ZSetsScoreKey`. -/
def physicalKey (codec : RowCodec S) : Kiwi.Entry S → Bytes
  | .metaCF key _ => encodedKey key []
  | .hashesDataCF k _ | .setsDataCF k _ | .zsetsDataCF k _ =>
    encodedKey k.key (MetaValue.leBytes 8 k.version ++ k.data)
  | .listsDataCF k _ => encodedKey k.key (MetaValue.leBytes 8 k.version ++ MetaValue.leBytes 8 k.data)
  | .zsetsScoreCF k _ =>
    let (score, member) := ofLex k.data
    encodedKey k.key
      (MetaValue.leBytes 8 k.version ++ (MetaValue.leBytes 8 (codec.toBits score) ++ member))

/-- The stored value; `none` for a delete. -/
def physicalValue (codec : RowCodec S) : Kiwi.Entry S → Option Bytes
  | .metaCF _ value => value.map MetaValue.encode
  | .hashesDataCF _ value => value.map codec.field
  | .setsDataCF _ value => value.map fun _ ↦ codec.setMember
  | .listsDataCF _ value => value.map codec.element
  | .zsetsDataCF _ value => value.map codec.zsetMember
  | .zsetsScoreCF _ value => value.map fun _ ↦ codec.scoreMember

/-- `BinlogBatch::put` and `BinlogBatch::delete`. -/
def toBinlogEntry (codec : RowCodec S) (e : Kiwi.Entry S) : BinlogEntry where
  cfIdx := (cfOf e).idx
  opType := if (physicalValue codec e).isSome then .put else .delete
  key := physicalKey codec e
  value := physicalValue codec e

/-- `RocksBatch::put` and `RocksBatch::delete`. -/
def toRocks (codec : RowCodec S) (instanceId : ℕ) (e : Kiwi.Entry S) :
    WriteOp (ℕ × ColumnFamilyIndex) Bytes Bytes :=
  match physicalValue codec e with
  | some value => .put (instanceId, cfOf e) (physicalKey codec e) value
  | none => .delete (instanceId, cfOf e) (physicalKey codec e)

/-! ### Commits -/

/-- Errors of operations and of commits. -/
inductive WriteError
  | batch (message : String)
  | other (e : Error)
  deriving DecidableEq

/-- `BinlogBatch::infer_slot_idx`, with the slot of the entries before. -/
def inferSlotIdx : Option ℕ → List BinlogEntry → Except WriteError ℕ
  | none, [] => .error (.batch "Cannot infer slot for empty binlog batch")
  | some slot, [] => .ok slot
  | inferred, entry :: entries =>
    match inferUserKey entry.cfIdx entry.key with
    | .error e => .error (.other e)
    | .ok userKey =>
      let slot := keyToSlotId userKey
      match inferred with
      | none => inferSlotIdx (some slot) entries
      | some existing =>
        if existing ≠ slot then
          .error (.batch
            s!"CROSSSLOT binlog batch contains multiple slots: {existing} and {slot}")
        else inferSlotIdx (some existing) entries

/-- `BinlogBatch::commit`, with `append_log_fn` and the state that it works on. -/
def binlogCommit {T : Type} (appendLogFn : Binlog → T → Except WriteError T)
    (entries : List BinlogEntry) (t : T) : Except WriteError T :=
  if entries = [] then .ok t
  else
    match inferSlotIdx none entries with
    | .error e => .error e
    | .ok slotIdx => appendLogFn ⟨0, slotIdx, entries⟩ t

/-- An `append_log_fn` that applies a binlog at once. -/
def applyNow (binlog : Binlog) (storage : Storage) : Except WriteError Storage :=
  (onBinlogWrite storage binlog).mapError .other

/-- The commit of a batch through a `BinlogBatch`. -/
def commitBinlog (codec : RowCodec S) (b : Batch S) (storage : Storage) :
    Except WriteError Storage :=
  binlogCommit applyNow (b.map (toBinlogEntry codec)) storage

/-- The commit of a batch of an instance through a `RocksBatch`. -/
def commitRocks (codec : RowCodec S) (instanceId : ℕ) (b : Batch S) (storage : Storage) :
    Except WriteError Storage :=
  .ok { storage with contents := storage.contents.write (b.map (toRocks codec instanceId)) }

/-! ### Operations on one key -/

/-- The key of a string or keyspace operation that writes one key. -/
def stringWrittenKey? : Strings.Operation S α → Option Bytes
  | .setKeyEtime key _ | .delKey key | .setrangeWithOutcome key .. | .setrange key ..
  | .append key _ | .set key _ | .setex key .. | .psetex key .. | .setnx key _ | .getset key _
  | .incrDecr key _ | .incrDecrFloat key _ | .setbit key .. => some key
  | _ => none

/-- The key of a list operation that writes one key. -/
def listWrittenKey? : Lists.Operation α → Option Bytes
  | .lpush key _ | .rpush key _ | .lpushx key _ | .rpushx key _ | .lpop key _ | .rpop key _
  | .lset key .. | .ltrim key .. | .lrem key .. | .linsert key .. => some key
  | _ => none

/-- The key of a hash operation that writes one key. -/
def hashWrittenKey? : Hashes.Operation S α → Option Bytes
  | .hsetWithOutcome key .. | .hset key .. | .hsetnx key .. | .hincrby key .. | .hincrbyfloat key ..
  | .hmset key _ | .hdel key _ => some key
  | _ => none

/-- The key of a set operation that writes one key. -/
def setWrittenKey? : Sets.Operation α → Option Bytes
  | .sadd key _ | .srem key _ | .spop _ key _ => some key
  | _ => none

/-- The key of a zset operation that writes one key. -/
def zsetWrittenKey? : Zsets.Operation S α → Option Bytes
  | .zadd key _ | .zincrby key .. | .zrem key _ | .zremrangebylex key .. | .zremrangebyrank key ..
  | .zremrangebyscore key .. => some key
  | _ => none

/-- The key of an operation that writes one key. -/
def writtenKey? : Operation S α → Option Bytes
  | .string o => stringWrittenKey? o
  | .list o => listWrittenKey? o
  | .hash o => hashWrittenKey? o
  | .set o => setWrittenKey? o
  | .zset o => zsetWrittenKey? o

/-- An operation as a script. -/
abbrev OpScript (S α : Type) [LinearOrder S] := Script (Redis S) (Batch S) Error α

section

variable [LinearOrder S] (codec : RowCodec S) (view : Contents → ℕ → Redis S)

/-- An operation in an instance, with `RocksBatch`. -/
def runRocks (instanceId : ℕ) (sc : OpScript S α) (storage : Storage) :
    Except WriteError α × Storage :=
  sc.runWith (fun storage ↦ view storage.contents instanceId) (commitRocks codec instanceId)
    WriteError.other storage

/-- An operation in an instance, with `BinlogBatch`. -/
def runBinlog (instanceId : ℕ) (sc : OpScript S α) (storage : Storage) :
    Except WriteError α × Storage :=
  sc.runWith (fun storage ↦ view storage.contents instanceId) (commitBinlog codec)
    WriteError.other storage

end

end Kiwi.Raft
