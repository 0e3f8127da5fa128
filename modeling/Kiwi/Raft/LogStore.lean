import Kiwi.Bytes
import Kiwi.Lib.Database
import Mathlib.Logic.Encodable.Basic

/-!
# The Raft log store

`RocksdbLogStore` keeps the Raft log in three column families of a RocksDB of its own: `logs` has
one row per entry under the big-endian bytes of its index, `meta` the id of the last purged entry,
and `state` the vote and the committed id. Every writing call is one write batch (`Call.batch`), and
every reading call is a lookup or an iterator; `step` runs one call.

Values are stored as JSON. All that is used of that format is that reading back what was written
gives the same value, which a `Codec` carries as a field.

A missing column family and errors of RocksDB itself are not modelled: `RocksdbLogStore::new`
refuses a database without the three families.
-/

namespace Kiwi.Raft

/-! ### The types of openraft -/

/-- `openraft::LeaderId<u64>`. -/
structure LeaderId where
  term : ℕ
  nodeId : ℕ
deriving DecidableEq, Repr

/-- `openraft::LogId<u64>`. -/
structure LogId where
  /-- The leader that proposed the entry. -/
  leaderId : LeaderId
  index : ℕ
deriving DecidableEq, Repr

/-- `openraft::Vote<u64>`. -/
structure Vote where
  leaderId : LeaderId
  /-- Whether a quorum granted it. -/
  committed : Bool
deriving DecidableEq, Repr

/-- `openraft::Entry`, with payloads `P`. -/
structure Entry (P : Type) where
  logId : LogId
  payload : P
deriving DecidableEq, Repr

/-- The position of an entry. -/
abbrev Entry.index {P : Type} (e : Entry P) : ℕ := e.logId.index

/-- `std::ops::Bound<u64>`. -/
inductive Bound where
  | included (index : ℕ)
  | excluded (index : ℕ)
  | unbounded
deriving DecidableEq, Repr

/-- A pair of bounds, `RangeBounds<u64>`. -/
structure LogRange where
  startBound : Bound
  endBound : Bound
deriving DecidableEq, Repr

/-- `RangeBounds::contains`. -/
def LogRange.contains (range : LogRange) (index : ℕ) : Bool :=
  (match range.startBound with
    | .included start => decide (start ≤ index)
    | .excluded start => decide (start < index)
    | .unbounded => true) &&
  match range.endBound with
    | .included stop => decide (index ≤ stop)
    | .excluded stop => decide (index < stop)
    | .unbounded => true

/-! ### Codecs and keys -/

/-- A lossless serialisation format. -/
structure Codec (α : Type) where
  /-- `serialize`. -/
  encode : α → Bytes
  /-- `deserialize`. -/
  decode : Bytes → Option α
  /-- What was written is read back. -/
  decode_encode : ∀ a, decode (encode a) = some a

/-- A codec that writes the number of a value in unary. -/
def Codec.unary {α : Type} [Encodable α] : Codec α where
  encode a := List.replicate (Encodable.encode a) 0
  decode bytes := Encodable.decode bytes.length
  decode_encode a := by rw [List.length_replicate, Encodable.encodek]

/-- The formats of the values in the store. -/
structure Serde (P : Type) where
  entry : Codec (Entry P)
  vote : Codec Vote
  logId : Codec (Option LogId)

section Unary

/-- A structure is numbered as the tuple of its fields. -/
instance : Encodable LeaderId :=
  .ofLeftInverse (fun l ↦ (l.term, l.nodeId)) (fun p ↦ ⟨p.1, p.2⟩) fun _ ↦ rfl

instance : Encodable LogId :=
  .ofLeftInverse (fun l ↦ (l.leaderId, l.index)) (fun p ↦ ⟨p.1, p.2⟩) fun _ ↦ rfl

instance : Encodable Vote :=
  .ofLeftInverse (fun v ↦ (v.leaderId, v.committed)) (fun p ↦ ⟨p.1, p.2⟩) fun _ ↦ rfl

instance {P : Type} [Encodable P] : Encodable (Entry P) :=
  .ofLeftInverse (fun e ↦ (e.logId, e.payload)) (fun p ↦ ⟨p.1, p.2⟩) fun _ ↦ rfl

/-- Formats exist for every type of payloads that can be numbered. -/
def Serde.unary {P : Type} [Encodable P] : Serde P := ⟨.unary, .unary, .unary⟩

end Unary

/-- The errors of the store's own functions. -/
inductive StorageError where
  /-- `Invalid key length: expected 8 bytes, got n`. -/
  | invalidKeyLength (got : ℕ)
  /-- `serde_json` rejected a value. -/
  | invalidData
deriving DecidableEq, Repr

/-- `u64::MAX`. -/
def maxU64 : ℕ := 2 ^ 64 - 1

/-- The `width` low-order bytes of a number, most significant first. -/
def beBytes : ℕ → ℕ → Bytes
  | 0, _ => []
  | width + 1, n => UInt8.ofNat (n / 256 ^ width) :: beBytes width n

/-- The number of a big-endian byte string. -/
def ofBeBytes (bytes : Bytes) : ℕ := bytes.foldl (fun n b ↦ 256 * n + b.toNat) 0

def encodeLogKey (index : ℕ) : Bytes := beBytes 8 index

def decodeLogKey (key : Bytes) : Except StorageError ℕ :=
  if key.length ≠ 8 then .error (.invalidKeyLength key.length) else .ok (ofBeBytes key)

/-- `deserialize`, with its error. -/
def deserialize {α : Type} (codec : Codec α) (bytes : Bytes) : Except StorageError α :=
  match codec.decode bytes with
  | some a => .ok a
  | none => .error .invalidData

/-! ### The store -/

/-- The column families. -/
inductive LogCF where
  | logs
  /-- `meta`. -/
  | metadata
  | state
deriving DecidableEq, Repr

/-- The database of the store. -/
abbrev LogDb := Database LogCF Bytes Bytes

/-- A write batch of the store. -/
abbrev LogBatch := List (WriteOp LogCF Bytes Bytes)

/-- `LAST_PURGED_KEY`. -/
def lastPurgedKey : Bytes := "last_purged_log_id".toUTF8.data.toList

/-- `VOTE_KEY`. -/
def voteKey : Bytes := "vote".toUTF8.data.toList

/-- `COMMITTED_KEY`. -/
def committedKey : Bytes := "committed".toUTF8.data.toList

/-- `openraft::LogState`. -/
structure LogState where
  /-- The id of the last purged entry. -/
  lastPurgedLogId : Option LogId
  lastLogId : Option LogId
deriving DecidableEq, Repr

section Store

variable {P : Type} (serde : Serde P)

/-- The row of an entry. -/
def row (e : Entry P) : Bytes × Bytes := (encodeLogKey e.index, serde.entry.encode e)

def buildAppendBatch (entries : List (Entry P)) : LogBatch :=
  entries.map fun e ↦ .put .logs (encodeLogKey e.index) (serde.entry.encode e)

/-- The batch of `do_truncate`: the half-open range up to the largest key, and that key. -/
def truncateBatch (logId : LogId) : LogBatch :=
  [.deleteRange .logs (encodeLogKey logId.index) (encodeLogKey maxU64),
    .delete .logs (encodeLogKey maxU64)]

/-- The batch of `do_purge`. -/
def purgeBatch (logId : LogId) : LogBatch :=
  [.deleteRange .logs (encodeLogKey 0) (encodeLogKey (min (logId.index + 1) maxU64)),
    .put .metadata lastPurgedKey (serde.logId.encode (some logId))]

/-- The put of `do_save_vote`. -/
def saveVoteBatch (vote : Vote) : LogBatch := [.put .state voteKey (serde.vote.encode vote)]

/-- The put of `do_save_committed`. -/
def saveCommittedBatch (committed : Option LogId) : LogBatch :=
  [.put .state committedKey (serde.logId.encode committed)]

/-- The key at which `do_try_get_log_entries` starts, `none` for the empty range behind
`u64::MAX`. -/
def startKey : Bound → Option Bytes
  | .included index => some (encodeLogKey index)
  | .excluded index => if index + 1 ≤ maxU64 then some (encodeLogKey (index + 1)) else none
  | .unbounded => some (encodeLogKey 0)

/-- The loop of `do_try_get_log_entries` over the rows of an iterator. -/
def collectEntries (range : LogRange) : List (Bytes × Bytes) → Except StorageError (List (Entry P))
  | [] => .ok []
  | (key, value) :: rows => do
    let index ← decodeLogKey key
    if !range.contains index then
      return []
    let entry ← deserialize serde.entry value
    let entries ← collectEntries range rows
    return entry :: entries

/-- `do_try_get_log_entries`. -/
def tryGetLogEntries (db : LogDb) (range : LogRange) : Except StorageError (List (Entry P)) :=
  match startKey range.startBound with
  | none => .ok []
  | some start => collectEntries serde range ((db .logs).rows.dropWhile fun r ↦ r.1 < start)

/-- `do_read_vote`. -/
def readVote (db : LogDb) : Except StorageError (Option Vote) :=
  match (db .state).get voteKey with
  | none => .ok none
  | some bytes => do
    let vote ← deserialize serde.vote bytes
    return some vote

/-- `do_read_committed`. -/
def readCommitted (db : LogDb) : Except StorageError (Option LogId) :=
  match (db .state).get committedKey with
  | none => .ok none
  | some bytes => deserialize serde.logId bytes

/-- The last purged id as `do_get_log_state` reads it. -/
def readLastPurged (db : LogDb) : Except StorageError (Option LogId) :=
  match (db .metadata).get lastPurgedKey with
  | none => .ok none
  | some bytes => deserialize serde.logId bytes

/-- The id of the last row of the log. -/
def readLastEntry (db : LogDb) : Except StorageError (Option LogId) :=
  match (db .logs).rows.getLast? with
  | none => .ok none
  | some r => do
    let entry ← deserialize serde.entry r.2
    return some entry.logId

/-- `do_get_log_state`. -/
def getLogState (db : LogDb) : Except StorageError LogState := do
  let lastLogId ← readLastEntry serde db
  let lastPurgedLogId ← readLastPurged serde db
  return ⟨lastPurgedLogId, lastLogId.or lastPurgedLogId⟩

end Store

/-! ### Calls -/

/-- The calls of `RaftLogStorage` and `RaftLogReader`, and reopening the store. -/
inductive Call (P : Type) where
  | append (entries : List (Entry P))
  | truncate (logId : LogId)
  | purge (logId : LogId)
  | saveVote (vote : Vote)
  | saveCommitted (committed : Option LogId)
  | reopen
  | tryGetLogEntries (range : LogRange)
  | getLogState
  | readVote
  | readCommitted
deriving DecidableEq

/-- What calls return. -/
inductive Answer (P : Type) where
  | done
  | entries (entries : List (Entry P))
  | logState (state : LogState)
  | vote (vote : Option Vote)
  | committed (committed : Option LogId)
deriving DecidableEq

variable {P : Type} (serde : Serde P)

/-- The batch that a call writes. -/
def Call.batch : Call P → LogBatch
  | .append entries => buildAppendBatch serde entries
  | .truncate logId => truncateBatch logId
  | .purge logId => purgeBatch serde logId
  | .saveVote vote => saveVoteBatch serde vote
  | .saveCommitted committed => saveCommittedBatch serde committed
  | _ => []

/-- What a call returns. -/
def Call.answer (db : LogDb) : Call P → Except StorageError (Answer P)
  | .tryGetLogEntries range => (Raft.tryGetLogEntries serde db range).map .entries
  | .getLogState => (Raft.getLogState serde db).map .logState
  | .readVote => (Raft.readVote serde db).map .vote
  | .readCommitted => (Raft.readCommitted serde db).map .committed
  | _ => .ok .done

/-- One call of the store. A clean reopening finds the database as it was. -/
def step (db : LogDb) (call : Call P) : Except StorageError (Answer P) × LogDb :=
  (call.answer serde db, db.write (call.batch serde))

end Kiwi.Raft
