import Kiwi.Lib.Reading
import Kiwi.Storage.Compaction
import Kiwi.Storage.Operations

/-!
# Reads that look at several rows

A read of a collection looks the meta value up and then the rows it wants. Without a snapshot every
point read and every iterator sees the database of its own moment. This module has such reads as
sequences of accesses: point reads, the creation of an iterator over the rows under a version, and
the creation of a snapshot. What is read from a snapshot is what was there when it was created, so
its reads are no accesses of their own.

`hgetall` creates a snapshot for its meta value, but its iterator does not use it. `hmget` and
`smismember` read everything from their snapshots.
-/

namespace Kiwi

variable {S α M : Type}

/-- An access to the database. -/
inductive Access (S : Type) [Score S] : Type → Type
  | metaValue (key : Bytes) : Access S (Option MetaValue)
  | element (k : DataKey ℕ) : Access S (Option Bytes)
  | setMember (k : DataKey Bytes) : Access S (Option Unit)
  /-- A member of a zset, for its score. -/
  | zsetMember (k : DataKey Bytes) : Access S (Option S)
  /-- An iterator over the fields of a hash. -/
  | fields (key : Bytes) (version : ℕ) : Access S (List (Bytes × Bytes))
  /-- An iterator over the members of a set. -/
  | members (key : Bytes) (version : ℕ) : Access S (List Bytes)
  /-- An iterator over the members of a zset by score. -/
  | scores (key : Bytes) (version : ℕ) : Access S (List (Zsets.ScoreMember S))
  | snapshot : Access S (Redis S)

section

variable [Score S]

/-- What an access finds. -/
def Access.look : {β : Type} → Access S β → Redis S → β
  | _, metaValue key, db => db.metaCF.get key
  | _, element k, db => db.listsDataCF.get k
  | _, setMember k, db => db.setsDataCF.get k
  | _, zsetMember k, db => db.zsetsDataCF.get k
  | _, fields key version, db => DataKey.rowsAt db.hashesDataCF key version
  | _, members key version, db => Sets.membersAt db key version
  | _, scores key version, db => Zsets.scoreRows db key version
  | _, snapshot, db => db

/-- The version under which an access looks. -/
def Access.version? : {β : Type} → Access S β → Option ℕ
  | _, metaValue _ => none
  | _, element k => some k.version
  | _, setMember k => some k.version
  | _, zsetMember k => some k.version
  | _, fields _ version => some version
  | _, members _ version => some version
  | _, scores _ version => some version
  | _, snapshot => none

/-- The version under which a reading looks next; `none` before it has found its collection, and at
its end. -/
def nextVersion : Reading (Access S) α → Option ℕ
  | .done _ => none
  | .access what _ => what.version?

/-! ### Meta values that were read -/

/-- The type check of a collection of the base layout. -/
def baseMetaOf (t : BaseType) (now : ℕ) (found : Option MetaValue) :
    Except Error (Option BaseMetaValue) :=
  match found.filter fun m ↦ !m.isStale now with
  | none => .ok none
  | some (.base m) => if m.dataType = t then .ok (some m) else .error wrongTypeError
  | some _ => .error wrongTypeError

/-- The type check of a list. -/
def listMetaOf (now : ℕ) (found : Option MetaValue) : Except Error (Option ListsMetaValue) :=
  match found.filter fun m ↦ !m.isStale now with
  | none => .ok none
  | some (.list m) => .ok (some m)
  | some _ => .error wrongTypeError

theorem baseMetaOf_get (db : Redis S) (t : BaseType) (key : Bytes) (now : ℕ) :
    baseMetaOf t now (db.metaCF.get key) = db.baseMeta t key now := rfl

/-- The reading after the type check: an error, the answer for a missing key, or what is done with
the meta value. -/
def afterCheck (checked : Except Error (Option M)) (missing : α)
    (next : M → Reading (Access S) (Except Error α)) : Reading (Access S) (Except Error α) :=
  match checked with
  | .error e => .done (.error e)
  | .ok none => .done (.ok missing)
  | .ok (some m) => next m

/-! ### The reads -/

def Reads.lindex (key : Bytes) (index : ℤ) (now : ℕ) :
    Reading (Access S) (Except Error (Option Bytes)) :=
  .access (.metaValue key) fun found ↦
    afterCheck (listMetaOf now found) none fun m ↦
      let i := Lists.realIndex m index
      if Lists.inBounds m i then
        .access (.element (Lists.elementKey key m.version m.leftIndex (asU64 i))) fun x ↦
          .done (.ok x)
      else .done (.ok none)

/-- The elements at the keys, one point read after the other. -/
def Reads.elements (acc : List Bytes) :
    List (DataKey ℕ) → Reading (Access S) (Except Error (List Bytes))
  | [] => .done (.ok acc)
  | k :: ks => .access (.element k) fun x ↦ elements (acc ++ x.toList) ks

/-- The keys of the elements in a range of offsets. -/
def Reads.rangeKeys (key : Bytes) (m : ListsMetaValue) (start stop : ℤ) : List (DataKey ℕ) :=
  let len := asI64 m.count
  let start := Lists.realStart len start
  let stop := Lists.realStop len stop
  if start > stop ∨ start ≥ len then []
  else (List.range (stop - start + 1).toNat).map fun (i : ℕ) ↦
    Lists.elementKey key m.version m.leftIndex (asU64 (start + i))

def Reads.lrange (key : Bytes) (start stop : ℤ) (now : ℕ) :
    Reading (Access S) (Except Error (List Bytes)) :=
  .access (.metaValue key) fun found ↦
    afterCheck (listMetaOf now found) [] fun m ↦ elements [] (rangeKeys key m start stop)

def Reads.smembers (key : Bytes) (now : ℕ) : Reading (Access S) (Except Error (List Bytes)) :=
  .access (.metaValue key) fun found ↦
    afterCheck (baseMetaOf .set now found) [] fun m ↦
      .access (.members key m.version) fun members ↦ .done (.ok (members.map fromUtf8Lossy))

def Reads.sismember (key member : Bytes) (now : ℕ) : Reading (Access S) (Except Error Bool) :=
  .access (.metaValue key) fun found ↦
    afterCheck (baseMetaOf .set now found) false fun m ↦
      .access (.setMember ⟨key, m.version, member⟩) fun x ↦ .done (.ok x.isSome)

def Reads.smismember (key : Bytes) (members : List Bytes) (now : ℕ) :
    Reading (Access S) (Except Error (List Bool)) :=
  .access .snapshot fun snapshot ↦
    afterCheck (baseMetaOf .set now (snapshot.metaCF.get key)) (members.map fun _ ↦ false) fun m ↦
      .done (.ok (members.map fun x ↦ Sets.hasMember snapshot key m.version x))

def Reads.hgetall (key : Bytes) (now : ℕ) :
    Reading (Access S) (Except Error (List (Bytes × Bytes))) :=
  .access .snapshot fun snapshot ↦
    afterCheck (baseMetaOf .hash now (snapshot.metaCF.get key)) [] fun m ↦
      .access (.fields key m.version) fun fields ↦
        .done (.ok (fields.map fun r ↦ (fromUtf8Lossy r.1, fromUtf8Lossy r.2)))

def Reads.hmget (key : Bytes) (fields : List Bytes) (now : ℕ) :
    Reading (Access S) (Except Error (List (Option Bytes))) :=
  .access .snapshot fun snapshot ↦
    afterCheck (baseMetaOf .hash now (snapshot.metaCF.get key)) (fields.map fun _ ↦ none) fun m ↦
      .done (.ok (fields.map fun f ↦
        (snapshot.hashesDataCF.get ⟨key, m.version, f⟩).map fromUtf8Lossy))

def Reads.zrange (key : Bytes) (start stop : ℤ) (withScores : Bool) (now : ℕ) :
    Reading (Access S) (Except Error (List Bytes)) :=
  .access (.metaValue key) fun found ↦
    afterCheck (baseMetaOf .zset now found) [] fun m ↦
      .access (.scores key m.version) fun rows ↦
        .done (.ok (Zsets.listing withScores (Zsets.rankRange rows m start stop)))

def Reads.zrangebyscore (key : Bytes) (minScore maxScore : S) (withScores : Bool)
    (offset count : Option ℤ) (now : ℕ) : Reading (Access S) (Except Error (List Bytes)) :=
  .access (.metaValue key) fun found ↦
    afterCheck (baseMetaOf .zset now found) [] fun m ↦
      .access (.scores key m.version) fun rows ↦
        .done (.ok (Zsets.listing withScores
          (Zsets.limited offset count (Zsets.scoreRange rows minScore maxScore))))

def Reads.zscore (key member : Bytes) (now : ℕ) :
    Reading (Access S) (Except Error (Option Bytes)) :=
  .access (.metaValue key) fun found ↦
    afterCheck (baseMetaOf .zset now found) none fun m ↦
      .access (.zsetMember ⟨key, m.version, member⟩) fun x ↦ .done (.ok (x.map Score.format))

/-- A read that looks at several rows, with an answer of type `α`. -/
inductive MultiRead (S : Type) : Type → Type
  | lindex (key : Bytes) (index : ℤ) : MultiRead S (Option Bytes)
  | lrange (key : Bytes) (start stop : ℤ) : MultiRead S (List Bytes)
  | smembers (key : Bytes) : MultiRead S (List Bytes)
  | sismember (key member : Bytes) : MultiRead S Bool
  | smismember (key : Bytes) (members : List Bytes) : MultiRead S (List Bool)
  | zrange (key : Bytes) (start stop : ℤ) (withScores : Bool) : MultiRead S (List Bytes)
  | zrangebyscore (key : Bytes) (minScore maxScore : S) (withScores : Bool)
      (offset count : Option ℤ) : MultiRead S (List Bytes)
  | zscore (key member : Bytes) : MultiRead S (Option Bytes)
  | hgetall (key : Bytes) : MultiRead S (List (Bytes × Bytes))
  | hmget (key : Bytes) (fields : List Bytes) : MultiRead S (List (Option Bytes))

namespace MultiRead

/-- The key that is read. -/
def key : MultiRead S α → Bytes
  | lindex key _ | lrange key _ _ | smembers key | sismember key _ | smismember key _
  | zrange key _ _ _ | zrangebyscore key _ _ _ _ _ | zscore key _ | hgetall key | hmget key _ => key

/-- The accesses of a read at a reading of the clock. -/
def reading (now : ℕ) : MultiRead S α → Reading (Access S) (Except Error α)
  | lindex key index => Reads.lindex key index now
  | lrange key start stop => Reads.lrange key start stop now
  | smembers key => Reads.smembers key now
  | sismember key member => Reads.sismember key member now
  | smismember key members => Reads.smismember key members now
  | zrange key start stop withScores => Reads.zrange key start stop withScores now
  | zrangebyscore key minScore maxScore withScores offset count =>
    Reads.zrangebyscore key minScore maxScore withScores offset count now
  | zscore key member => Reads.zscore key member now
  | hgetall key => Reads.hgetall key now
  | hmget key fields => Reads.hmget key fields now

/-- What a read answers alone. -/
def answer (db : Redis S) (now : ℕ) : MultiRead S α → Except Error α
  | lindex key index => Lists.lindex db key index now
  | lrange key start stop => Lists.lrange db key start stop now
  | smembers key => Sets.smembers db key now
  | sismember key member => Sets.sismember db key member now
  | smismember key members => Sets.smismember db key members now
  | zrange key start stop withScores => Zsets.zrange db key start stop withScores now
  | zrangebyscore key minScore maxScore withScores offset count =>
    Zsets.zrangebyscore db key minScore maxScore withScores offset count now
  | zscore key member => Zsets.zscore db key member now
  | hgetall key => Hashes.hgetall db key now
  | hmget key fields => Hashes.hmget db key fields now

end MultiRead

end

end Kiwi
