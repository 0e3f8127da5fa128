import Kiwi.Lib.Commits
import Kiwi.Storage.Compaction
import Kiwi.Storage.Operations

/-!
# What operations write

An operation reads through the live meta values of keys and from rows under the versions of those;
then it commits one batch. `EditBatch` says what can be in the batch: meta values and rows of the
keys that the operation names, where a meta value is a string, or a collection under a fresh
version, or the live collection of its key under its version and expiry time, and rows are under
such versions. What the expiry time of a string or a new collection is depends on the operation
(`Rule`).

Two databases that are the same as far as operations can see (`SameView`) are given the same batch
and the same answer. The modules beside this one go through the operations; what follows for failed
operations, expiry times, the writes of a cluster and compaction is derived from that.

Four operations are not of this form. `rpoplpush` commits twice, `hscan` stores a cursor,
`set_key_etime` changes an expiry time in place, and a zset store clears its destination by a meta
value that may be stale.
-/

namespace Kiwi.Expiry

variable {S α : Type}

/-- The expiry time of a key; `0` if it has none or there is no such key. -/
def expiry [LinearOrder S] (db : Redis S) (key : Bytes) (now : ℕ) : ℕ :=
  (Strings.keyEtime db key now).getD 0

/-! ### Rules -/

/-- What an operation does to expiry times. -/
inductive Rule
  /-- It keeps those of the keys it names. -/
  | keeps (names : List Bytes)
  /-- It overwrites the keys it names. -/
  | resets (targets : List Bytes)
  | sets (names : List Bytes)

/-- The rule of a string or keyspace operation. -/
def stringRule : Strings.Operation S α → Rule
  | .setKeyEtime key _ | .setex key _ _ | .psetex key _ _ => .sets [key]
  | .set key _ | .getset key _ | .bitop _ key _ => .resets [key]
  | .mset kvs => .resets (kvs.map Prod.fst)
  | .msetnx kvs => .keeps (kvs.map Prod.fst)
  | .delKey key | .setrangeWithOutcome key _ _ | .setrange key _ _ | .append key _ | .setnx key _
  | .incrDecr key _ | .incrDecrFloat key _ | .setbit key _ _ => .keeps [key]
  | _ => .keeps []

/-- The rule of a list operation. -/
def listRule : Lists.Operation α → Rule
  | .lpush key _ | .rpush key _ | .lpushx key _ | .rpushx key _ | .lpop key _ | .rpop key _
  | .lset key _ _ | .ltrim key _ _ | .lrem key _ _ | .linsert key _ _ _ => .keeps [key]
  | .rpoplpush source destination => .keeps [source, destination]
  | _ => .keeps []

/-- The rule of a hash operation. -/
def hashRule : Hashes.Operation S α → Rule
  | .hsetWithOutcome key _ _ | .hset key _ _ | .hsetnx key _ _ | .hincrby key _ _
  | .hincrbyfloat key _ _ | .hmset key _ | .hdel key _ => .keeps [key]
  | _ => .keeps []

/-- The rule of a set operation. -/
def setRule : Sets.Operation α → Rule
  | .sadd key _ | .srem key _ | .spop _ key _ => .keeps [key]
  | .smove source destination _ => .keeps [source, destination]
  | .sdiffstore destination _ | .sinterstore destination _ | .sunionstore destination _ =>
    .resets [destination]
  | _ => .keeps []

/-- The rule of a zset operation. -/
def zsetRule : Zsets.Operation S α → Rule
  | .zadd key _ | .zincrby key _ _ | .zrem key _ | .zremrangebylex key _ _
  | .zremrangebyrank key _ _ | .zremrangebyscore key _ _ => .keeps [key]
  | .zinterstore destination _ _ _ | .zunionstore destination _ _ _ => .resets [destination]
  | _ => .keeps []

/-- The rule of an operation. -/
def rule : Operation S α → Rule
  | .string o => stringRule o
  | .list o => listRule o
  | .hash o => hashRule o
  | .set o => setRule o
  | .zset o => zsetRule o

/-! ### Expiry times that are read -/

variable [LinearOrder S] {db : Redis S} {key : Bytes} {now : ℕ}

theorem expiry_of_liveMeta {m : MetaValue} (h : db.liveMeta key now = some m) :
    expiry db key now = m.etime := by
  rw [expiry, Strings.keyEtime, h]
  rfl

theorem expiry_of_liveMeta_none (h : db.liveMeta key now = none) : expiry db key now = 0 := by
  rw [expiry, Strings.keyEtime, h]
  rfl

theorem expiry_of_baseMeta_none {t : BaseType} (h : db.baseMeta t key now = .ok none) :
    expiry db key now = 0 := expiry_of_liveMeta_none (Redis.baseMeta_eq_ok_none_iff.1 h)

theorem expiry_of_listMeta {m : ListsMetaValue} (h : db.listMeta key now = .ok (some m)) :
    expiry db key now = m.etime := expiry_of_liveMeta (Redis.listMeta_eq_ok_some_iff.1 h)

theorem expiry_of_listMeta_none (h : db.listMeta key now = .ok none) : expiry db key now = 0 :=
  expiry_of_liveMeta_none (Redis.listMeta_eq_ok_none_iff.1 h)

theorem expiry_of_stringValue {o : Option StringsValue} (h : db.stringValue key now = .ok o) :
    expiry db key now = (o.map StringsValue.etime).getD 0 := by
  rw [Redis.stringValue] at h
  rcases hm : db.liveMeta key now with _ | (v | m | m) <;> rw [hm] at h
  · obtain rfl := Except.ok.inj h
    exact expiry_of_liveMeta_none hm
  · obtain rfl := Except.ok.inj h
    exact expiry_of_liveMeta hm
  · cases h
  · cases h

theorem expiry_of_existing {old : StringsValue} (h : Strings.existing db key now = .ok old) :
    expiry db key now = old.etime := by
  rw [Strings.existing] at h
  rcases hv : db.stringValue key now with e | o <;> rw [hv] at h
  · cases h
  · obtain rfl := Except.ok.inj h
    rw [expiry_of_stringValue hv]
    rcases o with _ | v <;> rfl

end Kiwi.Expiry

namespace Kiwi.Edits

open Program Expiry

variable {S α β : Type} [LinearOrder S]

/-! ### Batches -/

/-- A version that a new collection gets, or one that the live collection of a key moves to. -/
def FreshVersion (now : ℕ) (a : Redis S) (key : Bytes) (v : ℕ) : Prop :=
  v = updateVersion 0 now ∨ ∃ m, a.liveMeta key now = some m ∧ v = updateVersion m.version now

/-- Such a version, or that of the live collection. -/
def RowVersion (now : ℕ) (a : Redis S) (key : Bytes) (v : ℕ) : Prop :=
  FreshVersion now a key v ∨ ∃ m, a.liveMeta key now = some m ∧ v = m.version

/-- What operations write as the meta value of a key; `E` is about its expiry time. -/
inductive EditMeta (E : Bytes → MetaValue → Prop) (now : ℕ) (a : Redis S) (key : Bytes)
    (m : MetaValue) : Prop
  | string (type : m.dataType = .string) (etime : E key m)
  /-- A collection that is created or moves to another version. -/
  | fresh (version : FreshVersion now a key m.version) (etime : E key m)
  /-- What deletion leaves of a collection. -/
  | emptied (version : FreshVersion now a key m.version) (stale : m.isStale now = true)
  /-- A collection that is updated in place. -/
  | inPlace {m₀ : MetaValue} (live : a.liveMeta key now = some m₀)
      (version : m.version = m₀.version) (type : m.dataType = m₀.dataType)
      (etime : m.etime = m₀.etime)

/-- A batch of what operations write, to named keys. -/
abbrev EditBatch (E : Bytes → MetaValue → Prop) (names : List Bytes) (now : ℕ) (a : Redis S)
    (w : Batch S) : Prop := Meets names (EditMeta E now a) (RowVersion now a) w

/-- The expiry time is the one that the key has. -/
abbrev Kept (now : ℕ) (a : Redis S) (key : Bytes) (m : MetaValue) : Prop :=
  m.etime = expiry a key now

/-- The batches that go with a rule. -/
def Writes (r : Rule) (now : ℕ) (a : Redis S) (w : Batch S) : Prop :=
  match r with
  | .keeps names => EditBatch (Kept now a) names now a w
  | .resets targets => EditBatch (fun _ m ↦ m.etime = 0) targets now a w
  | .sets names => EditBatch (fun _ _ ↦ True) names now a w

variable {E : Bytes → MetaValue → Prop} {now : ℕ} {a b : Redis S} {key : Bytes} {t : BaseType}

section

variable (now : ℕ) (a : Redis S) (key : Bytes)

theorem freshVersion_zero : FreshVersion now a key (updateVersion 0 now) := Or.inl rfl

theorem rowVersion_zero : RowVersion now a key (updateVersion 0 now) := Or.inl (Or.inl rfl)

end

variable {m : BaseMetaValue}

section

variable (hm : a.baseMeta t key now = .ok (some m))

include hm

theorem rowVersion_of_baseMeta :
    RowVersion now a key m.version := Or.inr ⟨_, (Redis.baseMeta_eq_ok_some_iff.1 hm).1, rfl⟩

theorem editMeta_setCount (count : ℕ) : EditMeta E now a key (.base (m.setCount count)) :=
  .inPlace (Redis.baseMeta_eq_ok_some_iff.1 hm).1 rfl rfl rfl

end

/-! ### Databases that look the same -/

/-- The databases have the same live meta values, and the same rows where operations look. -/
structure SameView (now : ℕ) (a b : Redis S) : Prop where
  liveMeta : ∀ key, a.liveMeta key now = b.liveMeta key now
  current : ∀ (r : Row S) {m : MetaValue}, a.liveMeta r.key now = some m →
    m.dataType = r.dataType → m.version = r.version → a.lookup r = b.lookup r
  /-- The rows under the version of new collections. -/
  fresh : ∀ r : Row S, r.version = updateVersion 0 now → a.lookup r = b.lookup r

namespace SameView

theorem refl (now : ℕ) (a : Redis S) : SameView now a a :=
  ⟨fun _ ↦ rfl, fun _ _ _ _ _ ↦ rfl, fun _ _ ↦ rfl⟩

variable (h : SameView now a b)
include h

theorem lookup_of_base {r : Row S}
    (hm : a.baseMeta t r.key now = .ok (some m)) (ht : t.toDataType = r.dataType)
    (hv : m.version = r.version) : a.lookup r = b.lookup r := by
  obtain ⟨hlive, hmt⟩ := Redis.baseMeta_eq_ok_some_iff.1 hm
  exact h.current r hlive ((congrArg BaseType.toDataType hmt).trans ht) hv

variable (t : BaseType) (key : Bytes)

theorem baseMeta : a.baseMeta t key now = b.baseMeta t key now := by
  rw [Redis.baseMeta, Redis.baseMeta, h.liveMeta]

theorem validMeta : a.validMeta t key now = b.validMeta t key now := by
  rw [Redis.validMeta, Redis.validMeta, h.baseMeta]

theorem listMeta : a.listMeta key now = b.listMeta key now := by
  rw [Redis.listMeta, Redis.listMeta, h.liveMeta]

theorem stringValue : a.stringValue key now = b.stringValue key now := by
  rw [Redis.stringValue, Redis.stringValue, h.liveMeta]

theorem bindList {f g : Option ListsMetaValue → Except Error α} (hnone : f none = g none)
    (hsome : ∀ m, a.listMeta key now = .ok (some m) → f (some m) = g (some m)) :
    (a.listMeta key now >>= f) = (b.listMeta key now >>= g) := by
  rw [← h.listMeta]
  rcases hm : a.listMeta key now with e | (_ | m)
  · rfl
  · exact hnone
  · exact hsome m hm

variable {f g : Option BaseMetaValue → Except Error α} (hnone : f none = g none)
  (hsome : ∀ m, a.baseMeta t key now = .ok (some m) → f (some m) = g (some m))

include hnone hsome

theorem bindBase : (a.baseMeta t key now >>= f) = (b.baseMeta t key now >>= g) := by
  rw [← h.baseMeta]
  rcases hm : a.baseMeta t key now with e | (_ | m)
  · rfl
  · exact hnone
  · exact hsome m hm

theorem bindValid : (a.validMeta t key now >>= f) = (b.validMeta t key now >>= g) := by
  rw [Redis.validMeta_eq_baseMeta, Redis.validMeta_eq_baseMeta]
  exact h.bindBase t key hnone hsome

end SameView

/-! ### Operations -/

/-- The operation gives the same answer on both sides and commits the same batch, one that `P`
holds of, or none. -/
abbrev CommitsOne (P : Batch S → Prop) (a b : Redis S) (p q : Op S α) : Prop :=
  Commits Redis.write (fun _ ↦ P) a b p q

/-- The operation is the same on both sides, and what it commits is a batch of edits. -/
abbrev CommitsEdits (E : Bytes → MetaValue → Prop) (names : List Bytes) (now : ℕ)
    (a b : Redis S) (p : Op S α) : Prop := CommitsOne (EditBatch E names now a) a b p p

theorem commits_read {Q : α → Batch S → Prop} {f : Redis S → Except Error α} (h : f a = f b) :
    Commits Redis.write Q a b (read f) (read f) := commits_get_bind (commits_lift h)

end Kiwi.Edits
