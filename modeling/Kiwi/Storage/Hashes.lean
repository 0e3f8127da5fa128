import Kiwi.Storage.Redis
import Kiwi.Storage.Glob

/-!
# Hash operations

The operations of `redis_hashes.rs`. `hset`, `hsetnx`, `hincrby` and `hincrbyfloat` are one
algorithm, `updateField`: create the hash when there is none, add the field when the hash lacks it,
and otherwise let the operation decide what to do with the value it found. They differ in the value
of a new field, in the answer, and in that decision.

Replies go through `from_utf8_lossy` in every read except `hscan`, which returns bytes.
-/

namespace Kiwi.Hashes

variable {S : Type} [LinearOrder S]

/-- A `HashMap` filled in order: a repeated key keeps its last value. -/
def fieldMap (fields : List (Bytes × Bytes)) : SortedMap Bytes Bytes :=
  fields.foldl (fun m r ↦ m.insert r.1 r.2) .empty

/-- Puts of fields under a version. -/
def putFields (key : Bytes) (version : ℕ) (fields : List (Bytes × Bytes)) : Batch S :=
  fields.map fun r ↦ .hashesDataCF ⟨key, version, r.1⟩ (some r.2)

variable {key : Bytes}

variable {M : Bytes → MetaValue → Prop} {R : Bytes → ℕ → Prop}

section

omit [LinearOrder S]

variable {version : ℕ}

variable {fields : List (Bytes × Bytes)}

@[simp] theorem metaWrites_putFields :
    (putFields key version fields : Batch S).filterMap Entry.metaWrite? = [] := by
  simp [putFields, List.filterMap_map, Function.comp_def]

@[simp] theorem hashWrites_putFields :
    (putFields key version fields : Batch S).filterMap Entry.hashWrite? =
      fields.map fun r ↦ (⟨key, version, r.1⟩, some r.2) := by
  simp [putFields, List.filterMap_map, Function.comp_def]

theorem meets_putFields (hR : R key version) (fields : List (Bytes × Bytes)) :
    Meets [key] M R (putFields key version fields : Batch S) := by
  intro e he
  obtain ⟨r, -, rfl⟩ := List.mem_map.1 he
  exact ⟨List.mem_singleton_self _, hR⟩

end

/-- `create_new_hash`: a fresh meta value and its fields. -/
def createNewHash (key : Bytes) (fields : List (Bytes × Bytes)) (now : ℕ) : Batch S :=
  let m := (BaseMetaValue.new .hash fields.length now).updateVersion now
  .metaCF key (some (.base m)) :: putFields key m.version fields

variable {now : ℕ}

omit [LinearOrder S] in
theorem meets_createNewHash
    (hM : ∀ n, M key (.base ((BaseMetaValue.new .hash n now).updateVersion now)))
    (hR : R key (updateVersion 0 now)) (fields : List (Bytes × Bytes)) :
    Meets [key] M R (createNewHash key fields now : Batch S) :=
  meets_put (hM _) (meets_putFields hR fields)

/-- What the operations do to a meta value that is not valid. The type check has already turned
stale keys away, so this branch is not taken; it is the only one that starts from the version that
is stored. -/
def reinitializeHash (key : Bytes) (m : BaseMetaValue) (fields : List (Bytes × Bytes)) (now : ℕ) :
    Batch S :=
  let m := (m.initialMetaValue now).setCount fields.length
  .metaCF key (some (.base m)) :: putFields key m.version fields

/-! ### Single-field updates -/

/-- Create, add or update one field. A missing hash or field gets the value `initial` and the
answer `onNew`; for a stored value, `onExisting` gives the value to put, if any, and the answer. -/
def updateField {α : Type} (key field initial : Bytes) (onNew : α)
    (onExisting : Bytes → Except Error (Option Bytes × α)) (now : ℕ) : Op S α := do
  let db ← get
  match ← db.baseMeta .hash key now with
  | none =>
    commit (createNewHash key [(field, initial)] now)
    return onNew
  | some m =>
    if !m.isValid now then
      commit (reinitializeHash key m [(field, initial)] now)
      return onNew
    else
      match db.hashesDataCF.get ⟨key, m.version, field⟩ with
      | some old =>
        let (value, answer) ← onExisting old
        match value with
        | none => return answer
        | some value =>
          commit (putFields key m.version [(field, value)])
          return answer
      | none =>
        if !m.checkModifyCount 1 then throw (.redisErr "hash size overflow")
        else
          commit (.metaCF key (some (.base (m.modifyCount 1)))
            :: putFields key m.version [(field, initial)])
          return onNew

variable {db : Redis S}

open Program in
/-- **Execution of a single-field update.** The branch for an invalid meta value is gone: the type
check has turned it away. -/
theorem exec_updateField {α : Type} (key field initial : Bytes) (onNew : α)
    (onExisting : Bytes → Except Error (Option Bytes × α)) :
    (updateField key field initial onNew onExisting now).exec db =
      match db.baseMeta .hash key now with
      | .error e => (.error e, db)
      | .ok none => (.ok onNew, db.write (createNewHash key [(field, initial)] now))
      | .ok (some m) =>
        match db.hashesDataCF.get ⟨key, m.version, field⟩ with
        | some old =>
          match onExisting old with
          | .error e => (.error e, db)
          | .ok (none, a) => (.ok a, db)
          | .ok (some v, a) => (.ok a, db.write (putFields key m.version [(field, v)]))
        | none =>
          if m.checkModifyCount 1 then
            (.ok onNew, db.write (.metaCF key (some (.base (m.modifyCount 1)))
              :: putFields key m.version [(field, initial)]))
          else (.error (.redisErr "hash size overflow"), db) := by
  rw [updateField, exec_get_bind]
  rcases h : db.baseMeta .hash key now with e | (_ | m)
  · rfl
  · rfl
  · have hv := Redis.isValid_of_liveMeta (Redis.baseMeta_eq_ok_some_iff.1 h).1
    rw [exec_lift_ok_bind]
    simp only [hv, Bool.not_true, Bool.false_eq_true, if_false]
    rcases db.hashesDataCF.get ⟨key, m.version, field⟩ with _ | old
    · cases m.checkModifyCount 1 <;> simp
    · rcases h' : onExisting old with e | ⟨_ | v, a⟩ <;> simp [h']

/-- `hset_with_outcome`: the number of fields added, and whether anything changed. -/
def hsetWithOutcome (key field value : Bytes) (now : ℕ) : Op S (ℤ × Bool) :=
  updateField key field value (1, true)
    (fun old ↦ if old = value then .ok (none, (0, false)) else .ok (some value, (0, true))) now

def hset (key field value : Bytes) (now : ℕ) : Op S ℤ := do
  let outcome ← hsetWithOutcome key field value now
  return outcome.1

def hsetnx (key field value : Bytes) (now : ℕ) : Op S ℤ :=
  updateField key field value 1 (fun _ ↦ .ok (none, 0)) now

def hincrby (key field : Bytes) (increment : ℤ) (now : ℕ) : Op S ℤ :=
  updateField key field (formatI64 increment) increment
    (fun old ↦
      match parseI64 (fromUtf8Lossy old) with
      | none => .error (.redisErr "hash value is not an integer")
      | some n =>
        match checkedAddI64 n increment with
        | none => .error (.optionNone "integer overflow")
        | some n => .ok (some (formatI64 n), n)) now

def hincrbyfloat {S : Type} [Score S] (key field : Bytes) (increment : S) (now : ℕ) : Op S S :=
  updateField key field (Score.format increment) increment
    (fun old ↦
      match Score.parse (fromUtf8Lossy old) with
      | none => .error (.redisErr "hash value is not a valid float")
      | some x =>
        let x : S := Score.add x increment
        if Score.isNan x || Score.isInfinite x then
          .error (.redisErr "increment would produce NaN or Infinity")
        else .ok (some (Score.format x), x)) now

/-! ### Several fields -/

/-- How many of the fields are not stored; the count is an `i32`. -/
def newFieldCount (db : Redis S) (key : Bytes) (version : ℕ) (fields : List (Bytes × Bytes)) : ℤ :=
  asI32 (fields.filter fun r ↦ (db.hashesDataCF.get ⟨key, version, r.1⟩).isNone).length

def hmset (key : Bytes) (fieldValues : List (Bytes × Bytes)) (now : ℕ) : Op S PUnit := do
  let db ← get
  let fields := (fieldMap fieldValues).rows
  match ← db.baseMeta .hash key now with
  | none => commit (createNewHash key fields now)
  | some m =>
    if !m.isValid now then commit (reinitializeHash key m fields now)
    else
      let n := newFieldCount db key m.version fields
      if n > 0 then
        if !m.checkModifyCount n.toNat then throw (.redisErr "hash size overflow")
        else
          commit (putFields key m.version fields
            ++ [.metaCF key (some (.base (m.modifyCount n.toNat)))])
      else commit (putFields key m.version fields)

open Program in
/-- **Execution of `hmset`.** -/
theorem exec_hmset (fieldValues : List (Bytes × Bytes)) :
    (hmset key fieldValues now).exec db =
      let fields := (fieldMap fieldValues).rows
      match db.baseMeta .hash key now with
      | .error e => (.error e, db)
      | .ok none => (.ok ⟨⟩, db.write (createNewHash key fields now))
      | .ok (some m) =>
        let n := newFieldCount db key m.version fields
        if n > 0 then
          if m.checkModifyCount n.toNat then
            (.ok ⟨⟩, db.write (putFields key m.version fields
              ++ [.metaCF key (some (.base (m.modifyCount n.toNat)))]))
          else (.error (.redisErr "hash size overflow"), db)
        else (.ok ⟨⟩, db.write (putFields key m.version fields)) := by
  rw [hmset, exec_get_bind]
  rcases h : db.baseMeta .hash key now with e | (_ | m)
  · rfl
  · rfl
  · have hv := Redis.isValid_of_liveMeta (Redis.baseMeta_eq_ok_some_iff.1 h).1
    rw [exec_lift_ok_bind]
    simp only [hv, Bool.not_true, Bool.false_eq_true, if_false]
    rw [exec_ite]
    cases m.checkModifyCount (newFieldCount db key m.version (fieldMap fieldValues).rows).toNat <;>
      rfl

/-- The fields that are stored, each once. -/
def storedOf (db : Redis S) (key : Bytes) (version : ℕ) (fields : List Bytes) : List Bytes :=
  (firstBy id fields).filter fun f ↦ (db.hashesDataCF.get ⟨key, version, f⟩).isSome

/-- The answer of `hdel`, which counts in an `i32`. -/
def deletedCount (stored : List Bytes) : ℤ := asI32 stored.length

/-- The batch of `hdel`. -/
def deleteFields (key : Bytes) (m : BaseMetaValue) (stored : List Bytes) (count : ℕ) : Batch S :=
  stored.map (fun f ↦ .hashesDataCF ⟨key, m.version, f⟩ none)
    ++ [.metaCF key (some (.base (m.setCount count)))]

/-- `hdel`. An emptied hash keeps its meta value, with count zero. -/
def hdel (key : Bytes) (fields : List Bytes) (now : ℕ) : Op S ℤ := do
  let db ← get
  match ← db.baseMeta .hash key now with
  | none => return 0
  | some m =>
    let stored := storedOf db key m.version fields
    let n := deletedCount stored
    if n > 0 then
      if n.toNat > m.count then throw (.redisErr "hash size underflow")
      else
        commit (deleteFields key m stored (m.count - n.toNat))
        return n
    else return n

open Program in
/-- **Execution of `hdel`.** -/
theorem exec_hdel (fields : List Bytes) :
    (hdel key fields now).exec db =
      match db.baseMeta .hash key now with
      | .error e => (.error e, db)
      | .ok none => (.ok 0, db)
      | .ok (some m) =>
        let stored := storedOf db key m.version fields
        let n := deletedCount stored
        if n > 0 then
          if n.toNat > m.count then (.error (.redisErr "hash size underflow"), db)
          else (.ok n, db.write (deleteFields key m stored (m.count - n.toNat)))
        else (.ok n, db) := by
  rw [hdel, exec_get_bind]
  rcases db.baseMeta .hash key now with e | (_ | m)
  · rfl
  · rfl
  · rw [exec_lift_ok_bind]
    dsimp only
    rw [exec_ite, exec_ite]
    rfl

/-! ### Reads -/

def hget (db : Redis S) (key field : Bytes) (now : ℕ) : Except Error (Option Bytes) := do
  match ← db.baseMeta .hash key now with
  | none => return none
  | some m => return (db.hashesDataCF.get ⟨key, m.version, field⟩).map fromUtf8Lossy

def hexists (db : Redis S) (key field : Bytes) (now : ℕ) : Except Error Bool := do
  return (← hget db key field now).isSome

def hstrlen (db : Redis S) (key field : Bytes) (now : ℕ) : Except Error ℤ := do
  match ← hget db key field now with
  | none => return 0
  | some value => return asI32 value.length

/-- The stored fields of a hash, in order. -/
def storedFields (db : Redis S) (key : Bytes) (now : ℕ) : Except Error (List (Bytes × Bytes)) := do
  match ← db.baseMeta .hash key now with
  | none => return []
  | some m => return DataKey.rowsAt db.hashesDataCF key m.version

def hgetall (db : Redis S) (key : Bytes) (now : ℕ) : Except Error (List (Bytes × Bytes)) := do
  return (← storedFields db key now).map fun r ↦ (fromUtf8Lossy r.1, fromUtf8Lossy r.2)

def hkeys (db : Redis S) (key : Bytes) (now : ℕ) : Except Error (List Bytes) := do
  return (← storedFields db key now).map fun r ↦ fromUtf8Lossy r.1

def hvals (db : Redis S) (key : Bytes) (now : ℕ) : Except Error (List Bytes) := do
  return (← storedFields db key now).map fun r ↦ fromUtf8Lossy r.2

def hlen (db : Redis S) (key : Bytes) (now : ℕ) : Except Error ℤ := do
  match ← db.baseMeta .hash key now with
  | none => return 0
  | some m => return asI32 m.count

def hmget (db : Redis S) (key : Bytes) (fields : List Bytes) (now : ℕ) :
    Except Error (List (Option Bytes)) := do
  match ← db.baseMeta .hash key now with
  | none => return fields.map fun _ ↦ none
  | some m =>
    return fields.map fun f ↦ (db.hashesDataCF.get ⟨key, m.version, f⟩).map fromUtf8Lossy

/-! ### Scanning -/

/-- The key of the cursor table: type, key, pattern and cursor, with their lengths. -/
def scanIndexKey (dataType : DataType) (key pattern : Bytes) (cursor : ℕ) : Bytes :=
  dataType.toByte :: MetaValue.leBytes 8 key.length ++ key ++ MetaValue.leBytes 8 pattern.length
    ++ pattern ++ MetaValue.leBytes 8 cursor

/-- `tail_wildcard_prefix`: the literal prefix of a pattern whose only special character is a final
star. -/
def tailWildcardPrefix (pattern : Bytes) : Option Bytes :=
  if pattern.length < 2 ∨ pattern.getLast? ≠ some 0x2A then none
  else if pattern.dropLast.any fun b ↦ b ∈ [0x2A, 0x3F, 0x5B, 0x5D, 0x5C] then none
  else some pattern.dropLast

/-- A field as it stands in a data key, with the reserved bytes that follow it. -/
def suffixed (field : Bytes) : Bytes := field ++ List.replicate 16 0

/-- The literal prefix of the fields that a scan can match. -/
def literalPrefix (pattern : Option Bytes) : Bytes := (pattern.bind tailWildcardPrefix).getD []

/-- Where a scan starts: at the field remembered for its cursor, or at the literal prefix. -/
def startPoint (db : Redis S) (key : Bytes) (cursor : ℕ) (pattern : Option Bytes) : Bytes :=
  let start :=
    if cursor > 0 then
      (db.scanCursorsStore.get (scanIndexKey .hash key (pattern.getD []) cursor)).getD []
    else literalPrefix pattern
  -- an empty start point seeks to the literal prefix
  if start.isEmpty then literalPrefix pattern else start

/-- The rows from there on. -/
def scanRows (db : Redis S) (key : Bytes) (version cursor : ℕ) (pattern : Option Bytes) :
    List (Bytes × Bytes) :=
  (DataKey.rowsAt db.hashesDataCF key version).dropWhile fun r ↦
    suffixed r.1 < startPoint db key cursor pattern

/-- The loop over the rows of a page: those that start with the literal prefix, and what the
iterator has left. The row that ends the loop has been read. -/
def scanLoop (literal : Bytes) :
    ℕ → List (Bytes × Bytes) → List (Bytes × Bytes) × List (Bytes × Bytes)
  | 0, rows => ([], rows)
  | _ + 1, [] => ([], [])
  | size + 1, r :: rows =>
    if literal.isPrefixOf (suffixed r.1) then
      let (taken, rest) := scanLoop literal size rows
      (r :: taken, rest)
    else ([], rows)

/-- The number of rows in a page; the loop counts down an `i64`. -/
def pageSize (count : Option ℕ) : ℕ := (asI64 (count.getD 10)).toNat

/-- The cursor of the next page. -/
def nextCursor (cursor : ℕ) (count : Option ℕ) : ℕ := wrapU64 (cursor + count.getD 10)

/-- Remember the field at which the next page starts. -/
def storeScanNextPoint (key : Bytes) (pattern : Option Bytes) (cursor : ℕ) (next : Bytes) :
    Op S PUnit :=
  modify fun db ↦
    { db with scanCursorsStore :=
        db.scanCursorsStore.insert (scanIndexKey .hash key (pattern.getD []) cursor) next }

/-- The end of `hscan`: a page of the rows, and the cursor if the next row has the prefix too. -/
def scanPage (key : Bytes) (pattern : Option Bytes) (size next : ℕ) (rows : List (Bytes × Bytes)) :
    Op S (ℕ × List (Bytes × Bytes)) :=
  let (taken, rest) := scanLoop (literalPrefix pattern) size rows
  let found := taken.filter fun r ↦
    match pattern with
    | none => true
    | some pattern => Glob.matchesPattern pattern r.1
  match rest.head?.filter fun r ↦ (literalPrefix pattern).isPrefixOf (suffixed r.1) with
  | none => return (0, found)
  | some (field, _) => do
    storeScanNextPoint key pattern next field
    return (next, found)

/-- `hscan`: the next cursor, and the fields of this page. -/
def hscan (key : Bytes) (cursor : ℕ) (pattern : Option Bytes) (count : Option ℕ) (now : ℕ) :
    Op S (ℕ × List (Bytes × Bytes)) := do
  let db ← get
  match ← db.baseMeta .hash key now with
  | none => return (0, [])
  | some m =>
    scanPage key pattern (pageSize count) (nextCursor cursor count)
      (scanRows db key m.version cursor pattern)

end Kiwi.Hashes
