import Kiwi.Correctness.Collection
import Kiwi.Lib.Simulation
import Kiwi.Storage.Hashes

/-!
# Hashes as finite maps

The abstract machine of this module keeps a finite map of byte strings for every key, and its
commands are operations on one such map (`Command.spec`): put a field, put several, add to a number,
delete fields, forget the map. The relation between a key of the database and its map is that of
collections in general (`Family.At`). Each storage operation is shown to answer as the abstract one
and to keep that relation (`Refines`), and `Run.simulation` turns that into the same answers along
whole runs.

Two things stand between the stored map and a reply. Replies are strings, so a field or value that
is not well-formed text is returned with replacement characters, and counts are `i32`. Therefore the
run theorem asks for arguments that are text and for maps of fewer than `2 ^ 31` fields (`Guard`);
the relation between rows and map needs neither.
-/

namespace Kiwi.HashRefinement

open Hashes

variable {S : Type} [LinearOrder S]

/-! ### The abstract machine -/

/-- The operations that write hashes, and deletion. -/
inductive Command
  | hsetWithOutcome (key field value : Bytes)
  | hmset (key : Bytes) (fieldValues : List (Bytes × Bytes))
  | hsetnx (key field value : Bytes)
  | hincrby (key field : Bytes) (increment : ℤ)
  | hdel (key : Bytes) (fields : List Bytes)
  | delKey (key : Bytes)

/-- What a command answers. -/
inductive Reply
  /-- The number of fields added, and whether anything changed. -/
  | outcome (added : ℤ) (changed : Bool)
  | done
  | number (n : ℤ)
  | deleted (existed : Bool)
  deriving DecidableEq, Repr

namespace Command

/-- The key a command is about. -/
def key : Command → Bytes
  | hsetWithOutcome key _ _ => key
  | hmset key _ => key
  | hsetnx key _ _ => key
  | hincrby key _ _ => key
  | hdel key _ => key
  | delKey key => key

/-- The storage operation. -/
def exec (db : Redis S) (now : ℕ) : Command → Except Error Reply × Redis S
  | hsetWithOutcome key field value =>
    let r := (Hashes.hsetWithOutcome key field value now).exec db
    (r.1.map fun o ↦ .outcome o.1 o.2, r.2)
  | hmset key fieldValues =>
    let r := (Hashes.hmset key fieldValues now).exec db
    (r.1.map fun _ ↦ .done, r.2)
  | hsetnx key field value =>
    let r := (Hashes.hsetnx key field value now).exec db
    (r.1.map .number, r.2)
  | hincrby key field increment =>
    let r := (Hashes.hincrby key field increment now).exec db
    (r.1.map .number, r.2)
  | hdel key fields =>
    let r := (Hashes.hdel key fields now).exec db
    (r.1.map .number, r.2)
  | delKey key =>
    let r := (Strings.delKey key now).exec db
    (r.1.map .deleted, r.2)

/-- The operation on the finite map of the key. -/
def spec (map : SortedMap Bytes Bytes) : Command → Except Error Reply × SortedMap Bytes Bytes
  | hsetWithOutcome _ field value =>
    (.ok (.outcome (if (map.get field).isSome then 0 else 1)
      (decide (map.get field ≠ some value))), map.insert field value)
  | hmset _ fieldValues => (.ok .done, map.insertAll fieldValues)
  | hsetnx _ field value =>
    if (map.get field).isSome then (.ok (.number 0), map)
    else (.ok (.number 1), map.insert field value)
  | hincrby _ field increment =>
    match map.get field with
    | none => (.ok (.number increment), map.insert field (formatI64 increment))
    | some old =>
      match parseI64 old with
      | none => (.error (.redisErr "hash value is not an integer"), map)
      | some n =>
        match checkedAddI64 n increment with
        | none => (.error (.optionNone "integer overflow"), map)
        | some sum => (.ok (.number sum), map.insert field (formatI64 sum))
  | hdel _ fields =>
    (.ok (.number (map.size - (map.eraseAll fields).size)), map.eraseAll fields)
  | delKey _ => (.ok (.deleted (decide (map.size ≠ 0))), .empty)

/-- The byte strings a command may store. -/
def texts : Command → List Bytes
  | hsetWithOutcome _ field value => [field, value]
  | hmset _ fieldValues => fieldValues.flatMap fun r ↦ [r.1, r.2]
  | hsetnx _ field value => [field, value]
  | hincrby _ field _ => [field]
  | hdel _ _ => []
  | delKey _ => []

/-- How many fields a command may add. -/
def additions : Command → ℕ
  | hsetWithOutcome .. => 1
  | hmset _ fieldValues => fieldValues.length
  | hsetnx .. => 1
  | hincrby .. => 1
  | hdel .. => 0
  | delKey _ => 0

end Command

/-! ### Operations -/

variable {db : Redis S} {key : Bytes} {c c' now : ℕ} {map map' : SortedMap Bytes Bytes}

/-- What is stored for a key is the map. -/
abbrev HashAt (c : ℕ) (db : Redis S) (key : Bytes) (map : SortedMap Bytes Bytes) : Prop :=
  (Family.hashes S).At c db key map

/-- The meta value stands for the map. -/
abbrev Stored (c : ℕ) (db : Redis S) (key : Bytes) (m : BaseMetaValue)
    (map : SortedMap Bytes Bytes) : Prop :=
  (Family.hashes S).Stored c db key m map

variable {m : BaseMetaValue}

section Operations

variable {α β : Type}

/-- An operation on the key answers and acts as the operation on its map. -/
abbrev Refines (now : ℕ) (db : Redis S) (key : Bytes) (result : Except Error α × Redis S)
    (spec : Except Error α × SortedMap Bytes Bytes) : Prop :=
  (Family.hashes S).Refines now db key result spec

omit [LinearOrder S] in
theorem hashWrites_putFields_eq (v : ℕ) (fields : List (Bytes × Bytes)) :
    (putFields key v fields : Batch S).filterMap Entry.hashWrite? =
      (fields.map fun r ↦ (r.1, some r.2)).map fun w ↦ (⟨key, v, w.1⟩, w.2) := by
  rw [hashWrites_putFields, List.map_map]
  rfl

variable {fields : List (Bytes × Bytes)}

theorem createNewHash_refines (h : HashAt c db key map) (hnow : c < now)
    (hnodup : (fields.map Prod.fst).Nodup) (answer : Except Error α) :
    Refines now db key (answer, db.write (createNewHash key fields now))
      (answer, SortedMap.empty.insertAll fields) := by
  have hversion : updateVersion 0 now = now := updateVersion_of_lt (by omega)
  have hwrites : (createNewHash key fields now : Batch S).filterMap (Family.hashes S).write? =
      (fields.map fun r ↦ (r.1, some r.2)).map fun w ↦ (⟨key, updateVersion 0 now, w.1⟩, w.2) :=
    hashWrites_putFields_eq (updateVersion 0 now) fields
  have hall : fields.filter (fun r ↦ ((SortedMap.empty : SortedMap Bytes Bytes).get r.1).isNone) =
      fields := List.filter_eq_self.2 fun _ _ ↦ rfl
  have hsize := SortedMap.size_insertAll (SortedMap.empty : SortedMap Bytes Bytes) hnodup
  rw [hall, SortedMap.size_empty, Nat.zero_add] at hsize
  refine Family.refines_write _ (meets_createNewHash (fun _ ↦ trivial) trivial fields) (h.write
    (m := (BaseMetaValue.new .hash fields.length now).updateVersion now) hnow.le ?_ rfl rfl
      hversion.le hwrites ?_ hsize.symm)
  · rw [createNewHash, Redis.write_metaCF, List.filterMap_cons]
    simp
  · show SortedMap.apply ((Family.hashes S).mapAt db key (updateVersion 0 now)) _ = _
    rw [hversion, h.mapAt_eq_empty hnow, SortedMap.apply_puts]

theorem putFields_refines (h : HashAt c db key map) (hnow : c < now)
    (hget : db.metaCF.get key = some (.base m)) (hm : Stored c db key m map)
    (hsize : (map.insertAll fields).size = map.size)
    (answer : Except Error α) :
    Refines now db key (answer, db.write (putFields key m.version fields))
      (answer, map.insertAll fields) := by
  refine Family.refines_write _ (meets_putFields trivial fields) (h.write hnow.le ?_ hm.type
    hm.etime (hm.version.trans hnow.le) (hashWrites_putFields_eq m.version fields) ?_
      (hm.count.trans hsize.symm))
  · rw [Redis.write_metaCF, metaWrites_putFields]
    exact hget
  · rw [hm.rows, SortedMap.apply_puts]

/-- The operation on maps that `updateField` carries out. -/
def updateSpec (map : SortedMap Bytes Bytes) (field initial : Bytes) (onNew : α)
    (onExisting : Bytes → Except Error (Option Bytes × α)) :
    Except Error α × SortedMap Bytes Bytes :=
  match map.get field with
  | none => (.ok onNew, map.insert field initial)
  | some old =>
    match onExisting old with
    | .error e => (.error e, map)
    | .ok (none, a) => (.ok a, map)
    | .ok (some value, a) => (.ok a, map.insert field value)

theorem updateField_refines (h : HashAt c db key map) (hnow : c < now) (hroom : map.size < 2 ^ 31)
    (field initial : Bytes) (onNew : α) (onExisting : Bytes → Except Error (Option Bytes × α)) :
    Refines now db key ((updateField key field initial onNew onExisting now).exec db)
      (updateSpec map field initial onNew onExisting) := by
  rw [exec_updateField]
  rcases h.lookup now with ⟨hnone, rfl⟩ | ⟨m, hsome, hget, -, hm⟩
  · rw [show db.baseMeta .hash key now = _ from hnone]
    have hnodup : ([(field, initial)].map Prod.fst).Nodup := List.nodup_singleton field
    exact createNewHash_refines h hnow hnodup _
  rw [show db.baseMeta .hash key now = _ from hsome]
  dsimp only
  rw [show db.hashesDataCF.get ⟨key, m.version, field⟩ = _ from hm.get_eq field, updateSpec]
  rcases hold : map.get field with _ | old
  · have hcheck : m.checkModifyCount 1 = true := by
      rw [BaseMetaValue.checkModifyCount, decide_eq_true_iff, hm.count]
      omega
    have hsize : (map.insert field initial).size = map.size + 1 := by
      rw [SortedMap.size_insert, hold]
      rfl
    have hwrites : (.metaCF key (some (.base (m.modifyCount 1))) ::
        putFields key m.version [(field, initial)] : Batch S).filterMap
          (Family.hashes S).write? =
            ([(field, some initial)] : List (Bytes × Option Bytes)).map
              fun w ↦ (⟨key, m.version, w.1⟩, w.2) := rfl
    dsimp only
    rw [if_pos hcheck]
    refine Family.refines_write _ (meets_put trivial (meets_putFields trivial _))
      (h.write (m := m.modifyCount 1) hnow.le ?_ hm.type hm.etime (hm.version.trans hnow.le)
        hwrites ?_ ?_)
    · rw [Redis.write_metaCF, List.filterMap_cons]
      simp
    · show SortedMap.apply ((Family.hashes S).mapAt db key m.version) _ = _
      rw [hm.rows]
      rfl
    · show min (m.count + 1) (2 ^ 64 - 1) = _
      rw [hm.count, hsize]
      omega
  · dsimp only
    rcases onExisting old with e | ⟨_ | value, a⟩
    · exact h.unchanged hnow _
    · exact h.unchanged hnow _
    · have hsize : (map.insertAll [(field, value)]).size = map.size := by
        show (map.insert field value).size = map.size
        rw [SortedMap.size_insert, hold]
        rfl
      exact putFields_refines h hnow hget hm hsize _

/-- `hmset` puts the fields in the order of the arguments, so that the last value of a field
counts. -/
theorem hmset_refines (h : HashAt c db key map) (hnow : c < now)
    {fieldValues : List (Bytes × Bytes)} (hroom : map.size + fieldValues.length < 2 ^ 31) :
    Refines now db key ((hmset key fieldValues now).exec db)
      (.ok ⟨⟩, map.insertAll fieldValues) := by
  have hmap : map.insertAll (fieldMap fieldValues).rows = map.insertAll fieldValues :=
    SortedMap.insertAll_rows_insertAll map fieldValues
  have hnodup : ((fieldMap fieldValues).rows.map Prod.fst).Nodup := SortedMap.nodup_keys _
  have hlength : (fieldMap fieldValues).rows.length ≤ fieldValues.length :=
    (SortedMap.size_insertAll_le SortedMap.empty fieldValues).trans (Nat.zero_add _).le
  rw [exec_hmset, ← hmap]
  generalize (fieldMap fieldValues).rows = fields at hnodup hlength
  dsimp only
  rcases h.lookup now with ⟨hnone, rfl⟩ | ⟨m, hsome, hget, -, hm⟩
  · rw [show db.baseMeta .hash key now = _ from hnone]
    exact createNewHash_refines h hnow hnodup _
  rw [show db.baseMeta .hash key now = _ from hsome]
  dsimp only
  have hsize := SortedMap.size_insertAll map hnodup
  have hle : (fields.filter fun r ↦ (map.get r.1).isNone).length ≤ fields.length :=
    List.length_filter_le _ _
  have hnew : newFieldCount db key m.version fields =
      (fields.filter fun r ↦ (map.get r.1).isNone).length := by
    have hfilter : (fields.filter fun r ↦ (db.hashesDataCF.get ⟨key, m.version, r.1⟩).isNone) =
        fields.filter fun r ↦ (map.get r.1).isNone :=
      List.filter_congr fun r _ ↦ congrArg Option.isNone (hm.get_eq r.1)
    rw [newFieldCount, hfilter]
    exact asI32_of_lt (by omega)
  rw [hnew]
  generalize (fields.filter fun r ↦ (map.get r.1).isNone).length = n at hsize hle
  have hcheck : m.checkModifyCount n = true := by
    rw [BaseMetaValue.checkModifyCount, decide_eq_true_iff, hm.count]
    omega
  rw [Int.toNat_natCast, if_pos hcheck]
  have hwrites : (putFields key m.version fields ++
      [.metaCF key (some (.base (m.modifyCount n)))] : Batch S).filterMap
        (Family.hashes S).write? =
          (fields.map fun r ↦ (r.1, some r.2)).map fun w ↦ (⟨key, m.version, w.1⟩, w.2) := by
    rw [List.filterMap_append, ← hashWrites_putFields_eq]
    exact List.append_nil _
  split_ifs with hpos
  · refine Family.refines_write _ ((meets_putFields trivial _).append (meets_meta trivial))
      (h.write (m := m.modifyCount n) hnow.le (Redis.get_metaCF_write_append ..) hm.type hm.etime
        (hm.version.trans hnow.le) hwrites ?_ ?_)
    · show SortedMap.apply ((Family.hashes S).mapAt db key m.version) _ = _
      rw [hm.rows, SortedMap.apply_puts]
    · show min (m.count + n) (2 ^ 64 - 1) = _
      rw [hm.count, hsize]
      omega
  · exact putFields_refines h hnow hget hm (by omega) _

section

variable (hm : Stored c db key m map) (fields : List Bytes)

include hm

theorem eraseAll_storedOf :
    map.eraseAll (storedOf db key m.version fields) = map.eraseAll fields := by
  have hmem : ∀ f, f ∈ storedOf db key m.version fields ↔ f ∈ fields ∧ (map.get f).isSome := by
    intro f
    have hfirst : f ∈ firstBy id fields ↔ f ∈ fields := by
      have hiff : f ∈ (firstBy id fields).map id ↔ f ∈ fields.map id := map_firstBy_mem_iff
      rwa [List.map_id, List.map_id] at hiff
    have hget : db.hashesDataCF.get ⟨key, m.version, f⟩ = map.get f := hm.get_eq f
    rw [storedOf, List.mem_filter, hfirst, hget]
  refine SortedMap.ext_get fun f ↦ ?_
  rw [SortedMap.get_eraseAll, SortedMap.get_eraseAll]
  by_cases hf : f ∈ fields
  · rw [if_pos hf]
    split_ifs with hstored
    · rfl
    · rcases hget : map.get f with _ | x
      · rfl
      · exact absurd ((hmem f).2 ⟨hf, by rw [hget]; rfl⟩) hstored
  · rw [if_neg hf, if_neg fun hstored ↦ hf ((hmem f).1 hstored).1]

theorem size_eraseAll_storedOf :
    (map.eraseAll fields).size + (storedOf db key m.version fields).length = map.size := by
  rw [← eraseAll_storedOf hm]
  have hnodup : (firstBy id fields).Nodup := by
    have hmap : ((firstBy id fields).map id).Nodup := nodup_map_firstBy
    rwa [List.map_id] at hmap
  refine SortedMap.size_eraseAll (hnodup.filter _) fun f hf ↦ ?_
  have hget : db.hashesDataCF.get ⟨key, m.version, f⟩ = map.get f := hm.get_eq f
  have hsome := (List.mem_filter.1 hf).2
  rwa [hget] at hsome

end

/-- `hdel` answers how much smaller the map becomes. -/
theorem hdel_refines (h : HashAt c db key map) (hnow : c < now) (hroom : map.size < 2 ^ 31)
    (fields : List Bytes) :
    Refines now db key ((hdel key fields now).exec db)
      (.ok (map.size - (map.eraseAll fields).size : ℤ), map.eraseAll fields) := by
  rw [exec_hdel]
  rcases h.lookup now with ⟨hnone, rfl⟩ | ⟨m, hsome, -, -, hm⟩
  · have hempty : (SortedMap.empty : SortedMap Bytes Bytes).eraseAll fields = .empty := by
      refine SortedMap.ext_get fun f ↦ ?_
      rw [SortedMap.get_eraseAll, SortedMap.get_empty, ite_self]
    rw [show db.baseMeta .hash key now = _ from hnone, hempty]
    exact h.unchanged hnow _
  rw [show db.baseMeta .hash key now = _ from hsome]
  dsimp only
  have hsize := size_eraseAll_storedOf hm fields
  have hcount : deletedCount (storedOf db key m.version fields) =
      (storedOf db key m.version fields).length := asI32_of_lt (by omega)
  have hanswer : ((storedOf db key m.version fields).length : ℤ) =
      map.size - (map.eraseAll fields).size := by omega
  rw [hcount, Int.toNat_natCast, ← hanswer]
  split_ifs with hpos hover
  · rw [hm.count] at hover
    omega
  · have hwrites : (deleteFields key m (storedOf db key m.version fields)
        (m.count - (storedOf db key m.version fields).length) : Batch S).filterMap
          (Family.hashes S).write? =
            ((storedOf db key m.version fields).map fun f ↦ (f, none)).map
              fun w ↦ (⟨key, m.version, w.1⟩, w.2) := by
      simp [deleteFields, List.filterMap_map, Function.comp_def, Family.hashes]
    refine Family.refines_write _ (Meets.append (fun e he ↦ ?_) (meets_meta trivial)) (h.write
      (m := m.setCount (m.count - (storedOf db key m.version fields).length)) hnow.le
        (Redis.get_metaCF_write_append ..) hm.type hm.etime (hm.version.trans hnow.le) hwrites
        ?_ ?_)
    · obtain ⟨f, -, rfl⟩ := List.mem_map.1 he
      exact ⟨List.mem_singleton_self _, trivial⟩
    · show SortedMap.apply ((Family.hashes S).mapAt db key m.version) _ = _
      rw [hm.rows, SortedMap.apply_deletes, eraseAll_storedOf hm]
    · show m.count - _ = _
      rw [hm.count]
      omega
  · -- nothing to delete: the map stays as it is
    have hnil : storedOf db key m.version fields = [] := by
      rw [← List.length_eq_zero_iff]
      omega
    have hsame : map.eraseAll fields = map := by
      rw [← eraseAll_storedOf hm, hnil]
      rfl
    rw [hsame]
    exact h.unchanged hnow _

end Operations

/-! ### Commands -/

/-- The map holds well-formed text only. -/
def IsText (map : SortedMap Bytes Bytes) : Prop :=
  ∀ f x, map.get f = some x → isUtf8 f = true ∧ isUtf8 x = true

theorem updateSpec_hsetWithOutcome (key field value : Bytes) :
    ((updateSpec map field value ((1 : ℤ), true) fun old ↦
        if old = value then .ok (none, (0, false)) else .ok (some value, (0, true))).1.map
          fun o ↦ Reply.outcome o.1 o.2,
      (updateSpec map field value ((1 : ℤ), true) fun old ↦
        if old = value then .ok (none, (0, false)) else .ok (some value, (0, true))).2) =
      (Command.hsetWithOutcome key field value).spec map := by
  simp only [updateSpec, Command.spec]
  rcases hget : map.get field with _ | old
  · rfl
  · by_cases he : old = value
    · simp [he, Except.map, SortedMap.insert_of_get_eq_some (he ▸ hget)]
    · simp [he, Except.map]

theorem updateSpec_hsetnx (key field value : Bytes) :
    ((updateSpec map field value (1 : ℤ) fun _ ↦ .ok (none, 0)).1.map Reply.number,
      (updateSpec map field value (1 : ℤ) fun _ ↦ .ok (none, 0)).2) =
        (Command.hsetnx key field value).spec map := by
  simp only [updateSpec, Command.spec]
  rcases map.get field with _ | old <;> rfl

/-- The number to add to, as `hincrby` reads it. -/
def addTo (increment : ℤ) (old : Bytes) : Except Error (Option Bytes × ℤ) :=
  match parseI64 (fromUtf8Lossy old) with
  | none => .error (.redisErr "hash value is not an integer")
  | some n =>
    match checkedAddI64 n increment with
    | none => .error (.optionNone "integer overflow")
    | some n => .ok (some (formatI64 n), n)

theorem updateSpec_hincrby (htext : IsText map) (key field : Bytes) (increment : ℤ) :
    ((updateSpec map field (formatI64 increment) increment (addTo increment)).1.map Reply.number,
      (updateSpec map field (formatI64 increment) increment (addTo increment)).2) =
        (Command.hincrby key field increment).spec map := by
  simp only [updateSpec, Command.spec]
  rcases hget : map.get field with _ | old
  · rfl
  · dsimp only
    rw [addTo, fromUtf8Lossy_of_isUtf8 (htext _ _ hget).2]
    rcases parseI64 old with _ | n
    · rfl
    · dsimp only
      rcases checkedAddI64 n increment with _ | sum <;> rfl

/-- **Every command acts on the map of its key.** -/
theorem exec_refines (h : HashAt c db key map) (hnow : c < now) (htext : IsText map)
    (command : Command) (hkey : command.key = key) (hroom : map.size + command.additions < 2 ^ 31) :
    Refines now db key (command.exec db now) (command.spec map) := by
  subst hkey
  cases command with
  | hsetWithOutcome =>
    rw [← updateSpec_hsetWithOutcome]
    exact (updateField_refines h hnow (by omega) ..).mapAnswer _
  | hmset => exact (hmset_refines h hnow hroom).mapAnswer fun _ ↦ Reply.done
  | hsetnx =>
    rw [← updateSpec_hsetnx]
    exact (updateField_refines h hnow (by omega) ..).mapAnswer _
  | hincrby =>
    rw [← updateSpec_hincrby htext]
    exact (updateField_refines h hnow (by omega) ..).mapAnswer _
  | hdel _ fields =>
    have hr := (hdel_refines h hnow (by omega) fields).mapAnswer Reply.number
    exact ⟨hr.answer, hr.rows, hr.frame⟩
  | delKey => exact (Family.delKey_refines h hnow).mapAnswer Reply.deleted

/-! ### Reads -/

/-- What the reads of a database say is what the maps say. -/
structure Observes (db : Redis S) (now : ℕ) (maps : Bytes → SortedMap Bytes Bytes) : Prop where
  hlen : ∀ key, Hashes.hlen db key now = .ok ((maps key).size : ℤ)
  hget : ∀ key field, Hashes.hget db key field now = .ok ((maps key).get field)
  hgetall : ∀ key, Hashes.hgetall db key now = .ok (maps key).rows
  /-- The count of a meta value is the number of rows under its version. -/
  count : ∀ key m, db.metaCF.get key = some (.base m) →
    m.count = (DataKey.rowsAt db.hashesDataCF key m.version).length

theorem hlen_eq (h : HashAt c db key map) (hsize : map.size < 2 ^ 31) (now : ℕ) :
    hlen db key now = .ok (map.size : ℤ) := by
  rcases h.lookup now with ⟨hnone, rfl⟩ | ⟨m, hsome, -, -, hm⟩
  · rw [hlen, show db.baseMeta .hash key now = _ from hnone]
    rfl
  · rw [hlen, show db.baseMeta .hash key now = _ from hsome, Program.except_ok_bind]
    show Except.ok (asI32 m.count) = _
    rw [hm.count, asI32_of_lt hsize]

theorem hget_eq (h : HashAt c db key map) (htext : IsText map) (now : ℕ) (field : Bytes) :
    hget db key field now = .ok (map.get field) := by
  rcases h.lookup now with ⟨hnone, rfl⟩ | ⟨m, hsome, -, -, hm⟩
  · rw [hget, show db.baseMeta .hash key now = _ from hnone]
    rfl
  · have hstored : db.hashesDataCF.get ⟨key, m.version, field⟩ = map.get field := hm.get_eq field
    rw [hget, show db.baseMeta .hash key now = _ from hsome, Program.except_ok_bind]
    show Except.ok _ = _
    rw [hstored]
    rcases hx : map.get field with _ | x
    · rfl
    · rw [Option.map_some, fromUtf8Lossy_of_isUtf8 (htext _ _ hx).2]

theorem rowsAt_eq (hm : Stored c db key m map) :
    DataKey.rowsAt db.hashesDataCF key m.version = map.rows :=
  ((Family.hashes S).rowsAt_table db key m.version).trans (congrArg SortedMap.rows hm.rows)

theorem hgetall_eq (h : HashAt c db key map) (htext : IsText map) (now : ℕ) :
    hgetall db key now = .ok map.rows := by
  rcases h.lookup now with ⟨hnone, rfl⟩ | ⟨m, hsome, -, -, hm⟩
  · rw [hgetall, storedFields, show db.baseMeta .hash key now = _ from hnone]
    rfl
  · have hrows : map.rows.map (fun r ↦ (fromUtf8Lossy r.1, fromUtf8Lossy r.2)) = map.rows := by
      refine (List.map_congr_left fun r hr ↦ ?_).trans (List.map_id _)
      obtain ⟨hf, hx⟩ := htext _ _ (SortedMap.get_eq_some_iff.2 hr)
      rw [fromUtf8Lossy_of_isUtf8 hf, fromUtf8Lossy_of_isUtf8 hx]
      rfl
    rw [hgetall, storedFields, show db.baseMeta .hash key now = _ from hsome]
    show Except.ok _ = _
    rw [rowsAt_eq hm, hrows]

/-! ### Runs -/

/-- One command on the maps of all keys. -/
def specStep (maps : Bytes → SortedMap Bytes Bytes) (_ : ℕ) (command : Command) :
    Except Error Reply × (Bytes → SortedMap Bytes Bytes) :=
  ((command.spec (maps command.key)).1,
    Function.update maps command.key (command.spec (maps command.key)).2)

/-- The arguments are text, and the map has room in an `i32` for what they may add. -/
def Guard (t : ℕ × (Bytes → SortedMap Bytes Bytes)) (a : ℕ × Command) : Prop :=
  t.1 < a.1 ∧ (∀ x ∈ a.2.texts, isUtf8 x = true) ∧
    (t.2 a.2.key).size + a.2.additions < 2 ^ 31

instance (t : ℕ × (Bytes → SortedMap Bytes Bytes)) (a : ℕ × Command) : Decidable (Guard t a) :=
  inferInstanceAs (Decidable (_ ∧ _))

/-- The database stands for the maps, which hold text and are small enough for an `i32`. -/
structure Rel (s : ℕ × Redis S) (t : ℕ × (Bytes → SortedMap Bytes Bytes)) : Prop where
  clock : s.1 = t.1
  hashAt : ∀ key, HashAt s.1 s.2 key (t.2 key)
  isText : ∀ key, IsText (t.2 key)
  /-- The sizes are `i32`. -/
  size : ∀ key, (t.2 key).size < 2 ^ 31

theorem isText_insert (htext : IsText map) {field value : Bytes} (hf : isUtf8 field = true)
    (hv : isUtf8 value = true) : IsText (map.insert field value) := by
  intro f x hx
  rw [SortedMap.get_insert] at hx
  split_ifs at hx with he
  · obtain rfl := Option.some.inj hx
    exact ⟨he ▸ hf, hv⟩
  · exact htext _ _ hx

theorem isText_insertAll (htext : IsText map) {rows : List (Bytes × Bytes)}
    (h : ∀ r ∈ rows, isUtf8 r.1 = true ∧ isUtf8 r.2 = true) : IsText (map.insertAll rows) := by
  induction rows generalizing map with
  | nil => exact htext
  | cons r rows ih =>
    obtain ⟨hf, hv⟩ := h r List.mem_cons_self
    exact ih (isText_insert htext hf hv) fun r' hr' ↦ h r' (List.mem_cons_of_mem _ hr')

theorem isText_spec (htext : IsText map) {command : Command}
    (h : ∀ x ∈ command.texts, isUtf8 x = true) : IsText (command.spec map).2 := by
  cases command with
  | hsetWithOutcome =>
    exact isText_insert htext (h _ List.mem_cons_self) (h _ (by simp [Command.texts]))
  | hmset =>
    refine isText_insertAll htext fun r hr ↦ ⟨h _ ?_, h _ ?_⟩
    · exact List.mem_flatMap.2 ⟨r, hr, List.mem_cons_self⟩
    · exact List.mem_flatMap.2 ⟨r, hr, by simp⟩
  | hsetnx =>
    rw [Command.spec]
    split_ifs
    · exact htext
    · exact isText_insert htext (h _ List.mem_cons_self) (h _ (by simp [Command.texts]))
  | hincrby _ field increment =>
    have hf : isUtf8 field = true := h _ List.mem_cons_self
    simp only [Command.spec]
    rcases map.get field with _ | old
    · exact isText_insert htext hf (isUtf8_formatI64 _)
    · dsimp only
      rcases parseI64 old with _ | n
      · exact htext
      · dsimp only
        rcases checkedAddI64 n increment with _ | sum
        · exact htext
        · exact isText_insert htext hf (isUtf8_formatI64 _)
  | hdel =>
    intro f x hx
    rw [Command.spec, SortedMap.get_eraseAll] at hx
    split_ifs at hx
    exact htext _ _ hx
  | delKey =>
    intro f x hx
    cases hx

theorem size_spec_le (command : Command) :
    (command.spec map).2.size ≤ map.size + command.additions := by
  have hinsert : ∀ f x, (map.insert f x).size ≤ map.size + 1 := by
    intro f x
    rw [SortedMap.size_insert]
    split_ifs <;> omega
  cases command with
  | hsetWithOutcome _ field value => exact hinsert field value
  | hmset _ fieldValues => exact SortedMap.size_insertAll_le map fieldValues
  | hsetnx _ field value =>
    rw [Command.spec]
    split_ifs
    · exact Nat.le_add_right _ _
    · exact hinsert field value
  | hincrby _ field increment =>
    simp only [Command.spec]
    rcases map.get field with _ | old
    · exact hinsert field _
    · dsimp only
      rcases parseI64 old with _ | n
      · exact Nat.le_add_right _ _
      · dsimp only
        rcases checkedAddI64 n increment with _ | sum
        · exact Nat.le_add_right _ _
        · exact hinsert field _
  | hdel _ fields => exact SortedMap.size_eraseAll_le map fields
  | delKey => exact Nat.zero_le _

theorem rel_init : Rel (0, (Redis.empty : Redis S)) (0, fun _ ↦ SortedMap.empty) :=
  ⟨rfl, Family.at_empty, fun _ _ _ hx ↦ (by cases hx), fun _ ↦ (by decide : 0 < 2 ^ 31)⟩

/-- **One step.** The storage operation answers as the operation on maps, and the relation is
kept. -/
theorem rel_step (s : ℕ × Redis S) (t : ℕ × (Bytes → SortedMap Bytes Bytes)) (a : ℕ × Command)
    (h : Rel s t) (hguard : Guard t a) :
    (Run.timed Command.exec s a).1 = (Run.timed specStep t a).1 ∧
      Rel (Run.next (Run.timed Command.exec) s a) (Run.next (Run.timed specStep) t a) := by
  obtain ⟨hclock, htexts, hroom⟩ := hguard
  have hnow : s.1 < a.1 := h.clock ▸ hclock
  have hr := exec_refines (h.hashAt a.2.key) hnow (h.isText a.2.key) a.2 rfl hroom
  refine ⟨hr.answer, rfl, fun key ↦ ?_, fun key ↦ ?_, fun key ↦ ?_⟩
  · show HashAt a.1 (a.2.exec s.2 a.1).2 key (Function.update t.2 a.2.key _ key)
    by_cases hk : key = a.2.key
    · rw [hk, Function.update_self]
      exact hr.rows
    · rw [Function.update_of_ne hk]
      exact (h.hashAt key).congr hnow.le (hr.frame key hk)
  · show IsText (Function.update t.2 a.2.key _ key)
    by_cases hk : key = a.2.key
    · rw [hk, Function.update_self]
      exact isText_spec (h.isText _) htexts
    · rw [Function.update_of_ne hk]
      exact h.isText key
  · show (Function.update t.2 a.2.key _ key).size < 2 ^ 31
    by_cases hk : key = a.2.key
    · rw [hk, Function.update_self]
      exact (size_spec_le a.2).trans_lt hroom
    · rw [Function.update_of_ne hk]
      exact h.size key

/-- The database after a run from the empty one. -/
def stateAfter (steps : List (ℕ × Command)) : Redis S :=
  (Run.final (Run.next (Run.timed Command.exec)) (0, Redis.empty) steps).2

/-- The maps after a run from empty ones. -/
def mapsAfter (steps : List (ℕ × Command)) : Bytes → SortedMap Bytes Bytes :=
  (Run.final (Run.next (Run.timed specStep)) (0, fun _ ↦ SortedMap.empty) steps).2

/-- **Hashes behave as finite maps**, in every run on an advancing clock whose arguments are text
and whose maps stay small enough for an `i32`: every command answers as on the maps, and every read
afterwards says what the maps say. -/
theorem hashes_refine_maps (steps : List (ℕ × Command))
    (h : Run.Allowed (Run.next (Run.timed specStep)) Guard (0, fun _ ↦ SortedMap.empty) steps) :
    Run.answers (Run.timed Command.exec) (0, (Redis.empty : Redis S)) steps =
        Run.answers (Run.timed specStep) (0, fun _ ↦ SortedMap.empty) steps ∧
      ∀ now, Observes (stateAfter steps : Redis S) now (mapsAfter steps) := by
  obtain ⟨hanswers, hrel⟩ := Run.simulation (rel_step (S := S)) rel_init h
  refine ⟨hanswers, fun now ↦ ⟨fun key ↦ ?_, fun key field ↦ ?_, fun key ↦ ?_, fun key m hm ↦ ?_⟩⟩
  · exact hlen_eq (hrel.hashAt key) (hrel.size key) now
  · exact hget_eq (hrel.hashAt key) (hrel.isText key) now field
  · exact hgetall_eq (hrel.hashAt key) (hrel.isText key) now
  · obtain ⟨m', hm', hstored⟩ := (hrel.hashAt key).found hm
    obtain rfl := MetaValue.base.inj hm'
    exact hstored.count.trans (congrArg List.length (rowsAt_eq hstored)).symm

/-- A run with repeated fields, numbers, deletions and a re-creation. -/
def setAddDelete : List (ℕ × Command) :=
  [(1, .hmset [1] [([97], [49]), ([98], [50]), ([97], [51])]), (2, .hincrby [1] [98] 5),
    (3, .hdel [1] [[97], [97], [99]]), (4, .delKey [1]), (5, .hsetWithOutcome [1] [97] [120])]

/-- The run is allowed, so its last read is the map's. -/
theorem hashes_refine_maps_setAddDelete :
    Run.Allowed (Run.next (Run.timed specStep)) Guard (0, fun _ ↦ SortedMap.empty) setAddDelete ∧
      hgetall (stateAfter setAddDelete : Redis ℤ) [1] 6 = .ok [([97], [120])] := by
  have hallowed : Run.Allowed (Run.next (Run.timed specStep)) Guard (0, fun _ ↦ SortedMap.empty)
      setAddDelete := by decide +kernel
  refine ⟨hallowed, ?_⟩
  have hobs : Observes (stateAfter setAddDelete : Redis ℤ) 6 (mapsAfter setAddDelete) :=
    (hashes_refine_maps setAddDelete hallowed).2 6
  rw [hobs.hgetall [1]]
  decide +kernel

/-- A value of one byte that is not text. -/
def setByte : List (ℕ × Command) := [(1, .hsetWithOutcome [1] [97] [0xFF])]

/-- The value comes back as a replacement character. -/
theorem hget_returns_replacement_character :
    Run.Allowed (Run.next (Run.timed specStep)) Run.Advances (0, fun _ ↦ SortedMap.empty) setByte ∧
      (mapsAfter setByte [1]).get [97] = some [0xFF] ∧
      hget (stateAfter setByte : Redis ℤ) [1] [97] 2 = .ok (some [0xEF, 0xBF, 0xBD]) := by
  decide +kernel

end Kiwi.HashRefinement
