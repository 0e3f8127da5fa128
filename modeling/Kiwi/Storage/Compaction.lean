import Kiwi.Storage.Redis

/-!
# Compaction filters

While RocksDB compacts a column family it asks a filter about every entry it meets, and drops the
entries for which the filter answers `Remove`.

* `MetaCompactionFilter` decides about an entry of `MetaCF` from the entry itself: an expired value
  and an emptied collection are removed.
* `DataCompactionFilter` decides about an entry of a data column family from the meta value of its
  key. It looks the meta value up when it meets the first entry of a key, and keeps the version and
  the expiry time it found for the entries of that key that follow.

Entries of the model always parse, so the answers to entries that do not are left out. Column
families hold one row a key here; an entry that is hidden by a newer one of the same key is not a
row. The last section has the data filter with lookups that fail, and with members of vector sets.
-/

namespace Kiwi

variable {S : Type}

/-! ### Data rows -/

/-- A data row: a column family, and a key in it. -/
inductive Row (S : Type)
  | hash (k : DataKey Bytes)
  | set (k : DataKey Bytes)
  | list (k : DataKey ℕ)
  | zset (k : DataKey Bytes)
  | score (k : DataKey (S ×ₗ Bytes))

namespace Row

/-- The user key of a row. -/
@[simp] def key : Row S → Bytes
  | hash k | set k | zset k => k.key
  | list k => k.key
  | score k => k.key

/-- The version under which a row is stored. -/
@[simp] def version : Row S → ℕ
  | hash k | set k | zset k => k.version
  | list k => k.version
  | score k => k.version

/-- The type of the collections whose rows are in this column family. -/
@[simp] def dataType : Row S → DataType
  | hash _ => .hash
  | set _ => .set
  | list _ => .list
  | zset _ | score _ => .zset

/-- What such a row stores. -/
@[simp] def Value : Row S → Type
  | hash _ | list _ => Bytes
  | set _ | score _ => Unit
  | zset _ => S

/-- The write of a value to a row, or the delete of the row. -/
@[simp] def entry : (r : Row S) → Option r.Value → Entry S
  | hash k, o => .hashesDataCF k o
  | set k, o => .setsDataCF k o
  | list k, o => .listsDataCF k o
  | zset k, o => .zsetsDataCF k o
  | score k, o => .zsetsScoreCF k o

theorem dataType_ne_string (r : Row S) : r.dataType ≠ .string := by
  cases r <;> simp

end Row

namespace Redis

variable [LinearOrder S]

/-- What is stored in a row. -/
@[simp] def lookup (db : Redis S) : (r : Row S) → Option r.Value
  | .hash k => db.hashesDataCF.get k
  | .set k => db.setsDataCF.get k
  | .list k => db.listsDataCF.get k
  | .zset k => db.zsetsDataCF.get k
  | .score k => db.zsetsScoreCF.get k

omit [LinearOrder S] in
/-- The writes of one family either name a key or do not. -/
theorem get_apply_cases {K V : Type} [LinearOrder K] (ws : List (K × Option V)) (k : K) :
    (∀ m m' : SortedMap K V, (m.apply ws).get k = (m'.apply ws).get k) ∨
      ∀ m : SortedMap K V, (m.apply ws).get k = m.get k := by
  by_cases h : k ∈ ws.map Prod.fst
  · exact Or.inl fun m m' ↦ SortedMap.get_apply_eq_of_mem m m' h
  · exact Or.inr fun m ↦ SortedMap.get_apply_of_notMem h

/-- **A batch decides a row, or leaves it alone.** -/
theorem lookup_write_cases (b : Batch S) (r : Row S) :
    (∀ db db' : Redis S, (db.write b).lookup r = (db'.write b).lookup r) ∨
      ∀ db : Redis S, (db.write b).lookup r = db.lookup r := by
  cases r with
  | hash k | set k | list k | zset k | score k =>
    exact (get_apply_cases _ k).imp (fun h _ _ ↦ h _ _) fun h _ ↦ h _

theorem metaCF_write_cases (b : Batch S) (key : Bytes) :
    (∀ db db' : Redis S, (db.write b).metaCF.get key = (db'.write b).metaCF.get key) ∨
      ∀ db : Redis S, (db.write b).metaCF.get key = db.metaCF.get key :=
  (get_apply_cases _ key).imp (fun h _ _ ↦ h _ _) fun h _ ↦ h _

theorem lookup_write_eq_some {db : Redis S} {b : Batch S} {r : Row S} {x : r.Value}
    (h : (db.write b).lookup r = some x) : r.entry (some x) ∈ b ∨ db.lookup r = some x := by
  cases r with
  | hash k => exact (SortedMap.get_apply_eq_some h).imp_left Entry.mem_hashWrites.1
  | set k => exact (SortedMap.get_apply_eq_some h).imp_left Entry.mem_setWrites.1
  | list k => exact (SortedMap.get_apply_eq_some h).imp_left Entry.mem_listWrites.1
  | zset k => exact (SortedMap.get_apply_eq_some h).imp_left Entry.mem_zsetWrites.1
  | score k => exact (SortedMap.get_apply_eq_some h).imp_left Entry.mem_scoreWrites.1

/-- Dropping a row. -/
def drop (db : Redis S) (r : Row S) : Redis S := db.write [r.entry none]

variable (db : Redis S)

theorem metaCF_drop (r : Row S) : (db.drop r).metaCF = db.metaCF := by
  cases r <;> rfl

theorem lookup_drop_of_ne {r r' : Row S} (h : r' ≠ r) : (db.drop r).lookup r' = db.lookup r' := by
  cases r <;> cases r' <;> first
    | rfl
    | exact SortedMap.get_erase_of_ne _ fun hk ↦ h (congrArg _ hk)

/-- Dropping the meta row of a key. -/
def dropMeta (db : Redis S) (key : Bytes) : Redis S := db.write [.metaCF key none]

end Redis

/-! ### Filters -/

inductive CompactionDecision
  | keep
  | remove
  deriving DecidableEq, Repr

/-- `MetaCompactionFilter::filter`. -/
def MetaCompactionFilter.filter (now : ℕ) : MetaValue → CompactionDecision
  | .string v => if v.etime ≠ 0 ∧ v.etime < now then .remove else .keep
  | .list m =>
    if (m.etime ≠ 0 ∧ m.etime < now) ∨ (m.count = 0 ∧ m.version < now) then .remove else .keep
  | .base m =>
    if (m.etime ≠ 0 ∧ m.etime < now) ∨ (m.count = 0 ∧ m.version < now) then .remove else .keep

theorem MetaCompactionFilter.isStale_of_remove {now : ℕ} {m : MetaValue}
    (h : filter now m = .remove) : m.isStale now = true := by
  have hexpired : ∀ {e : ℕ}, e ≠ 0 ∧ e < now → isExpired e now = true := by
    intro e he
    simp [isExpired, he]
  have hempty : ∀ {e count version : ℕ}, (e ≠ 0 ∧ e < now) ∨ (count = 0 ∧ version < now) →
      (count == 0 || isExpired e now) = true := by
    rintro e count version (he | hc)
    · rw [hexpired he, Bool.or_true]
    · rw [hc.1]
      rfl
  cases m with
  | string v =>
    rw [filter] at h
    split_ifs at h with hv
    exact hexpired hv
  | list m | base m =>
    rw [filter] at h
    split_ifs at h with hm
    exact hempty hm

/-- `DataCompactionFilter`: the type of its collections, and what it knows about the key whose
entries it meets. `cur_key` is `none` until the first entry. -/
structure DataCompactionFilter where
  dataType : DataType
  curKey : Option Bytes
  metaNotFound : Bool
  curMetaVersion : ℕ
  curMetaEtime : ℕ
  deriving DecidableEq, Repr

namespace DataCompactionFilter

/-- `DataCompactionFilter::new`. -/
def new (dataType : DataType) : DataCompactionFilter :=
  { dataType, curKey := none, metaNotFound := false, curMetaVersion := 0, curMetaEtime := 0 }

/-- `parse_meta_value`: version and expiry time of a collection of the filter's type. -/
def parseMetaValue (f : DataCompactionFilter) (m : MetaValue) : Option (ℕ × ℕ) :=
  if m.dataType ≠ f.dataType then none
  else
    match m with
    | .list m => some (m.version, m.etime)
    | .base m => some (m.version, m.etime)
    | .string _ => none

/-- `ensure_meta_state`: look the meta value up, unless the key is the current one. -/
def ensureMetaState [LinearOrder S] (f : DataCompactionFilter) (db : Redis S) (key : Bytes) :
    DataCompactionFilter :=
  if f.curKey = some key then f
  else
    match (db.metaCF.get key).bind f.parseMetaValue with
    | some (version, etime) =>
      { f with curKey := some key, metaNotFound := false
               curMetaVersion := version, curMetaEtime := etime }
    | none =>
      { f with curKey := some key, metaNotFound := true, curMetaVersion := 0, curMetaEtime := 0 }

/-- The answer for an entry of the current key. -/
def decide (f : DataCompactionFilter) (now version : ℕ) : CompactionDecision :=
  if f.metaNotFound then .remove
  else if f.curMetaEtime ≠ 0 ∧ f.curMetaEtime < now then .remove
  else if f.curMetaVersion > version then .remove
  else .keep

/-- `DataCompactionFilter::filter`: the answer, and the filter afterwards. -/
def filter [LinearOrder S] (f : DataCompactionFilter) (db : Redis S) (now : ℕ) (r : Row S) :
    CompactionDecision × DataCompactionFilter :=
  let f := f.ensureMetaState db r.key
  (f.decide now r.version, f)

end DataCompactionFilter

/-! ### Lookups that fail -/

inductive MetaLookup
  | unavailable
  | notFound
  | valid

/-- A key that a data filter is asked about. -/
inductive FilterKey
  /-- Neither `build_meta_key` nor `ParsedVectorMemberDataKey::decode` accepts it. -/
  | malformed
  /-- The row of a collection, with the version that `extract_data_version` finds. -/
  | row (key : Bytes) (version : Option ℕ)
  /-- A member of a vector set. -/
  | member (key : Bytes) (storageIncarnation generation : ℕ)

/-- The user key, from which the meta key is built. -/
def FilterKey.metaKey : FilterKey → Option Bytes
  | malformed => none
  | row key _ | member key _ _ => some key

/-- A call of a data filter: the key, and what there is to be seen at that time. -/
structure FilterCall where
  key : FilterKey
  /-- What `get_cf` returns for the meta key; `none` if it fails or there is no database. -/
  read : Option (Option MetaValue)
  now : ℕ
  /-- The incarnation of the storage, once it is set. -/
  storageIncarnation : Option ℕ

/-- The row is older than the version in the meta value, or the member is from another incarnation
or generation. -/
def FilterCall.isOutdated (call : FilterCall) (metaVersion : ℕ) : Bool :=
  match call.key with
  | .malformed => false
  | .row _ version => version.any (metaVersion > ·)
  | .member _ storageIncarnation generation => call.storageIncarnation.any fun current ↦
      storageIncarnation ≠ current || generation ≠ metaVersion

namespace DataCompactionFilter

/-- `ensure_meta_state`. -/
def ensureMeta (f : DataCompactionFilter) (read : Option (Option MetaValue)) (key : Bytes) :
    MetaLookup × DataCompactionFilter :=
  if f.curKey = some key then (if f.metaNotFound then .notFound else .valid, f)
  else
    let f := { f with
      curKey := some key, metaNotFound := false, curMetaVersion := 0, curMetaEtime := 0 }
    match read with
    | none => (.unavailable, f)
    | some value =>
      match value.bind f.parseMetaValue with
      | some (version, etime) =>
        (.valid, { f with curMetaVersion := version, curMetaEtime := etime })
      | none => (.notFound, { f with metaNotFound := true })

/-- The answer of `filter` and of `filter_vector_member`. -/
def answer (f : DataCompactionFilter) (call : FilterCall) : MetaLookup → CompactionDecision
  | .unavailable => .keep
  | .notFound => .remove
  | .valid =>
    if f.curMetaEtime ≠ 0 ∧ f.curMetaEtime < call.now then .remove
    else if call.isOutdated f.curMetaVersion then .remove
    else .keep

/-- `DataCompactionFilter::filter`, for any key. -/
def filterCall (f : DataCompactionFilter) (call : FilterCall) :
    CompactionDecision × DataCompactionFilter :=
  match call.key.metaKey with
  | none => (.keep, f)
  | some key =>
    let (lookup, f) := f.ensureMeta call.read key
    (f.answer call lookup, f)

/-- **A filter that can read**: `filter` is `filterCall` for the row of a collection, with a lookup
that returns what the database holds. -/
theorem filter_eq_filterCall [LinearOrder S] (f : DataCompactionFilter) (db : Redis S) (now : ℕ)
    (r : Row S) (storageIncarnation : Option ℕ) :
    f.filter db now r = f.filterCall
      ⟨.row r.key (some r.version), some (db.metaCF.get r.key), now, storageIncarnation⟩ := by
  unfold filter filterCall ensureMetaState ensureMeta
  dsimp only [FilterKey.metaKey]
  by_cases hkey : f.curKey = some r.key
  · rw [if_pos hkey, if_pos hkey, decide]
    by_cases hfound : f.metaNotFound = true
    · rw [if_pos hfound, if_pos hfound]
      rfl
    · rw [if_neg hfound, if_neg hfound]
      simp [answer, FilterCall.isOutdated]
  · rw [if_neg hkey, if_neg hkey]
    have hparse : ∀ m, parseMetaValue { f with
        curKey := some r.key, metaNotFound := false, curMetaVersion := 0, curMetaEtime := 0 } m =
          f.parseMetaValue m := fun _ ↦ rfl
    simp only [hparse]
    rcases (db.metaCF.get r.key).bind f.parseMetaValue with _ | ⟨version, etime⟩
    · rfl
    · simp [decide, answer, FilterCall.isOutdated]

end DataCompactionFilter

end Kiwi
