import Kiwi.Storage.Strings

/-!
# Collections as maps

Hashes and sets are stored alike: a meta value in the base layout with a count and a version, and
under that version one data row for each element. A `Family` is such a kind of collection: its type
byte and its data column family. For a family, `At` relates a key of the database to a finite map:
the rows under the version of its meta value are the map, and the count is the size of the map.
Nothing that is left under other versions matters, as long as those are not above the clock, so that
a collection that is created finds nothing under its version.

`At.write` is the only rule for batches: a batch that writes rows under one version, and leaves the
meta value of that version with the right count, leaves the map with those writes applied.
-/

namespace Kiwi

/-- A kind of collection that is stored as a count, a version and one row for each element. -/
structure Family (S V : Type) [LinearOrder S] where
  type : BaseType
  table : Redis S → SortedMap (DataKey Bytes) V
  /-- The write of an entry to that column family. -/
  write? : Entry S → Option (DataKey Bytes × Option V)
  /-- Meta rows are in another column family. -/
  write?_metaCF : ∀ key o, write? (.metaCF key o) = none
  /-- A batch writes the entries of the column family in order. -/
  table_write : ∀ (db : Redis S) (b : Batch S),
    table (db.write b) = (table db).apply (b.filterMap write?)
  /-- The empty database has no rows. -/
  table_empty : table Redis.empty = .empty
  /-- Databases that agree at a key have the same rows there. -/
  table_congr : ∀ {db db' : Redis S} {key : Bytes}, db'.AgreeAt db key →
    ∀ v d, (table db').get ⟨key, v, d⟩ = (table db).get ⟨key, v, d⟩

namespace Family

variable {S V : Type} [LinearOrder S] (F : Family S V)

/-- Hashes: fields with values. -/
def hashes (S : Type) [LinearOrder S] : Family S Bytes where
  type := .hash
  table := Redis.hashesDataCF
  write? := Entry.hashWrite?
  write?_metaCF _ _ := rfl
  table_write _ _ := rfl
  table_empty := rfl
  table_congr h := h.hashesDataCF

/-- Sets: members without values. -/
def sets (S : Type) [LinearOrder S] : Family S Unit where
  type := .set
  table := Redis.setsDataCF
  write? := Entry.setWrite?
  write?_metaCF _ _ := rfl
  table_write _ _ := rfl
  table_empty := rfl
  table_congr h := h.setsDataCF

/-- The rows of a key under a version. -/
def mapAt (db : Redis S) (key : Bytes) (version : ℕ) : SortedMap Bytes V :=
  (F.table db).slice (DataKey.part key version)

variable (db : Redis S) (key : Bytes) (version : ℕ)

theorem get_mapAt (x : Bytes) :
    (F.mapAt db key version).get x = (F.table db).get ⟨key, version, x⟩ := by
  rw [mapAt, SortedMap.get_slice, DataKey.part_key]

theorem rowsAt_table : DataKey.rowsAt (F.table db) key version = (F.mapAt db key version).rows :=
  DataKey.rowsAt_eq_rows_slice _ _ _

/-- A meta value stands for a map: it is one of the family without expiry, under a version that is
at most `c`; its count is the size of the map, and the rows under its version are the map. -/
structure Stored (c : ℕ) (db : Redis S) (key : Bytes) (m : BaseMetaValue)
    (map : SortedMap Bytes V) : Prop where
  type : m.dataType = F.type
  /-- There is no expiry. -/
  etime : m.etime = 0
  version : m.version ≤ c
  count : m.count = map.size
  rows : F.mapAt db key m.version = map

/-- What is stored for a key is the map. -/
structure At (c : ℕ) (db : Redis S) (key : Bytes) (map : SortedMap Bytes V) : Prop where
  /-- Without a meta value, the map is empty. -/
  missing : db.metaCF.get key = none → map = .empty
  /-- A meta value stands for the map. -/
  found : ∀ {value}, db.metaCF.get key = some value →
    ∃ m, value = .base m ∧ F.Stored c db key m map
  /-- Every version in use is at most `c`. -/
  rows : ∀ {v d x}, (F.table db).get ⟨key, v, d⟩ = some x → v ≤ c

variable {F} {db : Redis S} {key : Bytes} {c c' now : ℕ} {map map' : SortedMap Bytes V}

theorem at_empty (key : Bytes) : F.At 0 Redis.empty key .empty := by
  refine ⟨fun _ ↦ rfl, fun h ↦ ?_, fun h ↦ ?_⟩
  · simp [Redis.empty] at h
  · rw [F.table_empty, SortedMap.get_empty] at h
    cases h

variable {db' : Redis S}

theorem mapAt_congr (hagree : db'.AgreeAt db key) (v : ℕ) : F.mapAt db' key v = F.mapAt db key v :=
  SortedMap.slice_congr fun d ↦ F.table_congr hagree v d

variable {m : BaseMetaValue}

theorem Stored.congr (h : F.Stored c db key m map) (hc : c ≤ c')
    (hagree : db'.AgreeAt db key) : F.Stored c' db' key m map :=
  ⟨h.type, h.etime, h.version.trans hc, h.count, (mapAt_congr hagree _).trans h.rows⟩

/-- **Frame.** The relation at a key depends on nothing but what is stored for that key. -/
theorem At.congr (h : F.At c db key map) (hc : c ≤ c')
    (hagree : db'.AgreeAt db key) : F.At c' db' key map := by
  constructor
  · intro hnone
    exact h.missing (hagree.metaCF ▸ hnone)
  · intro value hvalue
    obtain ⟨m, rfl, hm⟩ := h.found (hagree.metaCF ▸ hvalue)
    exact ⟨m, rfl, hm.congr hc hagree⟩
  · intro v d x hx
    exact (h.rows (F.table_congr hagree v d ▸ hx)).trans hc

theorem Stored.get_eq (h : F.Stored c db key m map) (x : Bytes) :
    (F.table db).get ⟨key, m.version, x⟩ = map.get x := by
  rw [← h.rows, get_mapAt]

theorem At.lookup (h : F.At c db key map) (now : ℕ) :
    (db.baseMeta F.type key now = .ok none ∧ map = .empty) ∨
      ∃ m, db.baseMeta F.type key now = .ok (some m) ∧ db.metaCF.get key = some (.base m) ∧
        m.count ≠ 0 ∧ F.Stored c db key m map := by
  rcases hget : db.metaCF.get key with _ | value
  · refine Or.inl ⟨?_, h.missing hget⟩
    rw [Redis.baseMeta_eq_ok_none_iff, Redis.liveMeta, hget]
    rfl
  · obtain ⟨m, rfl, hm⟩ := h.found hget
    by_cases hzero : m.count = 0
    · refine Or.inl ⟨?_, ?_⟩
      · rw [Redis.baseMeta_eq_ok_none_iff, Redis.liveMeta_eq_none_iff]
        intro m' hm'
        obtain rfl := Option.some.inj (hget.symm.trans hm')
        simp [MetaValue.isStale, hzero]
      · have hsize : map.size = 0 := hm.count ▸ hzero
        exact SortedMap.eq_empty_of_size_eq_zero hsize
    · refine Or.inr ⟨m, ?_, rfl, hzero, hm⟩
      rw [Redis.baseMeta_eq_ok_some_iff, Redis.liveMeta_eq_some_iff]
      refine ⟨⟨hget, ?_⟩, hm.type⟩
      simp [MetaValue.isStale, hzero, isExpired, hm.etime]

variable {v : ℕ}

theorem At.mapAt_eq_empty (h : F.At c db key map) (hv : c < v) : F.mapAt db key v = .empty := by
  refine SortedMap.ext_get fun d ↦ ?_
  rw [get_mapAt, SortedMap.get_empty]
  refine Option.eq_none_iff_forall_ne_some.2 fun x hx ↦ ?_
  exact absurd (h.rows hx) (not_le.2 hv)

/-! ### Batches -/

variable {b : Batch S} {m : BaseMetaValue} {ws : List (Bytes × Option V)}

section

variable (h : F.At c db key map) (hc : c ≤ c')

include h hc

/-- Rows that carry a version at most `c'`, after writes under one version. -/
theorem At.rows_write (hv : v ≤ c')
    (hwrites : b.filterMap F.write? = ws.map fun w ↦ (⟨key, v, w.1⟩, w.2)) {v' : ℕ} {d : Bytes}
    {x : V} (hx : (F.table (db.write b)).get ⟨key, v', d⟩ = some x) : v' ≤ c' := by
  rw [F.table_write, hwrites] at hx
  rcases SortedMap.get_apply_eq_some hx with hput | hold
  · obtain ⟨w, -, he⟩ := List.mem_map.1 hput
    have hversion : v = v' := congrArg (fun p ↦ p.1.version) he
    exact hversion ▸ hv
  · exact (h.rows hold).trans hc

/-- **A batch that leaves a meta value.** -/
theorem At.write (hmeta : (db.write b).metaCF.get key = some (.base m))
    (htype : m.dataType = F.type) (hetime : m.etime = 0) (hversion : m.version ≤ c')
    (hwrites : b.filterMap F.write? = ws.map fun w ↦ (⟨key, m.version, w.1⟩, w.2))
    (hmap : (F.mapAt db key m.version).apply ws = map') (hcount : m.count = map'.size) :
    F.At c' (db.write b) key map' := by
  have hrows : F.mapAt (db.write b) key m.version = map' := by
    rw [mapAt, F.table_write, hwrites, ← hmap]
    exact SortedMap.slice_apply_key _ (DataKey.part key m.version) ws
  constructor
  · intro hnone
    rw [hmeta] at hnone
    cases hnone
  · intro value hvalue
    obtain rfl := Option.some.inj (hmeta.symm.trans hvalue)
    exact ⟨m, rfl, htype, hetime, hversion, hcount, hrows⟩
  · exact h.rows_write hc hversion hwrites

/-- **A batch that deletes the meta value.** -/
theorem At.clear (hv : v ≤ c') (hmeta : (db.write b).metaCF.get key = none)
    (hwrites : b.filterMap F.write? = ws.map fun w ↦ (⟨key, v, w.1⟩, w.2)) :
    F.At c' (db.write b) key .empty := by
  refine ⟨fun _ ↦ rfl, fun hvalue ↦ ?_, h.rows_write hc hv hwrites⟩
  rw [hmeta] at hvalue
  cases hvalue

end

/-! ### Operations on one key -/

variable {α β : Type}

/-- An operation on a key answers as an operation on its map, leaves the map that one leaves, and
touches nothing else. -/
structure Refines (F : Family S V) (now : ℕ) (db : Redis S) (key : Bytes)
    (result : Except Error α × Redis S) (spec : Except Error α × SortedMap Bytes V) : Prop where
  answer : result.1 = spec.1
  rows : F.At now result.2 key spec.2
  frame : ∀ k, k ≠ key → result.2.AgreeAt db k

theorem Refines.mapAnswer {result : Except Error α × Redis S}
    {spec : Except Error α × SortedMap Bytes V} (h : F.Refines now db key result spec)
    (f : α → β) : F.Refines now db key (result.1.map f, result.2) (spec.1.map f, spec.2) :=
  ⟨congrArg (Except.map f) h.answer, h.rows, h.frame⟩

theorem At.unchanged (h : F.At c db key map) (hnow : c < now) (answer : Except Error α) :
    F.Refines now db key (answer, db) (answer, map) :=
  ⟨rfl, h.congr hnow.le (.refl db key), fun k _ ↦ .refl db k⟩

theorem refines_write (answer : Except Error α) (hb : Names key b)
    (h : F.At now (db.write b) key map) : F.Refines now db key (answer, db.write b) (answer, map) :=
  ⟨rfl, h, fun _ hk ↦ Redis.agreeAt_write_of_ne hb hk⟩

/-- `del_key` answers whether there was anything, and leaves the empty map. -/
theorem delKey_refines (h : F.At c db key map) (hnow : c < now) :
    F.Refines now db key ((Strings.delKey key now).exec db)
      (.ok (decide (map.size ≠ 0)), SortedMap.empty) := by
  rw [Strings.exec_delKey]
  rcases h.lookup now with ⟨hnone, rfl⟩ | ⟨m, hsome, hget, hpos, hm⟩
  · rw [Redis.baseMeta_eq_ok_none_iff.1 hnone]
    exact h.unchanged hnow _
  have hlive := (Redis.baseMeta_eq_ok_some_iff.1 hsome).1
  have hle := hm.version
  have hversion : updateVersion m.version now = now := updateVersion_of_lt (by omega)
  have hwrites : ([.metaCF key (Strings.deletedMeta now (.base m))] : Batch S).filterMap F.write? =
      ([] : List (Bytes × Option V)).map fun w ↦ (⟨key, updateVersion m.version now, w.1⟩, w.2) :=
    List.filterMap_cons_none (F.write?_metaCF key _)
  rw [hlive, decide_eq_true (hm.count ▸ hpos)]
  refine refines_write _ (meets_meta trivial) (h.write
    (m := { m.updateVersion now with count := 0, etime := 0 }) hnow.le
      (Redis.get_metaCF_write_append db [] key _) hm.type rfl hversion.le hwrites ?_ rfl)
  show F.mapAt db key (updateVersion m.version now) = _
  rw [hversion, h.mapAt_eq_empty hnow]

end Family

end Kiwi
