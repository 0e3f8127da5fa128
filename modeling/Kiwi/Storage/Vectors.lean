import Kiwi.Storage.Strings

/-!
# Vector sets

The operations of `redis_vectors.rs` on one instance, with the storage manifest that hands out
generations. The members of a vector set are rows under the key, the incarnation of the storage and
the generation of the set, which is the version field of its meta value. Deletion, expiry and
overwriting leave the rows behind.

**Generations.** `allocate_generation` persists the successor before it returns a generation: it
writes a temporary file, renames it over the manifest and syncs the directory. `Persist` says how
that ends. The process may also crash in it, before or after the rename, and start again from the
file.

The keys hold vector sets and strings. The vectors are those of `vector.rs` over abstract components
(`Fp32`), the encodings of rows and meta values are not modelled, and `SET` is the plain one.
-/

namespace Kiwi

inductive QuantizationType
  | none
  | binary
  | int8
  deriving DecidableEq

/-! ### Vectors -/

/-- What `vector.rs` computes with components. -/
class Fp32 (F : Type) where
  one : F
  negOne : F
  infinity : F
  negInfinity : F
  /-- `value > 0.0`. -/
  isPositive : F → Bool
  min : F → F → F
  max : F → F → F
  sub : F → F → F
  /-- `(((v - min) / range) * 255.0 - 128.0).round() as i8`. -/
  code (v min range : F) : ℤ
  /-- `min + ((f32::from(code) + 128.0) / 255.0) * range`. -/
  decode (code : ℤ) (min range : F) : F

inductive VectorData (F : Type)
  | fp32 (values : List F)
  /-- Eight components in a byte, the first in its lowest bit. -/
  | binary (bits : Bytes)
  | int8 (values : List ℤ) (min max : F)

structure CanonicalVector (F : Type) where
  dimension : ℕ
  originalL2 : F
  quantization : QuantizationType
  data : VectorData F

namespace CanonicalVector

variable {F : Type} [Fp32 F]

def asFp32 (v : CanonicalVector F) : List F :=
  match v.data with
  | .fp32 values => values
  | .binary bits => (List.range v.dimension).map fun i ↦
    if (bits.getD (i / 8) 0 >>> UInt8.ofNat (i % 8)) &&& 1 = 1 then Fp32.one else Fp32.negOne
  | .int8 values min max => values.map fun code ↦ Fp32.decode code min (Fp32.sub max min)

def toBinary (v : CanonicalVector F) : CanonicalVector F :=
  let byteCount := (v.dimension + 7) / 8
  let bits := v.asFp32.zipIdx.foldl (fun bits x ↦
    if Fp32.isPositive x.1 then bits.modify (x.2 / 8) (· ||| 1 <<< UInt8.ofNat (x.2 % 8)) else bits)
    (List.replicate byteCount 0)
  { v with quantization := .binary, data := .binary bits }

def toInt8 (v : CanonicalVector F) : CanonicalVector F :=
  let fp32 := v.asFp32
  let min := fp32.foldl Fp32.min Fp32.infinity
  let max := fp32.foldl Fp32.max Fp32.negInfinity
  let range := Fp32.sub max min
  let values := fp32.map fun x ↦ if Fp32.isPositive range then Fp32.code x min range else -128
  { v with quantization := .int8, data := .int8 values min max }

def toQuantized (v : CanonicalVector F) (target : QuantizationType) :
    Except Error (CanonicalVector F) :=
  if v.quantization = target then .ok v
  else
    match target with
    | .none => .ok { v with quantization := .none, data := .fp32 v.asFp32 }
    | .binary => .ok v.toBinary
    | .int8 => .ok v.toInt8

/-- Quantization keeps the dimension. -/
theorem dimension_toQuantized {v w : CanonicalVector F} {q : QuantizationType}
    (h : v.toQuantized q = .ok w) : w.dimension = v.dimension := by
  unfold toQuantized at h
  split_ifs at h
  · rw [Except.ok.inj h]
  · cases q <;> exact (Except.ok.inj h) ▸ rfl

end CanonicalVector

/-- What the operations use of `CanonicalVector`. -/
class VectorOps (V : Type) where
  dimension : V → ℕ
  quantization : V → QuantizationType
  toQuantized : V → QuantizationType → Except Error V
  dimension_toQuantized : ∀ {v w : V} {q}, toQuantized v q = .ok w → dimension w = dimension v

instance {F : Type} [Fp32 F] : VectorOps (CanonicalVector F) where
  dimension := CanonicalVector.dimension
  quantization := CanonicalVector.quantization
  toQuantized := CanonicalVector.toQuantized
  dimension_toQuantized := CanonicalVector.dimension_toQuantized

/-- `VectorMeta`; the metric is always the cosine. -/
structure VectorMeta where
  count : ℕ
  /-- The generation, until the set is deleted. -/
  version : ℕ
  dimension : ℕ
  quantization : QuantizationType
  dataRevision : ℕ
  ctime : ℕ
  /-- Expiry time, `0` for none. -/
  etime : ℕ

namespace Vectors

variable {V : Type}

/-- A value of the meta column family: a string or a vector set. -/
inductive StoredMeta
  | string (value : StringsValue)
  | vector (value : VectorMeta)

/-- `is_stale_static`. -/
def StoredMeta.isStale (now : ℕ) : StoredMeta → Bool
  | string v => isExpired v.etime now
  | vector m => m.count == 0 || isExpired m.etime now

/-- The limits of `VADD` in the configuration. -/
structure VectorConfig where
  maxDimension : ℕ
  maxElementBytes : ℕ
  maxVectorBytes : ℕ

/-- `ManifestFile`, and what `StorageManifest` has in memory. -/
structure Manifest where
  storageIncarnation : ℕ
  nextGeneration : ℕ

/-- An instance as far as vector sets use it: its meta values and member rows, the manifest as the
file and as the process has it, and the clock. -/
structure Db (V : Type) where
  metaCF : SortedMap Bytes StoredMeta
  /-- The rows of members, by incarnation. -/
  vectorDataCF : ℕ → SortedMap (DataKey Bytes) V
  file : Manifest
  manifest : Manifest
  /-- The generations that were handed out. -/
  handedOut : List ℕ
  now : ℕ

/-- A new instance, with the incarnation that `StorageManifest::open` chose. -/
def Db.new (storageIncarnation now : ℕ) : Db V :=
  ⟨.empty, fun _ ↦ .empty, ⟨storageIncarnation, 1⟩, ⟨storageIncarnation, 1⟩, [], now⟩

/-- A restart: `StorageManifest::open` reads the file. -/
def Db.restart (db : Db V) : Db V := { db with manifest := db.file }

/-! ### Generations -/

/-- How `persist` ends: normally, with an error, or with a crash, and whether the rename happened.
-/
inductive Persist
  | done
  | failed (renamed : Bool)
  | crashed (renamed : Bool)

/-- Whether the file has the new value. -/
def Persist.renamed : Persist → Bool
  | done => true
  | failed renamed => renamed
  | crashed renamed => renamed

/-- The answer of an operation; `crashed` if the process ended in it. -/
inductive Reply (α : Type)
  | ok (a : α)
  | error (e : Error)
  | crashed

def allocateGeneration (io : Persist) (db : Db V) : Reply ℕ × Db V :=
  let generation := db.manifest.nextGeneration
  if generation + 1 ≥ 2 ^ 64 then
    (.error (.invalidFormat "generation sequence exhausted"), db)
  else
    let db := if io.renamed then
        { db with file := { db.manifest with nextGeneration := generation + 1 } }
      else db
    match io with
    | .done =>
      (.ok generation, { db with
        manifest := { db.manifest with nextGeneration := generation + 1 }
        handedOut := db.handedOut ++ [generation] })
    | .failed _ => (.error (.system "storage manifest"), db)
    | .crashed _ => (.crashed, db.restart)

/-! ### Rows and meta values -/

/-- The rows of members under the current incarnation. -/
def Db.rows (db : Db V) : SortedMap (DataKey Bytes) V :=
  db.vectorDataCF db.manifest.storageIncarnation

/-- `read_live_vector_meta_for_apply` and `read_vector_meta`. -/
def readLiveVectorMeta (db : Db V) (key : Bytes) : Except Error (Option VectorMeta) :=
  match db.metaCF.get key with
  | none => .ok none
  | some (.string v) => if isExpired v.etime db.now then .ok none else .error wrongTypeError
  | some (.vector m) =>
    .ok (if !isExpired m.etime db.now && m.count != 0 then some m else none)

/-- `vector_member_key`: whether the key is short enough. -/
def checkKey (key : Bytes) : Except Error Unit :=
  if key.length < 2 ^ 32 then .ok ()
  else
    let len := key.length
    .error (.invalidArgument s!"vector member key too long: {len} bytes")

/-- A batch with one row and the meta value. -/
def Db.commit (db : Db V) (row : DataKey Bytes × Option V) (key : Bytes)
    (value : Option StoredMeta) : Db V :=
  { db with
    vectorDataCF := Function.update db.vectorDataCF db.manifest.storageIncarnation
      (db.rows.write row)
    metaCF := db.metaCF.write (key, value) }

/-- `set_count` and `bump_data_revision`. -/
def bump (m : VectorMeta) (count : ℕ) : VectorMeta :=
  { m with count := count, dataRevision := min (m.dataRevision + 1) (2 ^ 64 - 1) }

/-! ### `VADD` -/

section

variable [VectorOps V]

/-- `VectorMeta::new`, as `apply_vector_add` calls it. -/
def newMeta (vector : V) (generation now : ℕ) : VectorMeta :=
  ⟨1, generation, VectorOps.dimension vector, VectorOps.quantization vector, 1, now, 0⟩

/-- `apply_vector_add` on a new set. -/
def addFirst (key element : Bytes) (vector : V) (generation : ℕ) (db : Db V) : Reply Bool × Db V :=
  let m := newMeta vector generation db.now
  match checkKey key with
  | .error e => (.error e, db)
  | .ok _ =>
    match VectorOps.toQuantized vector m.quantization with
    | .error e => (.error e, db)
    | .ok stored =>
      (.ok true, db.commit (⟨key, generation, element⟩, some stored) key (some (.vector m)))

/-- `apply_vector_add` on a set that exists. -/
def addTo (key element : Bytes) (vector : V) (m : VectorMeta) (db : Db V) : Reply Bool × Db V :=
  if m.dimension ≠ VectorOps.dimension vector then
    let expected := m.dimension
    let got := VectorOps.dimension vector
    (.error (.invalidArgument s!"vector dimension mismatch: expected {expected}, got {got}"), db)
  else
    match checkKey key with
    | .error e => (.error e, db)
    | .ok _ =>
      let inserted := (db.rows.get ⟨key, m.version, element⟩).isNone
      if inserted && m.count + 1 ≥ 2 ^ 64 then
        (.error (.invalidArgument "vector set size overflow"), db)
      else
        match VectorOps.toQuantized vector m.quantization with
        | .error e => (.error e, db)
        | .ok stored =>
          (.ok inserted, db.commit (⟨key, m.version, element⟩, some stored) key
            (some (.vector (bump m (if inserted then m.count + 1 else m.count)))))

def applyVectorAdd (key element : Bytes) (vector : V) (io : Persist) (db : Db V) :
    Reply Bool × Db V :=
  match readLiveVectorMeta db key with
  | .error e => (.error e, db)
  | .ok (some m) => addTo key element vector m db
  | .ok none =>
    match allocateGeneration io db with
    | (.error e, db) => (.error e, db)
    | (.crashed, db) => (.crashed, db)
    | (.ok generation, db) => addFirst key element vector generation db

/-- The checks of `vadd`. -/
def checkVadd (config : VectorConfig) (element : Bytes) (vector : V) : Except Error Unit :=
  if VectorOps.dimension vector > config.maxDimension then
    .error (.redisErr "ERR vector dimension exceeds max_dimension")
  else if element.length > config.maxElementBytes then
    .error (.redisErr "ERR vector element exceeds max_element_bytes")
  else if VectorOps.dimension vector * 4 > config.maxVectorBytes then
    .error (.redisErr "ERR vector exceeds max_vector_bytes")
  else .ok ()

def vadd (config : VectorConfig) (key element : Bytes) (vector : V) (io : Persist) (db : Db V) :
    Reply Bool × Db V :=
  match checkVadd config element vector with
  | .error e => (.error e, db)
  | .ok _ => applyVectorAdd key element vector io db

end

/-! ### Other operations -/

/-- `apply_vector_remove`, and `vrem`. -/
def vrem (key element : Bytes) (db : Db V) : Reply Bool × Db V :=
  match readLiveVectorMeta db key with
  | .error e => (.error e, db)
  | .ok none => (.ok false, db)
  | .ok (some m) =>
    match checkKey key with
    | .error e => (.error e, db)
    | .ok _ =>
      if (db.rows.get ⟨key, m.version, element⟩).isNone then (.ok false, db)
      else
        (.ok true, db.commit (⟨key, m.version, element⟩, none) key
          (if m.count > 1 then some (.vector (bump m (m.count - 1))) else none))

def delKey (key : Bytes) (db : Db V) : Reply Bool × Db V :=
  match db.metaCF.get key with
  | none => (.ok false, db)
  | some value =>
    if value.isStale db.now then (.ok false, db)
    else
      match value with
      | .string _ => (.ok true, { db with metaCF := db.metaCF.write (key, none) })
      | .vector m =>
        let deleted := { m with count := 0, version := updateVersion m.version db.now, etime := 0 }
        (.ok true, { db with metaCF := db.metaCF.write (key, some (.vector deleted)) })

/-- The same value under another expiry time. -/
def StoredMeta.setEtime (etime : ℕ) : StoredMeta → StoredMeta
  | string v => string { v with etime := etime }
  | vector m => vector { m with etime := etime }

/-- `set_key_etime`, which `expire` calls. -/
def setKeyEtime (key : Bytes) (etime : ℕ) (db : Db V) : Reply Bool × Db V :=
  match db.metaCF.get key with
  | none => (.ok false, db)
  | some value =>
    if value.isStale db.now then (.ok false, db)
    else (.ok true, { db with metaCF := db.metaCF.write (key, some (value.setEtime etime)) })

def set (key value : Bytes) (db : Db V) : Reply Bool × Db V :=
  (.ok true, { db with metaCF := db.metaCF.write (key, some (.string ⟨value, db.now, 0⟩)) })

/-! ### Reads -/

def vcard (db : Db V) (key : Bytes) : Except Error ℕ :=
  (readLiveVectorMeta db key).map fun found ↦ found.elim 0 VectorMeta.count

def vismember (db : Db V) (key element : Bytes) : Except Error Bool := do
  match ← readLiveVectorMeta db key with
  | none => return false
  | some m =>
    checkKey key
    return (db.rows.get ⟨key, m.version, element⟩).isSome

/-- The candidates of `vsim_scan`: the rows under the prefix of the set, all of its dimension. -/
def vsimCandidates [VectorOps V] (db : Db V) (key : Bytes) : Except Error (List (Bytes × V)) := do
  match ← readLiveVectorMeta db key with
  | none => return []
  | some m =>
    checkKey key
    if (DataKey.rowsAt db.rows key m.version).all fun r ↦
        VectorOps.dimension r.2 == m.dimension then
      return DataKey.rowsAt db.rows key m.version
    else throw (.invalidFormat "vector member dimension does not match meta dimension")

/-! ### Runs -/

/-- What may happen to an instance. -/
inductive Event (V : Type)
  | vadd (key element : Bytes) (vector : V) (io : Persist)
  | vrem (key element : Bytes)
  | delKey (key : Bytes)
  | expire (key : Bytes) (etime : ℕ)
  | set (key value : Bytes)
  | tick (elapsed : ℕ)
  | restart

variable [VectorOps V]

/-- What an event answers, and the instance after it. Ticks and restarts always succeed. -/
def step (config : VectorConfig) (db : Db V) : Event V → Reply Bool × Db V
  | .vadd key element vector io => vadd config key element vector io db
  | .vrem key element => vrem key element db
  | .delKey key => delKey key db
  | .expire key etime => setKeyEtime key etime db
  | .set key value => set key value db
  | .tick elapsed => (.ok true, { db with now := db.now + elapsed })
  | .restart => (.ok true, db.restart)

/-- A run: the answers, and the instance after it. -/
def run (config : VectorConfig) (db : Db V) : List (Event V) → List (Event V × Reply Bool) × Db V
  | [] => ([], db)
  | e :: es =>
    let next := step config db e
    ((e, next.1) :: (run config next.2 es).1, (run config next.2 es).2)

end Vectors

end Kiwi
