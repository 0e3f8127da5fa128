import Kiwi.Lib.Program
import Kiwi.Storage.Format

/-!
# One database instance

`Redis S` is the contents of one `Redis` instance: the six column families of the collections, and
the in-memory table of scan cursors. Scores are an abstract linear order `S` with the operations
the code applies to an `f64` (`Score`).

**Batches.** An operation collects its writes in a `Batch` and commits them together. `Redis.write`
applies a batch to every column family; the writes to one family are applied in the order they were
added, and the families do not interact.

**Operations** are programs (`Kiwi.Op`) that read the contents, may fail, and commit batches. Every
operation takes the reading of the microsecond clock as an argument, one reading per operation.
Column-family handles are always present, RocksDB itself does not fail, and locks are modelled
separately.

**Looking a key up.** Every operation starts by reading the meta row of its key and checking that
it is live and of the expected type. `baseMeta`, `listMeta` and `stringValue` are that beginning
for the three layouts: they fail with `WRONGTYPE` on a live key of another type and answer `none`
when the key is missing or stale, a distinction no operation makes.
-/

namespace Kiwi

/-- The errors that storage operations return. -/
inductive Error
  | redisErr (message : String)
  | invalidFormat (message : String)
  | invalidArgument (message : String)
  | optionNone (message : String)
  /-- `KeyNotFound`, with the key as text. -/
  | keyNotFound (key : Bytes)
  | system (message : String)
  /-- The call panics. -/
  | panicked
  deriving DecidableEq, Repr

def wrongTypeError : Error :=
  .redisErr "WRONGTYPE Operation against a key holding the wrong kind of value"

/-- Scores of zsets: a linear order with the operations the code applies to an `f64`. -/
class Score (S : Type) extends LinearOrder S where
  add : S → S → S
  mul : S → S → S
  /-- `0.0`. -/
  zero : S
  /-- `1.0`. -/
  one : S
  /-- `f64::INFINITY`. -/
  infinity : S
  /-- `f64::NEG_INFINITY`. -/
  negInfinity : S
  isNan : S → Bool
  isInfinite : S → Bool
  /-- `(a - b).abs() < f64::EPSILON`. -/
  near : S → S → Bool
  /-- `str::parse::<f64>`. -/
  parse : Bytes → Option S
  format : S → Bytes

/-- Integer scores, with bounds that stand for the infinities. -/
instance Int.instScore : Score ℤ where
  add := (· + ·)
  mul := (· * ·)
  zero := 0
  one := 1
  infinity := 2 ^ 63
  negInfinity := -2 ^ 63
  isNan _ := false
  isInfinite x := x ≤ -2 ^ 63 || 2 ^ 63 ≤ x
  near a b := a == b
  parse := parseI64
  format := formatI64

/-! ### Contents -/

/-- The contents of one instance. -/
@[ext]
structure Redis (S : Type) [LinearOrder S] where
  /-- Meta values, and the strings. -/
  metaCF : SortedMap Bytes MetaValue
  hashesDataCF : SortedMap (DataKey Bytes) Bytes
  setsDataCF : SortedMap (DataKey Bytes) Unit
  listsDataCF : SortedMap (DataKey ℕ) Bytes
  /-- Zset members, with their score. -/
  zsetsDataCF : SortedMap (DataKey Bytes) S
  /-- Zset members, in the order of their score. -/
  zsetsScoreCF : SortedMap (DataKey (S ×ₗ Bytes)) Unit
  /-- Where a scan continues, by type, key, pattern and cursor. -/
  scanCursorsStore : SortedMap Bytes Bytes

/-- One write of a batch: a put, or a delete when there is no value. -/
inductive Entry (S : Type)
  | metaCF (key : Bytes) (value : Option MetaValue)
  | hashesDataCF (key : DataKey Bytes) (value : Option Bytes)
  | setsDataCF (key : DataKey Bytes) (value : Option Unit)
  | listsDataCF (key : DataKey ℕ) (value : Option Bytes)
  | zsetsDataCF (key : DataKey Bytes) (value : Option S)
  | zsetsScoreCF (key : DataKey (S ×ₗ Bytes)) (value : Option Unit)

/-- A write batch. -/
abbrev Batch (S : Type) := List (Entry S)

/-- The write of the meta value of a set or a zset with a new count, which is deleted when that
count is zero. -/
def putOrDeleteBaseMeta {S : Type} (key : Bytes) (m : BaseMetaValue) (count : ℕ) : Entry S :=
  .metaCF key (if count = 0 then none else some (.base (m.setCount count)))

namespace Entry

variable {S : Type}

/-- The user key of a write. -/
@[simp] def key : Entry S → Bytes
  | metaCF k _ => k
  | hashesDataCF k _ | setsDataCF k _ | zsetsDataCF k _ => k.key
  | listsDataCF k _ => k.key
  | zsetsScoreCF k _ => k.key

/-- The write to `MetaCF`, if it is one. -/
@[simp] def metaWrite? : Entry S → Option (Bytes × Option MetaValue)
  | metaCF k v => some (k, v)
  | _ => none

/-- The write to `HashesDataCF`, if it is one. -/
@[simp] def hashWrite? : Entry S → Option (DataKey Bytes × Option Bytes)
  | hashesDataCF k v => some (k, v)
  | _ => none

/-- The write to `SetsDataCF`, if it is one. -/
@[simp] def setWrite? : Entry S → Option (DataKey Bytes × Option Unit)
  | setsDataCF k v => some (k, v)
  | _ => none

/-- The write to `ListsDataCF`, if it is one. -/
@[simp] def listWrite? : Entry S → Option (DataKey ℕ × Option Bytes)
  | listsDataCF k v => some (k, v)
  | _ => none

/-- The write to `ZsetsDataCF`, if it is one. -/
@[simp] def zsetWrite? : Entry S → Option (DataKey Bytes × Option S)
  | zsetsDataCF k v => some (k, v)
  | _ => none

/-- The write to `ZsetsScoreCF`, if it is one. -/
@[simp] def scoreWrite? : Entry S → Option (DataKey (S ×ₗ Bytes) × Option Unit)
  | zsetsScoreCF k v => some (k, v)
  | _ => none

variable {b : Batch S}

/-- The writes to one family, when `f` recognises exactly the entries that `mk` makes. -/
theorem mem_filterMap_iff {K V : Type} {f : Entry S → Option (K × Option V)}
    {mk : K → Option V → Entry S} {k : K} {o : Option V} (hmk : f (mk k o) = some (k, o))
    (hf : ∀ e, f e = some (k, o) → e = mk k o) : (k, o) ∈ b.filterMap f ↔ mk k o ∈ b := by
  rw [List.mem_filterMap]
  constructor
  · rintro ⟨e, he, hfe⟩
    exact hf e hfe ▸ he
  · exact fun h ↦ ⟨_, h, hmk⟩

@[simp] theorem mem_metaWrites {k : Bytes} {o : Option MetaValue} :
    (k, o) ∈ b.filterMap metaWrite? ↔ metaCF k o ∈ b :=
  mem_filterMap_iff rfl (by rintro ⟨⟩ <;> simp_all)

variable {k : DataKey Bytes} {o : Option Bytes}

@[simp] theorem mem_hashWrites : (k, o) ∈ b.filterMap hashWrite? ↔ hashesDataCF k o ∈ b :=
  mem_filterMap_iff rfl (by rintro ⟨⟩ <;> simp_all)

@[simp] theorem mem_setWrites {o : Option Unit} :
    (k, o) ∈ b.filterMap setWrite? ↔ setsDataCF k o ∈ b :=
  mem_filterMap_iff rfl (by rintro ⟨⟩ <;> simp_all)

@[simp] theorem mem_listWrites {k : DataKey ℕ} :
    (k, o) ∈ b.filterMap listWrite? ↔ listsDataCF k o ∈ b :=
  mem_filterMap_iff rfl (by rintro ⟨⟩ <;> simp_all)

@[simp] theorem mem_zsetWrites {o : Option S} :
    (k, o) ∈ b.filterMap zsetWrite? ↔ zsetsDataCF k o ∈ b :=
  mem_filterMap_iff rfl (by rintro ⟨⟩ <;> simp_all)

@[simp] theorem mem_scoreWrites {k : DataKey (S ×ₗ Bytes)} {o : Option Unit} :
    (k, o) ∈ b.filterMap scoreWrite? ↔ zsetsScoreCF k o ∈ b :=
  mem_filterMap_iff rfl (by rintro ⟨⟩ <;> simp_all)

/-- `M` holds of the meta value that an entry puts, and `R` of the version of the row. -/
def Meets (M : Bytes → MetaValue → Prop) (R : Bytes → ℕ → Prop) : Entry S → Prop
  | metaCF key (some m) => M key m
  | hashesDataCF k (some _) => R k.key k.version
  | setsDataCF k (some _) => R k.key k.version
  | listsDataCF k (some _) => R k.key k.version
  | zsetsDataCF k (some _) => R k.key k.version
  | zsetsScoreCF k (some _) => R k.key k.version
  | _ => True

theorem Meets.mono {M M' : Bytes → MetaValue → Prop} {R R' : Bytes → ℕ → Prop} {e : Entry S}
    (h : e.Meets M R) (hM : ∀ m, M e.key m → M' e.key m) (hR : ∀ v, R e.key v → R' e.key v) :
    e.Meets M' R' := by
  cases e with
  | metaCF k o => cases o with
    | none => trivial
    | some m => exact hM m h
  | hashesDataCF k o | setsDataCF k o | listsDataCF k o | zsetsDataCF k o | zsetsScoreCF k o =>
    cases o <;> first | trivial | exact hR _ h

end Entry

/-! ### What batches put -/

variable {m : MetaValue}

section Meets

variable {S : Type}

/-- The entries of a batch are for the named keys, and meet `M` and `R`. -/
def Meets (names : List Bytes) (M : Bytes → MetaValue → Prop) (R : Bytes → ℕ → Prop)
    (b : Batch S) : Prop := ∀ e ∈ b, e.key ∈ names ∧ e.Meets M R

/-- The batch is for one key. -/
abbrev Names (key : Bytes) (b : Batch S) : Prop :=
  Meets [key] (fun _ _ ↦ True) (fun _ _ ↦ True) b

variable {names : List Bytes} {M M' : Bytes → MetaValue → Prop} {R R' : Bytes → ℕ → Prop}
variable {b b' : Batch S} {key : Bytes}

theorem meets_nil : Meets names M R ([] : Batch S) := fun _ h ↦ absurd h List.not_mem_nil

section

variable {e : Entry S} (hkey : e.key ∈ names) (he : e.Meets M R)

include hkey he

theorem meets_cons (hb : Meets names M R b) :
    Meets names M R (e :: b) := List.forall_mem_cons.2 ⟨⟨hkey, he⟩, hb⟩

theorem meets_singleton : Meets names M R [e] := meets_cons hkey he meets_nil

end

theorem meets_put (hM : M key m) (hb : Meets [key] M R b) :
    Meets [key] M R (.metaCF key (some m) :: b) := meets_cons (List.mem_singleton_self _) hM hb

theorem meets_meta (hM : M key m) :
    Meets [key] M R ([.metaCF key (some m)] : Batch S) := meets_put hM meets_nil

theorem meets_deleteMeta (key : Bytes) : Meets [key] M R ([.metaCF key none] : Batch S) :=
  meets_singleton (List.mem_singleton_self _) trivial

theorem meets_anyMeta (hM : ∀ m, M key m) (o : Option MetaValue) :
    Meets [key] M R ([.metaCF key o] : Batch S) := by
  cases o with
  | none => exact meets_deleteMeta key
  | some m => exact meets_meta (hM m)

theorem Meets.append (h : Meets names M R b) (h' : Meets names M R b') :
    Meets names M R (b ++ b') := List.forall_mem_append.2 ⟨h, h'⟩

theorem meets_flatMap {A : Type} {l : List A} {f : A → Batch S}
    (h : ∀ x ∈ l, Meets names M R (f x)) : Meets names M R (l.flatMap f) := by
  intro e he
  obtain ⟨x, hx, he⟩ := List.mem_flatMap.1 he
  exact h x hx e he

theorem Meets.mono (h : Meets names M R b) (hM : ∀ key m, M key m → M' key m)
    (hR : ∀ key v, R key v → R' key v) : Meets names M' R' b :=
  fun e he ↦ ⟨(h e he).1, (h e he).2.mono (hM e.key) (hR e.key)⟩

theorem Meets.key_eq (h : Meets [key] M R b) : ∀ e ∈ b, e.key = key :=
  fun e he ↦ List.mem_singleton.1 (h e he).1

theorem Meets.toNames (h : Meets [key] M R b) : Names key b :=
  h.mono (fun _ _ _ ↦ trivial) fun _ _ _ ↦ trivial

end Meets

namespace Redis

variable {S : Type}

section LinearOrder

variable [LinearOrder S]

/-- The instance without contents. -/
def empty : Redis S :=
  ⟨.empty, .empty, .empty, .empty, .empty, .empty, .empty⟩

/-- The contents after a batch. -/
def write (db : Redis S) (b : Batch S) : Redis S where
  metaCF := db.metaCF.apply (b.filterMap Entry.metaWrite?)
  hashesDataCF := db.hashesDataCF.apply (b.filterMap Entry.hashWrite?)
  setsDataCF := db.setsDataCF.apply (b.filterMap Entry.setWrite?)
  listsDataCF := db.listsDataCF.apply (b.filterMap Entry.listWrite?)
  zsetsDataCF := db.zsetsDataCF.apply (b.filterMap Entry.zsetWrite?)
  zsetsScoreCF := db.zsetsScoreCF.apply (b.filterMap Entry.scoreWrite?)
  scanCursorsStore := db.scanCursorsStore

section

variable (db : Redis S) (b : Batch S)

include db b

@[simp] theorem write_metaCF :
    (db.write b).metaCF = db.metaCF.apply (b.filterMap Entry.metaWrite?) := rfl

@[simp] theorem write_setsDataCF :
    (db.write b).setsDataCF = db.setsDataCF.apply (b.filterMap Entry.setWrite?) := rfl

@[simp] theorem write_listsDataCF :
    (db.write b).listsDataCF = db.listsDataCF.apply (b.filterMap Entry.listWrite?) := rfl

end

variable (db : Redis S)

@[simp] theorem write_nil : db.write [] = db := rfl

theorem write_append (b b' : Batch S) : db.write (b ++ b') = (db.write b).write b' := by
  simp only [write, List.filterMap_append, SortedMap.apply_append]

theorem get_metaCF_write_append (b : Batch S) (key : Bytes) (o : Option MetaValue) :
    (db.write (b ++ [.metaCF key o])).metaCF.get key = o := by
  rw [write_metaCF, List.filterMap_append, SortedMap.apply_append]
  simp [SortedMap.get_write]

/-! ### What a batch leaves alone -/

/-- Two databases hold the same meta row and data rows for a user key. -/
structure AgreeAt (db db' : Redis S) (key : Bytes) : Prop where
  metaCF : db.metaCF.get key = db'.metaCF.get key
  hashesDataCF : ∀ v d, db.hashesDataCF.get ⟨key, v, d⟩ = db'.hashesDataCF.get ⟨key, v, d⟩
  setsDataCF : ∀ v d, db.setsDataCF.get ⟨key, v, d⟩ = db'.setsDataCF.get ⟨key, v, d⟩
  listsDataCF : ∀ v d, db.listsDataCF.get ⟨key, v, d⟩ = db'.listsDataCF.get ⟨key, v, d⟩
  zsetsDataCF : ∀ v d, db.zsetsDataCF.get ⟨key, v, d⟩ = db'.zsetsDataCF.get ⟨key, v, d⟩
  zsetsScoreCF : ∀ v d, db.zsetsScoreCF.get ⟨key, v, d⟩ = db'.zsetsScoreCF.get ⟨key, v, d⟩

theorem AgreeAt.refl (key : Bytes) : AgreeAt db db key :=
  ⟨rfl, fun _ _ ↦ rfl, fun _ _ ↦ rfl, fun _ _ ↦ rfl, fun _ _ ↦ rfl, fun _ _ ↦ rfl⟩

variable {key : Bytes}

theorem AgreeAt.symm {db db' : Redis S} (h : AgreeAt db db' key) : AgreeAt db' db key :=
  ⟨h.metaCF.symm, fun v d ↦ (h.hashesDataCF v d).symm, fun v d ↦ (h.setsDataCF v d).symm,
    fun v d ↦ (h.listsDataCF v d).symm, fun v d ↦ (h.zsetsDataCF v d).symm,
    fun v d ↦ (h.zsetsScoreCF v d).symm⟩

theorem AgreeAt.trans {db db' db'' : Redis S} (h : AgreeAt db db' key)
    (h' : AgreeAt db' db'' key) : AgreeAt db db'' key :=
  ⟨h.metaCF.trans h'.metaCF, fun v d ↦ (h.hashesDataCF v d).trans (h'.hashesDataCF v d),
    fun v d ↦ (h.setsDataCF v d).trans (h'.setsDataCF v d),
    fun v d ↦ (h.listsDataCF v d).trans (h'.listsDataCF v d),
    fun v d ↦ (h.zsetsDataCF v d).trans (h'.zsetsDataCF v d),
    fun v d ↦ (h.zsetsScoreCF v d).trans (h'.zsetsScoreCF v d)⟩

variable {b : Batch S}

omit [LinearOrder S] in
/-- A row of a user key that no write of the batch names is not among the writes to its family. -/
theorem notMem_writes {K V : Type} {f : Entry S → Option (K × Option V)} {j : K}
    (hf : ∀ e o, f e = some (j, o) → e.key = key) (h : ∀ e ∈ b, e.key ≠ key) :
    j ∉ (b.filterMap f).map Prod.fst := by
  intro hmem
  obtain ⟨⟨_, o⟩, hw, rfl⟩ := List.mem_map.1 hmem
  obtain ⟨e, he, hfe⟩ := List.mem_filterMap.1 hw
  exact h e he (hf e o hfe)

/-- **Frame.** A batch changes nothing of a user key that it does not name. -/
theorem agreeAt_write {db : Redis S} (h : ∀ e ∈ b, e.key ≠ key) :
    AgreeAt (db.write b) db key where
  metaCF := SortedMap.get_apply_of_notMem (notMem_writes (by rintro ⟨⟩ <;> simp) h)
  hashesDataCF v d := SortedMap.get_apply_of_notMem (notMem_writes (by rintro ⟨⟩ <;> simp_all) h)
  setsDataCF v d := SortedMap.get_apply_of_notMem (notMem_writes (by rintro ⟨⟩ <;> simp_all) h)
  listsDataCF v d := SortedMap.get_apply_of_notMem (notMem_writes (by rintro ⟨⟩ <;> simp_all) h)
  zsetsDataCF v d := SortedMap.get_apply_of_notMem (notMem_writes (by rintro ⟨⟩ <;> simp_all) h)
  zsetsScoreCF v d := SortedMap.get_apply_of_notMem (notMem_writes (by rintro ⟨⟩ <;> simp_all) h)

/-- **Frame.** A batch that names one key leaves every other key alone. -/
theorem agreeAt_write_of_ne {db : Redis S} {key k : Bytes}
    (names : Names key b) (hk : k ≠ key) : AgreeAt (db.write b) db k :=
  agreeAt_write fun e he ↦ names.key_eq e he ▸ Ne.symm hk

theorem AgreeAt.write {db db' : Redis S} (h : db.AgreeAt db' key) (b : Batch S) :
    (db.write b).AgreeAt (db'.write b) key where
  metaCF := SortedMap.get_apply_congr h.metaCF
  hashesDataCF v d := SortedMap.get_apply_congr (h.hashesDataCF v d)
  setsDataCF v d := SortedMap.get_apply_congr (h.setsDataCF v d)
  listsDataCF v d := SortedMap.get_apply_congr (h.listsDataCF v d)
  zsetsDataCF v d := SortedMap.get_apply_congr (h.zsetsDataCF v d)
  zsetsScoreCF v d := SortedMap.get_apply_congr (h.zsetsScoreCF v d)

/-! ### Looking a key up -/

/-- The meta value of a key that exists for clients at time `now`. -/
def liveMeta (db : Redis S) (key : Bytes) (now : ℕ) : Option MetaValue :=
  (db.metaCF.get key).filter fun m ↦ !m.isStale now

/-- The meta value of a collection of the base layout: `none` for a missing or stale key, and
`WRONGTYPE` for a live key of another type. -/
def baseMeta (db : Redis S) (dataType : BaseType) (key : Bytes) (now : ℕ) :
    Except Error (Option BaseMetaValue) :=
  match db.liveMeta key now with
  | none => .ok none
  | some (.base m) => if m.dataType = dataType then .ok (some m) else .error wrongTypeError
  | some _ => .error wrongTypeError

/-- The meta value of a collection that `is_valid` too, a check many operations make again after the
type check. -/
def validMeta (db : Redis S) (dataType : BaseType) (key : Bytes) (now : ℕ) :
    Except Error (Option BaseMetaValue) := do
  match ← db.baseMeta dataType key now with
  | none => return none
  | some m => if m.isValid now then return some m else return none

/-- The meta value of a list. -/
def listMeta (db : Redis S) (key : Bytes) (now : ℕ) : Except Error (Option ListsMetaValue) :=
  match db.liveMeta key now with
  | none => .ok none
  | some (.list m) => .ok (some m)
  | some _ => .error wrongTypeError

/-- The value of a string. -/
def stringValue (db : Redis S) (key : Bytes) (now : ℕ) : Except Error (Option StringsValue) :=
  match db.liveMeta key now with
  | none => .ok none
  | some (.string v) => .ok (some v)
  | some _ => .error wrongTypeError

variable {db : Redis S} {key : Bytes} {now : ℕ}

theorem liveMeta_eq_some_iff :
    db.liveMeta key now = some m ↔ db.metaCF.get key = some m ∧ m.isStale now = false := by
  simp [liveMeta, Option.filter_eq_some_iff]

theorem liveMeta_eq_none_iff :
    db.liveMeta key now = none ↔ ∀ m, db.metaCF.get key = some m → m.isStale now = true := by
  rw [liveMeta, Option.filter_eq_none_iff]
  simp

theorem liveMeta_mono {now' : ℕ} (h : now ≤ now')
    (hm : db.liveMeta key now' = some m) : db.liveMeta key now = some m := by
  rw [liveMeta_eq_some_iff] at hm ⊢
  refine ⟨hm.1, Bool.eq_false_iff.2 fun hs ↦ ?_⟩
  exact Bool.eq_false_iff.1 hm.2 (MetaValue.isStale_mono h hs)

variable {t : BaseType}

theorem baseMeta_eq_ok_some_iff {m : BaseMetaValue} :
    db.baseMeta t key now = .ok (some m) ↔
      db.liveMeta key now = some (.base m) ∧ m.dataType = t := by
  unfold baseMeta
  rcases db.liveMeta key now with - | (v | m' | v)
  · simp
  · simp
  · simp only [Option.some.injEq, MetaValue.base.injEq]
    split_ifs with h
    · rw [Except.ok.injEq, Option.some.injEq]
      exact ⟨fun e ↦ ⟨e, e ▸ h⟩, And.left⟩
    · simp only [false_iff, not_and]
      exact fun e ↦ e ▸ h
  · simp

theorem baseMeta_eq_ok_none_iff :
    db.baseMeta t key now = .ok none ↔ db.liveMeta key now = none := by
  unfold baseMeta
  rcases db.liveMeta key now with - | (v | m | v) <;> try simp
  split_ifs <;> simp

/-- The second check never changes the outcome of the first. -/
theorem isValid_of_liveMeta {m : BaseMetaValue} (h : db.liveMeta key now = some (.base m)) :
    m.isValid now = true := by
  have hs := (liveMeta_eq_some_iff.1 h).2
  simp only [MetaValue.isStale, Bool.or_eq_false_iff] at hs
  simp [BaseMetaValue.isValid, hs.2, bne, hs.1]

theorem liveMeta_eq_none_of_get (h : db.metaCF.get key = none) : db.liveMeta key now = none := by
  refine liveMeta_eq_none_iff.2 fun m hm ↦ ?_
  rw [h] at hm
  cases hm

/-- A collection whose count is set is found again, unless the count is zero. -/
theorem baseMeta_of_setCount {db' : Redis S} {m : BaseMetaValue} {count : ℕ}
    (hm : db.baseMeta t key now = .ok (some m))
    (hget : db'.metaCF.get key = if count = 0 then none else some (.base (m.setCount count))) :
    db'.baseMeta t key now = .ok (if count = 0 then none else some (m.setCount count)) := by
  obtain ⟨hlive, ht⟩ := baseMeta_eq_ok_some_iff.1 hm
  obtain ⟨-, hstale⟩ := liveMeta_eq_some_iff.1 hlive
  split_ifs at hget ⊢ with hcount
  · exact baseMeta_eq_ok_none_iff.2 (liveMeta_eq_none_of_get hget)
  · refine baseMeta_eq_ok_some_iff.2 ⟨liveMeta_eq_some_iff.2 ⟨hget, ?_⟩, ht⟩
    rw [MetaValue.isStale, Bool.or_eq_false_iff] at hstale ⊢
    exact ⟨beq_false_of_ne hcount, hstale.2⟩

theorem validMeta_eq_baseMeta : db.validMeta t key now = db.baseMeta t key now := by
  unfold validMeta
  rcases h : db.baseMeta t key now with e | (_ | m)
  · rfl
  · rfl
  · show (if m.isValid now then _ else _) = _
    rw [if_pos (isValid_of_liveMeta (baseMeta_eq_ok_some_iff.1 h).1)]
    rfl

theorem listMeta_eq_ok_some_iff {m : ListsMetaValue} :
    db.listMeta key now = .ok (some m) ↔ db.liveMeta key now = some (.list m) := by
  unfold listMeta
  rcases db.liveMeta key now with - | (v | m' | v) <;> simp

theorem listMeta_eq_ok_none_iff : db.listMeta key now = .ok none ↔ db.liveMeta key now = none := by
  unfold listMeta
  rcases db.liveMeta key now with - | (v | m | v) <;> simp

end LinearOrder

end Redis

/-- A storage operation: it reads the contents, commits batches, and may fail. -/
abbrev Op (S : Type) [LinearOrder S] (α : Type) := Program (Redis S) Error α

/-- `batch.commit()`. -/
def commit {S : Type} [LinearOrder S] (b : Batch S) : Op S PUnit := modify fun db ↦ db.write b

namespace Op

open Program

variable {S : Type} [LinearOrder S] {α β : Type}

@[simp] theorem exec_commit_bind (b : Batch S) (f : PUnit → Op S β) (db : Redis S) :
    (commit b >>= f).exec db = (f ⟨⟩).exec (db.write b) := rfl

/-- The form in which `simp` leaves a commit that is followed by a plain return. -/
@[simp] theorem exec_map_commit (b : Batch S) (f : PUnit → α) (db : Redis S) :
    (f <$> commit b).exec db = (.ok (f ⟨⟩), db.write b) := rfl

end Op

end Kiwi
