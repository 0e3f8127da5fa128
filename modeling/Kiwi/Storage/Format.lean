import Mathlib.Data.Prod.Lex
import Mathlib.Order.Lattice
import Kiwi.Lib.SortedMap
import Kiwi.Bytes

/-!
# Stored formats

What one database keeps: a *meta* row for every user key, and *data* rows that carry the version of
the meta row they belong to. Deleting or re-creating a collection only changes the version in the
meta row, so a data row says nothing about the database until it is compared with the live meta.

**Meta values.** A string stores its value in the meta row itself. A hash, set, zset or vector set
has a `BaseMetaValue`; a list has a `ListsMetaValue`, with the window of indexes in use. The three
layouts are one inductive type, `MetaValue`, and `MetaValue.encode` gives the bytes; only
`ParsedBaseMetaValue.new` reads bytes back, because one caller parses the meta of a key without
looking at its type first.

**Data keys.** The reserved bytes, the escaping of the user key and the little-endian version are
represented by their content: a `DataKey` is the user key, the version and the rest. Rows of one
user key and one version are contiguous under every comparator the database uses, which is all that
prefix iteration needs (`rowsAt_eq_rows_slice`).

Versions and times are natural numbers: both come from a microsecond clock.
-/

namespace Kiwi

/-- The type byte of a meta value. -/
inductive DataType
  | string | hash | set | list | zset | none | all | vectorSet
  deriving DecidableEq, Repr

/-- The data types whose meta value has the base layout. -/
inductive BaseType
  | hash | set | zset | vectorSet
  deriving DecidableEq, Repr

/-- The type byte of a base meta value. -/
def BaseType.toDataType : BaseType → DataType
  | .hash => .hash
  | .set => .set
  | .zset => .zset
  | .vectorSet => .vectorSet

/-- The numeric value of a data type. -/
def DataType.toByte : DataType → UInt8
  | .string => 0
  | .hash => 1
  | .set => 2
  | .list => 3
  | .zset => 4
  | .none => 5
  | .all => 6
  | .vectorSet => 7

/-! ### Expiry and versions -/

/-- `is_stale` of a parsed value: an expiry time is set and has passed. -/
def isExpired (etime now : ℕ) : Bool := etime != 0 && etime < now

/-- `update_version`: the clock, unless the current version is not below it. -/
def updateVersion (version now : ℕ) : ℕ := if version ≥ now then version + 1 else now

theorem lt_updateVersion (version now : ℕ) : version < updateVersion version now := by
  unfold updateVersion
  split_ifs <;> omega

theorem updateVersion_of_lt {version now : ℕ} (h : version < now) :
    updateVersion version now = now := if_neg (by omega)

/-! ### Meta values -/

/-- A string: the value, and its times. -/
structure StringsValue where
  userValue : Bytes
  ctime : ℕ
  /-- Expiry time, `0` for none. -/
  etime : ℕ
  deriving DecidableEq, Repr

/-- The meta value of a hash, set, zset or vector set. -/
structure BaseMetaValue where
  dataType : BaseType
  count : ℕ
  /-- The version its data rows carry. -/
  version : ℕ
  ctime : ℕ
  /-- Expiry time, `0` for none. -/
  etime : ℕ
  deriving DecidableEq, Repr

/-- The meta value of a list. The elements are at the indexes after `leftIndex`. -/
structure ListsMetaValue where
  count : ℕ
  /-- The version its data rows carry. -/
  version : ℕ
  /-- The index just before the first element. -/
  leftIndex : ℕ
  /-- The index of the last element (of a new list: the index the first push would fill). -/
  rightIndex : ℕ
  ctime : ℕ
  /-- Expiry time, `0` for none. -/
  etime : ℕ
  deriving DecidableEq, Repr

/-- A value of the meta column family. -/
inductive MetaValue
  | string (value : StringsValue)
  | base (value : BaseMetaValue)
  | list (value : ListsMetaValue)
  deriving DecidableEq, Repr

namespace BaseMetaValue

def isValid (m : BaseMetaValue) (now : ℕ) : Bool := !isExpired m.etime now && m.count != 0

/-- `BaseMetaValue::new` with the type and count its callers set. -/
def new (dataType : BaseType) (count now : ℕ) : BaseMetaValue :=
  { dataType, count, version := 0, ctime := now, etime := 0 }

def updateVersion (m : BaseMetaValue) (now : ℕ) : BaseMetaValue :=
  { m with version := Kiwi.updateVersion m.version now }

/-- `initial_meta_value`: an empty collection under a version of its own. -/
def initialMetaValue (m : BaseMetaValue) (now : ℕ) : BaseMetaValue :=
  { m with count := 0, etime := 0, ctime := 0, version := Kiwi.updateVersion m.version now }

/-- `check_modify_count`: adding does not overflow `u64`. -/
def checkModifyCount (m : BaseMetaValue) (delta : ℕ) : Bool := m.count + delta < 2 ^ 64

/-- `modify_count`, which saturates. -/
def modifyCount (m : BaseMetaValue) (delta : ℕ) : BaseMetaValue :=
  { m with count := min (m.count + delta) (2 ^ 64 - 1) }

def setCount (m : BaseMetaValue) (count : ℕ) : BaseMetaValue := { m with count := count }

end BaseMetaValue

namespace ListsMetaValue

/-- `INITIAL_LEFT_INDEX`. -/
def initialLeftIndex : ℕ := 9223372036854775807

/-- `INITIAL_RIGHT_INDEX`. -/
def initialRightIndex : ℕ := 9223372036854775808

def isValid (m : ListsMetaValue) (now : ℕ) : Bool := !isExpired m.etime now && m.count != 0

/-- `ListsMetaValue::new`. -/
def new (count now : ℕ) : ListsMetaValue :=
  { count, version := 0, leftIndex := initialLeftIndex, rightIndex := initialRightIndex
    ctime := now, etime := 0 }

def updateVersion (m : ListsMetaValue) (now : ℕ) : ListsMetaValue :=
  { m with version := Kiwi.updateVersion m.version now }

def initialMetaValue (m : ListsMetaValue) (now : ℕ) : ListsMetaValue :=
  { count := 0, leftIndex := initialLeftIndex, rightIndex := initialRightIndex, etime := 0
    ctime := 0, version := Kiwi.updateVersion m.version now }

def setCount (m : ListsMetaValue) (count : ℕ) : ListsMetaValue := { m with count := count }

def setLeftIndex (m : ListsMetaValue) (index : ℕ) : ListsMetaValue := { m with leftIndex := index }

def setRightIndex (m : ListsMetaValue) (index : ℕ) : ListsMetaValue :=
  { m with rightIndex := index }

end ListsMetaValue

namespace MetaValue

/-- The type byte. -/
def dataType : MetaValue → DataType
  | string _ => .string
  | base m => m.dataType.toDataType
  | list _ => .list

/-- The expiry time. -/
def etime : MetaValue → ℕ
  | string v => v.etime
  | base m => m.etime
  | list m => m.etime

/-- The version of the data rows; a string has none. -/
def version : MetaValue → ℕ
  | string _ => 0
  | base m => m.version
  | list m => m.version

/-- `is_stale_static`: an emptied collection, or an expiry time in the past. -/
def isStale (now : ℕ) : MetaValue → Bool
  | string v => isExpired v.etime now
  | base m => m.count == 0 || isExpired m.etime now
  | list m => m.count == 0 || isExpired m.etime now

/-- The same value under another expiry time. -/
def setEtime (etime : ℕ) : MetaValue → MetaValue
  | string v => string { v with etime := etime }
  | base m => base { m with etime := etime }
  | list m => list { m with etime := etime }

variable (e : ℕ) (m : MetaValue)

@[simp] theorem setEtime_version : (m.setEtime e).version = m.version := by
  cases m <;> rfl

@[simp] theorem setEtime_dataType : (m.setEtime e).dataType = m.dataType := by
  cases m <;> rfl

@[simp] theorem setEtime_etime : (m.setEtime e).etime = e := by
  cases m <;> rfl

/-- Staleness is final: it survives the passing of time. -/
theorem isStale_mono {m : MetaValue} {now now' : ℕ} (h : now ≤ now') (hs : m.isStale now = true) :
    m.isStale now' = true := by
  have expired : ∀ e, isExpired e now = true → isExpired e now' = true := by
    intro e he
    simp only [isExpired, Bool.and_eq_true, bne_iff_ne, decide_eq_true_eq] at he ⊢
    omega
  cases m with
  | string v => exact expired _ hs
  | base m | list m =>
    rw [isStale, Bool.or_eq_true] at hs ⊢
    exact hs.imp id (expired _)

/-! ### Bytes -/

/-- The `width` low-order bytes of a number, least significant first. -/
def leBytes : ℕ → ℕ → Bytes
  | 0, _ => []
  | width + 1, n => UInt8.ofNat n :: leBytes width (n / 256)

/-- The number of a little-endian byte string. -/
def ofLeBytes : Bytes → ℕ
  | [] => 0
  | b :: bs => b.toNat + 256 * ofLeBytes bs

/-- The stored bytes of a meta value. -/
def encode : MetaValue → Bytes
  | string v =>
    DataType.string.toByte :: v.userValue ++ List.replicate 16 0 ++ leBytes 8 v.ctime
      ++ leBytes 8 v.etime
  | base m =>
    m.dataType.toDataType.toByte :: leBytes 8 m.count ++ leBytes 8 m.version
      ++ List.replicate 16 0 ++ leBytes 8 m.ctime ++ leBytes 8 m.etime
  | list m =>
    DataType.list.toByte :: leBytes 8 m.count ++ leBytes 8 m.version ++ leBytes 8 m.leftIndex
      ++ leBytes 8 m.rightIndex ++ List.replicate 16 0 ++ leBytes 8 m.ctime ++ leBytes 8 m.etime

end MetaValue

/-- The fields of a value parsed in the base layout. -/
structure ParsedBaseMetaValue where
  count : ℕ
  version : ℕ
  etime : ℕ
  deriving DecidableEq, Repr

namespace ParsedBaseMetaValue

/-- `BASE_META_VALUE_LENGTH`. -/
def baseMetaValueLength : ℕ := 49

/-- `ParsedBaseMetaValue::new`, which reads the base layout out of any bytes long enough. -/
def new (bs : Bytes) : Option ParsedBaseMetaValue :=
  if bs.length < baseMetaValueLength then none
  else some
    { count := MetaValue.ofLeBytes ((bs.drop 1).take 8)
      version := MetaValue.ofLeBytes ((bs.drop 9).take 8)
      etime := MetaValue.ofLeBytes ((bs.drop 41).take 8) }

def isValid (m : ParsedBaseMetaValue) (now : ℕ) : Bool := !isExpired m.etime now && m.count != 0

end ParsedBaseMetaValue

/-! ### Data keys -/

/-- A data key: the user key, the version of its meta value, and the rest — a field or member, a
list index, or a score with a member. -/
@[ext]
structure DataKey (D : Type) where
  key : Bytes
  version : ℕ
  data : D
  deriving DecidableEq, Repr

namespace DataKey

variable {D V : Type}

/-- The comparison that sorts data rows. -/
def toProd (k : DataKey D) : Bytes ×ₗ ℕ ×ₗ D := toLex (k.key, toLex (k.version, k.data))

theorem toProd_injective : Function.Injective (toProd (D := D)) := by
  rintro ⟨k, v, d⟩ ⟨k', v', d'⟩ h
  simpa [toProd] using h

instance [LinearOrder D] : LinearOrder (DataKey D) := LinearOrder.lift' toProd toProd_injective

variable [LinearOrder D]

theorem lt_iff {a b : DataKey D} :
    a < b ↔ a.key < b.key ∨ a.key = b.key ∧
      (a.version < b.version ∨ a.version = b.version ∧ a.data < b.data) := by
  show toProd a < toProd b ↔ _
  simp only [toProd, Prod.Lex.toLex_lt_toLex]

/-- The data keys of one user key and version. -/
def part (k : Bytes) (v : ℕ) : SortedMap.Part D (DataKey D) where
  key d := ⟨k, v, d⟩
  elem x := if x.key = k ∧ x.version = v then some x.data else none
  elem_eq_some_iff {x d} := by
    rw [DataKey.ext_iff]
    split_ifs with h
    · simp [h]
    · simp only [false_iff]
      exact fun h' ↦ h ⟨h'.1, h'.2.1⟩
  lt_of_key_lt {d d'} h := by simpa [lt_iff] using h

variable {k : Bytes} {v : ℕ}

@[simp] theorem part_key (d : D) : (part k v).key d = ⟨k, v, d⟩ := rfl

/-- The rows an iterator visits that seeks to a user key and version and stops at the first row
outside that prefix. -/
def prefixIter (m : SortedMap (DataKey D) V) (k : Bytes) (v : ℕ) : List (DataKey D × V) :=
  (m.rows.dropWhile fun r ↦ r.1.key < k ∨ r.1.key = k ∧ r.1.version < v).takeWhile
    fun r ↦ r.1.key = k ∧ r.1.version = v

/-- The rows of one user key and version, by what they are about. -/
def rowsAt (m : SortedMap (DataKey D) V) (k : Bytes) (v : ℕ) : List (D × V) :=
  (prefixIter m k v).map fun r ↦ (r.1.data, r.2)

variable {m : SortedMap (DataKey D) V}

theorem prefixIter_eq_filter :
    prefixIter m k v = m.rows.filter fun r ↦ r.1.key = k ∧ r.1.version = v := by
  refine SortedMap.takeWhile_dropWhile_eq_filter ?_ ?_ ?_ m.sorted
  · intro a b hlt hb
    rw [lt_iff] at hlt
    simp only [decide_eq_true_eq] at hb ⊢
    rcases hlt with hlt | ⟨hk, hlt⟩
    · rcases hb with hb | hb
      · exact Or.inl (hlt.trans hb)
      · exact Or.inl (hb.1 ▸ hlt)
    · rcases hb with hb | hb
      · exact Or.inl (hk ▸ hb)
      · exact Or.inr ⟨hk.trans hb.1, by omega⟩
  · intro a b hlt hb
    rw [lt_iff] at hlt
    simp only [decide_eq_true_eq] at hb ⊢
    rcases hlt with hlt | ⟨hk, hlt⟩
    · exact Or.inl (Or.inl (hb.1 ▸ hlt))
    · rcases hlt with hlt | ⟨hv, -⟩
      · exact Or.inl (Or.inr ⟨hk.trans hb.1, hb.2 ▸ hlt⟩)
      · exact Or.inr ⟨hk.trans hb.1, hv.trans hb.2⟩
  · intro a ha
    simp only [decide_eq_true_eq, decide_eq_false_iff_not, not_or, not_and, not_lt] at ha ⊢
    exact ⟨ha.1.ge, fun _ ↦ ha.2.ge⟩

/-- **Prefix iteration reads a slice.** -/
theorem rowsAt_eq_rows_slice (m : SortedMap (DataKey D) V) (k : Bytes) (v : ℕ) :
    rowsAt m k v = (m.slice (part k v)).rows := by
  rw [rowsAt, prefixIter_eq_filter]
  show _ = m.rows.filterMap _
  induction m.rows with
  | nil => rfl
  | cons r l ih =>
    by_cases h : r.1.key = k ∧ r.1.version = v
    · have helem : (part k v).elem r.1 = some r.1.data := if_pos h
      rw [List.filter_cons_of_pos (by simpa using h), List.map_cons, ih, List.filterMap_cons, helem]
      rfl
    · have helem : (part k v).elem r.1 = none := if_neg h
      rw [List.filter_cons_of_neg (by simpa using h), ih, List.filterMap_cons, helem]
      rfl

theorem mem_rowsAt_iff {d : D} {x : V} : (d, x) ∈ rowsAt m k v ↔ m.get ⟨k, v, d⟩ = some x := by
  rw [rowsAt_eq_rows_slice, ← SortedMap.get_eq_some_iff, SortedMap.get_slice, part_key]

theorem sorted_rowsAt (m : SortedMap (DataKey D) V) (k : Bytes) (v : ℕ) :
    (rowsAt m k v).Pairwise fun a b ↦ a.1 < b.1 := by
  rw [rowsAt_eq_rows_slice]
  exact (m.slice (part k v)).sorted

theorem rowsAt_congr {m m' : SortedMap (DataKey D) V}
    (h : ∀ d, m.get ⟨k, v, d⟩ = m'.get ⟨k, v, d⟩) : rowsAt m k v = rowsAt m' k v := by
  rw [rowsAt_eq_rows_slice, rowsAt_eq_rows_slice, SortedMap.slice_congr h]

theorem get_eq_none_of_rowsAt_eq_nil (h : rowsAt m k v = []) (d : D) : m.get ⟨k, v, d⟩ = none := by
  refine Option.eq_none_iff_forall_ne_some.2 fun x hx ↦ ?_
  simpa [h] using mem_rowsAt_iff.2 hx

end DataKey

end Kiwi
