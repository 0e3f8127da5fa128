import Kiwi.Storage.Redis
import Kiwi.Storage.Glob

/-!
# String and keyspace operations

The operations of `redis_strings.rs`: strings and bitmaps, and what works on keys of every type —
expiry times, type, deletion and listing. A string is stored in the meta row of its key, so every
write here is one put or delete in `MetaCF`, and writing a string over a collection leaves the
collection's data rows behind.
-/

namespace Kiwi.Strings

variable {S : Type} [LinearOrder S]

/-- `i32::MAX`. -/
def i32Max : ℤ := 2 ^ 31 - 1

/-! ### Keys of every type -/

def keyEtime (db : Redis S) (key : Bytes) (now : ℕ) : Option ℕ :=
  (db.liveMeta key now).map MetaValue.etime

/-- `set_key_etime`: whether the key exists; if so, its expiry time is replaced. -/
def setKeyEtime (key : Bytes) (etime now : ℕ) : Op S Bool := do
  let db ← get
  match db.liveMeta key now with
  | none => return false
  | some m =>
    commit [.metaCF key (some (m.setEtime etime))]
    return true

/-- The liveness test of `get_key_type`, `del_key`, `scan_keys` and `random_key`: each layout is
parsed and asked whether it is expired or empty. -/
def isLive (now : ℕ) : MetaValue → Bool
  | .string v => !isExpired v.etime now
  | .base m => m.isValid now
  | .list m => m.isValid now

def getKeyType (db : Redis S) (key : Bytes) (now : ℕ) : Except Error DataType :=
  match db.metaCF.get key with
  | none => .error (.keyNotFound (fromUtf8Lossy key))
  | some m => if isLive now m then .ok m.dataType else .error (.keyNotFound (fromUtf8Lossy key))

def keyExistsLive (db : Redis S) (key : Bytes) (now : ℕ) : Bool :=
  match getKeyType db key now with
  | .ok _ => true
  | .error _ => false

/-- The meta value that deletion leaves: none for a string, and for a collection an empty one under
a new version. -/
def deletedMeta (now : ℕ) : MetaValue → Option MetaValue
  | .string _ => none
  | .base m => some (.base { m.updateVersion now with count := 0, etime := 0 })
  | .list m => some (.list { m.updateVersion now with count := 0, etime := 0 })

def delKey (key : Bytes) (now : ℕ) : Op S Bool := do
  let db ← get
  match db.metaCF.get key with
  | none => return false
  | some m =>
    if !isLive now m then return false
    else
      commit [.metaCF key (deletedMeta now m)]
      return true

theorem isLive_eq_not_isStale (now : ℕ) (m : MetaValue) : isLive now m = !m.isStale now := by
  cases m with
  | string v => rfl
  | base m => simp [isLive, BaseMetaValue.isValid, MetaValue.isStale, bne, Bool.and_comm]
  | list m => simp [isLive, ListsMetaValue.isValid, MetaValue.isStale, bne, Bool.and_comm]

open Program in
theorem exec_setKeyEtime (key : Bytes) (etime now : ℕ) (db : Redis S) :
    (setKeyEtime key etime now).exec db =
      match db.liveMeta key now with
      | none => (.ok false, db)
      | some m => (.ok true, db.write [.metaCF key (some (m.setEtime etime))]) := by
  rw [setKeyEtime, exec_get_bind]
  rcases db.liveMeta key now with _ | m <;> rfl

open Program in
theorem exec_delKey (key : Bytes) (now : ℕ) (db : Redis S) :
    (delKey key now).exec db =
      match db.liveMeta key now with
      | none => (.ok false, db)
      | some m => (.ok true, db.write [.metaCF key (deletedMeta now m)]) := by
  rw [delKey, exec_get_bind, Redis.liveMeta]
  rcases db.metaCF.get key with _ | m
  · rfl
  · cases h : m.isStale now <;> simp [isLive_eq_not_isStale, h, Option.filter]

def scanKeys (db : Redis S) (pattern : Bytes) (now : ℕ) : List Bytes :=
  (db.metaCF.rows.filter fun r ↦ isLive now r.2 && Glob.matchesPattern pattern r.1).map Prod.fst

/-- `random_key`, which is the first live key. -/
def randomKey (db : Redis S) (now : ℕ) : Option Bytes :=
  (db.metaCF.rows.find? fun r ↦ isLive now r.2).map fun r ↦ fromUtf8Lossy r.1

/-! ### Reads -/

def strlen (db : Redis S) (key : Bytes) (now : ℕ) : Except Error ℤ := do
  match ← db.stringValue key now with
  | none => return 0
  | some v => return asI32 v.userValue.length

def getrange (db : Redis S) (key : Bytes) (start stop : ℤ) (now : ℕ) : Except Error Bytes := do
  match ← db.stringValue key now with
  | none => return []
  | some v =>
    let len : ℤ := v.userValue.length
    if len = 0 then return []
    else if start < 0 ∧ stop < 0 ∧ start > stop then return []
    else
      let normalize := fun (index : ℤ) ↦ if index < 0 then max (len + index) 0 else index
      let startIdx := min (normalize start) len
      let endIdx := min (normalize stop) (len - 1)
      if startIdx > endIdx then return []
      else return (v.userValue.take (endIdx + 1).toNat).drop startIdx.toNat

def getBinary (db : Redis S) (key : Bytes) (now : ℕ) : Except Error Bytes := do
  match ← db.stringValue key now with
  | none => throw (.keyNotFound (fromUtf8Lossy key))
  | some v => return v.userValue

def get (db : Redis S) (key : Bytes) (now : ℕ) : Except Error Bytes := do
  return fromUtf8Lossy (← getBinary db key now)

/-- `mget_binary`: a key of another type counts as missing. -/
def mgetBinary (db : Redis S) (keys : List Bytes) (now : ℕ) : List (Option Bytes) :=
  keys.map fun key ↦
    match db.stringValue key now with
    | .ok v => v.map StringsValue.userValue
    | .error _ => none

def mget (db : Redis S) (keys : List Bytes) (now : ℕ) : List (Option Bytes) :=
  (mgetBinary db keys now).map fun v ↦ v.map fromUtf8Lossy

/-! ### Writes -/

/-- The put of a string. -/
def putString (key value : Bytes) (ctime etime : ℕ) : Entry S :=
  .metaCF key (some (.string ⟨value, ctime, etime⟩))

/-- The string that an update starts from; a missing key counts as an empty string without
expiry. -/
def existing (db : Redis S) (key : Bytes) (now : ℕ) : Except Error StringsValue := do
  return (← db.stringValue key now).getD ⟨[], now, 0⟩

/-- Overwrite a part of a byte string, padding it with zeros up to there. -/
def overwrite (old : Bytes) (offset : ℕ) (value : Bytes) : Bytes :=
  let padded := old ++ List.replicate (offset + value.length - old.length) 0
  padded.take offset ++ value ++ padded.drop (offset + value.length)

/-- `setrange_with_outcome`: the new length, and whether anything was written. -/
def setrangeWithOutcome (key : Bytes) (offset : ℤ) (value : Bytes) (now : ℕ) :
    Op S (ℤ × Bool) := do
  if offset < 0 then throw (.redisErr "ERR offset is out of range")
  else if offset > i32Max then throw (.redisErr "ERR offset is out of range")
  else
    let db ← MonadState.get
    let old ← existing db key now
    let len := asI32 old.userValue.length
    if value.isEmpty ∧ offset ≤ len then return (len, false)
    else if offset + value.length > i32Max then
      throw (.redisErr "ERR string exceeds maximum allowed size")
    else
      let new := overwrite old.userValue offset.toNat value
      commit [putString key new old.ctime old.etime]
      return (asI32 new.length, true)

def setrange (key : Bytes) (offset : ℤ) (value : Bytes) (now : ℕ) : Op S ℤ := do
  let outcome ← setrangeWithOutcome key offset value now
  return outcome.1

def append (key value : Bytes) (now : ℕ) : Op S ℤ := do
  let db ← MonadState.get
  let old ← existing db key now
  let new := old.userValue ++ value
  if new.length > i32Max then throw (.redisErr "string exceeds maximum allowed size")
  else
    commit [putString key new old.ctime old.etime]
    return asI32 new.length

def set (key value : Bytes) (now : ℕ) : Op S PUnit := commit [putString key value now 0]

/-- `set_relative_etime`. -/
def relativeEtime (ttl now : ℕ) : Except Error ℕ :=
  if now + ttl < 2 ^ 64 then .ok (now + ttl)
  else .error (.invalidFormat "Timestamp overflow when calculating relative etime")

def setex (key : Bytes) (seconds : ℤ) (value : Bytes) (now : ℕ) : Op S PUnit := do
  if seconds ≤ 0 then throw (.redisErr "ERR invalid expire time in setex")
  else if seconds.toNat * 1000000 ≥ 2 ^ 64 then
    throw (.invalidFormat "TTL overflow when converting to microseconds")
  else
    let etime ← relativeEtime (seconds.toNat * 1000000) now
    commit [putString key value now etime]

/-- `psetex`, where a time to live that overflows becomes the greatest expiry time. -/
def psetex (key : Bytes) (milliseconds : ℤ) (value : Bytes) (now : ℕ) : Op S PUnit := do
  if milliseconds ≤ 0 then throw (.redisErr "ERR invalid expire time in psetex")
  else if milliseconds.toNat * 1000 ≥ 2 ^ 64 then
    commit [putString key value now (2 ^ 64 - 1)]
  else
    let etime ← relativeEtime (milliseconds.toNat * 1000) now
    commit [putString key value now etime]

def setnx (key value : Bytes) (now : ℕ) : Op S ℤ := do
  let db ← MonadState.get
  if keyExistsLive db key now then return 0
  else
    commit [putString key value now 0]
    return 1

def getset (key value : Bytes) (now : ℕ) : Op S (Option Bytes) := do
  let db ← MonadState.get
  let old ← db.stringValue key now
  commit [putString key value now 0]
  return old.map fun v ↦ fromUtf8Lossy v.userValue

def mset (kvs : List (Bytes × Bytes)) (now : ℕ) : Op S PUnit :=
  commit (kvs.map fun kv ↦ putString kv.1 kv.2 now 0)

def msetnx (kvs : List (Bytes × Bytes)) (now : ℕ) : Op S Bool := do
  let db ← MonadState.get
  if kvs.any fun kv ↦ keyExistsLive db kv.1 now then return false
  else
    commit (kvs.map fun kv ↦ putString kv.1 kv.2 now 0)
    return true

def incrDecr (key : Bytes) (incr : ℤ) (now : ℕ) : Op S ℤ := do
  let db ← MonadState.get
  match ← db.stringValue key now with
  | none =>
    match checkedAddI64 0 incr with
    | none => throw (.redisErr "increment or decrement would overflow")
    | some n =>
      commit [putString key (formatI64 n) now 0]
      return n
  | some old =>
    match parseI64 (fromUtf8Lossy old.userValue) with
    | none => throw (.redisErr "value is not an integer or out of range")
    | some n =>
      match checkedAddI64 n incr with
      | none => throw (.redisErr "increment or decrement would overflow")
      | some n =>
        commit [putString key (formatI64 n) old.ctime old.etime]
        return n

def incrDecrFloat {S : Type} [Score S] (key : Bytes) (incr : S) (now : ℕ) : Op S S := do
  let db ← MonadState.get
  let (old, ctime, etime) ← match ← db.stringValue key now with
    | none => pure (Score.zero, now, 0)
    | some v =>
      match Score.parse (fromUtf8Lossy v.userValue) with
      | none => throw (.redisErr "value is not a valid float")
      | some x => pure (x, v.ctime, v.etime)
  let new : S := Score.add old incr
  if Score.isNan new || Score.isInfinite new then
    throw (.redisErr "increment would produce NaN or Infinity")
  else
    commit [putString key (Score.format new) ctime etime]
    return new

/-! ### Bits -/

/-- The mask of a bit in its byte; bit 0 is the most significant. -/
def bitMask (bit : ℕ) : UInt8 := 1 <<< UInt8.ofNat (7 - bit)

/-- The bit at an offset; bytes beyond the end are zero. -/
def bitAt (value : Bytes) (offset : ℕ) : ℤ :=
  if value.getD (offset / 8) 0 &&& bitMask (offset % 8) ≠ 0 then 1 else 0

/-- `setbit`: the old bit. -/
def setbit (key : Bytes) (offset value : ℤ) (now : ℕ) : Op S ℤ := do
  if offset < 0 then throw (.redisErr "ERR bit offset is not an integer or out of range")
  else if value ≠ 0 ∧ value ≠ 1 then throw (.redisErr "ERR bit is not an integer or out of range")
  else if offset > 2 ^ 32 - 1 then
    throw (.redisErr "ERR bit offset is not an integer or out of range")
  else
    let db ← MonadState.get
    let old ← existing db key now
    let i := offset.toNat / 8
    let mask := bitMask (offset.toNat % 8)
    let padded := old.userValue ++ List.replicate (i + 1 - old.userValue.length) 0
    let byte := padded.getD i 0
    let new := padded.set i (if value = 1 then byte ||| mask else byte &&& ~~~mask)
    commit [putString key new old.ctime old.etime]
    return bitAt old.userValue offset.toNat

def getbit (db : Redis S) (key : Bytes) (offset : ℤ) (now : ℕ) : Except Error ℤ := do
  if offset < 0 then throw (.redisErr "ERR bit offset is not an integer or out of range")
  else if offset > 2 ^ 32 - 1 then
    throw (.redisErr "ERR bit offset is not an integer or out of range")
  else
    match ← db.stringValue key now with
    | none => return 0
    | some v => return bitAt v.userValue offset.toNat

/-- The number of one bits of a byte. -/
def countOnes (b : UInt8) : ℕ := (List.range 8).countP fun i ↦ b &&& bitMask i ≠ 0

/-- `bitcount`. An end index of `-1` is cast to the greatest `usize` before it is clamped. -/
def bitcount (db : Redis S) (key : Bytes) (start stop : Option ℤ) (now : ℕ) :
    Except Error ℤ := do
  match ← db.stringValue key now with
  | none => return 0
  | some v =>
    let len : ℤ := v.userValue.length
    let startVal := start.getD 0
    let endVal := stop.getD (len - 1)
    let startIdx := if startVal < 0 then max (len + startVal) 0 else startVal
    let endIdx := if endVal < 0 then max (len + endVal) (-1) else endVal
    if (start.isSome ∨ stop.isSome) ∧ startIdx > endIdx then return 0
    else
      let (startIdx, endIdx) :=
        if start.isNone ∧ stop.isNone then (0, len - 1) else (startIdx, endIdx)
      let startPos := min (asU64 (max startIdx 0)) v.userValue.length
      let endPos := min (asU64 (max endIdx (-1))) (v.userValue.length - 1)
      if startPos ≥ v.userValue.length then return 0
      else
        return (((v.userValue.take (endPos + 1)).drop startPos).map countOnes).sum

/-- The first position in a range of bits that holds the bit looked for. -/
def findBit (value : Bytes) (bit start stop : ℤ) : Option ℤ :=
  ((List.range (stop - start + 1).toNat).map fun (i : ℕ) ↦ start + i).find? fun p ↦
    p.toNat / 8 < value.length ∧ bitAt value p.toNat = bit

def bitpos (db : Redis S) (key : Bytes) (bit : ℤ) (start stop : Option ℤ) (isBitMode : Bool)
    (now : ℕ) : Except Error ℤ := do
  let notFound : ℤ := if bit = 1 then -1 else 0
  if bit ≠ 0 ∧ bit ≠ 1 then throw (.redisErr "ERR The bit argument must be 1 or 0")
  else
    match ← db.stringValue key now with
    | none => return notFound
    | some v =>
      if v.userValue.isEmpty then return notFound
      else
        -- positions are counted in bits or in bytes
        let len : ℤ := if isBitMode then v.userValue.length * 8 else v.userValue.length
        let start := start.getD 0
        let stop := stop.getD (len - 1)
        let start := if start < 0 then max (len + start) 0 else start
        let stop := if stop < 0 then max (len + stop) (-1) else stop
        let start := min (max start 0) (len - 1)
        let stop := min (max stop (-1)) (len - 1)
        if isBitMode then return (findBit v.userValue bit start stop).getD notFound
        else if start > stop then return notFound
        else return (findBit v.userValue bit (start * 8) (stop * 8 + 7)).getD notFound

/-- The bit operations. -/
inductive BitOp
  | and | or | xor | not
  deriving DecidableEq, Repr

/-- The operation named by an argument, in any case. -/
def parseBitOp (name : Bytes) : Option BitOp :=
  let upper := name.map fun b ↦ if 0x61 ≤ b && b ≤ 0x7A then b - 32 else b
  if upper = [0x41, 0x4E, 0x44] then some .and
  else if upper = [0x4F, 0x52] then some .or
  else if upper = [0x58, 0x4F, 0x52] then some .xor
  else if upper = [0x4E, 0x4F, 0x54] then some .not
  else none

/-- The values of the source keys; a missing key is an empty string. -/
def sourceValues (db : Redis S) (now : ℕ) : List Bytes → Except Error (List Bytes)
  | [] => return []
  | key :: keys => do
    let v ← db.stringValue key now
    return (v.map StringsValue.userValue).getD [] :: (← sourceValues db now keys)

/-- The bytewise result of an operation on values padded with zeros. -/
def combine (op : BitOp) (values : List Bytes) : Bytes :=
  let len := (values.map List.length).foldl max 0
  (List.range len).map fun i ↦
    match op with
    | .and => (values.map fun v ↦ v.getD i 0).foldl (· &&& ·) 0xFF
    | .or => (values.map fun v ↦ v.getD i 0).foldl (· ||| ·) 0
    | .xor => (values.map fun v ↦ v.getD i 0).foldl (· ^^^ ·) 0
    | .not => ~~~((values.headD []).getD i 0)

/-- `bitop`: the length of the result, which is stored even when it is empty. -/
def bitop (operation destKey : Bytes) (srcKeys : List Bytes) (now : ℕ) : Op S ℤ := do
  match parseBitOp operation with
  | none => throw (.redisErr "ERR syntax error")
  | some op =>
    if op = .not ∧ srcKeys.length ≠ 1 then
      throw (.redisErr "ERR BITOP NOT must be called with a single source key")
    else if srcKeys.isEmpty then
      throw (.redisErr "ERR wrong number of arguments for 'bitop' command")
    else
      let db ← MonadState.get
      let values ← sourceValues db now srcKeys
      let result := combine op values
      commit [putString destKey result now 0]
      return result.length

end Kiwi.Strings
