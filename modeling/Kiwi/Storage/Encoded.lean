import Kiwi.Storage.Scan

/-!
# Readers of encoded meta values

Whether a key exists is decided from the bytes of its entry in `MetaCF`, and the source does so in
several places: `is_stale_static`, which typed commands and `key_etime` use, reads the count and the
last eight bytes without parsing; `get_key_type`, `scan_keys`, `scan_meta` and `random_key` parse
the layout of the type byte and ask the parsed value; `ttl` and `pttl` compare the expiry time with
the clock once more. This module has each of them over the stored bytes, and the commands that set
the expiry time.

Entries come from the encoders, so a value is never empty and always long enough; the answers to
others are part of the definitions all the same.
-/

namespace Kiwi

/-- The name of a data type in messages. -/
def DataType.debugName : DataType → String
  | .string => "String"
  | .hash => "Hash"
  | .set => "Set"
  | .list => "List"
  | .zset => "ZSet"
  | .none => "None"
  | .all => "All"
  | .vectorSet => "VectorSet"

/-- `DataType::try_from`. -/
def DataType.tryFrom (b : UInt8) : Except Error DataType :=
  match b.toNat with
  | 0 => .ok .string
  | 1 => .ok .hash
  | 2 => .ok .set
  | 3 => .ok .list
  | 4 => .ok .zset
  | 5 => .ok .none
  | 6 => .ok .all
  | 7 => .ok .vectorSet
  | n => .error (.invalidFormat s!"Invalid data type byte: {n}")

def DataType.minMetaRawLen : DataType → Except Error ℕ
  | .string => .ok 33
  | .hash | .set | .zset | .vectorSet => .ok 49
  | .list => .ok 65
  | .none => .error (.invalidFormat "data type: None should not be used as meta value")
  | .all => .error (.invalidFormat "data type: All should not be used as meta value")

namespace Encoded

open MetaValue (ofLeBytes)

/-- The expiry time, which is the last field of every layout. -/
def etimeOf (raw : Bytes) : ℕ := ofLeBytes (raw.drop (raw.length - 8))

/-- The count of a collection, which follows the type byte. -/
def countOf (raw : Bytes) : ℕ := ofLeBytes ((raw.drop 1).take 8)

def isStaleStatic (raw : Bytes) (now : ℕ) : Except Error Bool :=
  match raw with
  | [] => .ok false
  | b :: _ => do
    let dataType ← DataType.tryFrom b
    if raw.length < (← dataType.minMetaRawLen) then
      throw (.invalidFormat s!"Invalid value length for data type: {dataType.debugName}")
    else if dataType = .string then
      return etimeOf raw != 0 && etimeOf raw < now
    else
      return countOf raw == 0 || (etimeOf raw != 0 && etimeOf raw < now)

inductive TypeCheckState
  | missing
  | stale
  | matches
  deriving DecidableEq, Repr

def checkTypeState (raw : Bytes) (expected : DataType) (now : ℕ) : Except Error TypeCheckState :=
  if raw.isEmpty then .ok .missing
  else do
    if ← isStaleStatic raw now then return .stale
    else if raw.head? = some expected.toByte then return .matches
    else throw wrongTypeError

/-- `ParsedStringsValue::new`, with the fields that are asked for: the expiry time. -/
def parsedStringsValue (raw : Bytes) : Except Error ℕ := do
  if raw.length < 32 then
    throw (.invalidFormat s!"invalid string value length: {raw.length} < 32")
  else
    let _ ← DataType.tryFrom (raw.headD 0)
    return ofLeBytes ((raw.drop (raw.length - 8)).take 8)

/-- `ParsedListsMetaValue::new`: count and expiry time. -/
def parsedListsMetaValue (raw : Bytes) : Except Error (ℕ × ℕ) := do
  if raw.length < 65 then
    throw (.invalidFormat s!"invalid lists meta value length: {raw.length} < 65")
  else
    let _ ← DataType.tryFrom (raw.headD 0)
    return (ofLeBytes ((raw.drop 1).take 8), ofLeBytes ((raw.drop 57).take 8))

/-- `ParsedBaseMetaValue::new`: count and expiry time. -/
def parsedBaseMetaValue (raw : Bytes) : Except Error (ℕ × ℕ) := do
  if raw.length < 49 then
    throw (.invalidFormat s!"invalid meta value length: {raw.length} < 49")
  else
    let _ ← DataType.tryFrom (raw.headD 0)
    return (ofLeBytes ((raw.drop 1).take 8), ofLeBytes ((raw.drop 41).take 8))

/-- The test that `get_key_type`, `scan_keys`, `scan_meta` and `random_key` make after a look at the
type byte; `none` for the types that no entry has. -/
def parsedLive (dataType : DataType) (raw : Bytes) (now : ℕ) : Option (Except Error Bool) :=
  match dataType with
  | .string => some do
    return !isExpired (← parsedStringsValue raw) now
  | .list => some do
    let m ← parsedListsMetaValue raw
    return !isExpired m.2 now && m.1 != 0
  | .hash | .set | .zset | .vectorSet => some do
    let m ← parsedBaseMetaValue raw
    return !isExpired m.2 now && m.1 != 0
  | .none | .all => none

/-- An instance's entries as they are stored. -/
abbrev RawMetaCF := SortedMap Bytes Bytes

def getKeyType (cf : RawMetaCF) (key : Bytes) (now : ℕ) : Except Error DataType :=
  match cf.get key with
  | none => .error (.keyNotFound (fromUtf8Lossy key))
  | some [] => .error (.keyNotFound (fromUtf8Lossy key))
  | some (b :: rest) => do
    let dataType ← DataType.tryFrom b
    if ← (parsedLive dataType (b :: rest) now).getD (.ok false) then return dataType
    else throw (.keyNotFound (fromUtf8Lossy key))

def keyExistsLive (cf : RawMetaCF) (key : Bytes) (now : ℕ) : Except Error Bool :=
  match getKeyType cf key now with
  | .ok _ => .ok true
  | .error (.keyNotFound _) => .ok false
  | .error e => .error e

/-- `Storage::exists`, with the instance of each key; a key whose check fails is not counted. -/
def existsKeys (cfOf : Bytes → RawMetaCF) (keys : List Bytes) (now : ℕ) : ℕ :=
  keys.countP fun key ↦
    match keyExistsLive (cfOf key) key now with
    | .ok found => found
    | .error _ => false

def keyEtime (cf : RawMetaCF) (key : Bytes) (now : ℕ) : Except Error (Option ℕ) :=
  match cf.get key with
  | none => .ok none
  | some raw => do
    if ← isStaleStatic raw now then return none
    else return some (etimeOf raw)

/-- The answer of `ttl` and `pttl`, in units of that many microseconds. -/
def timeToLive (unit : ℕ) (cf : RawMetaCF) (key : Bytes) (now : ℕ) : Except Error ℤ := do
  match ← keyEtime cf key now with
  | none => return -2
  | some etime =>
    if etime = 0 then return -1
    else if etime ≤ now then return -2
    else return asI64 (((etime - now) / unit : ℕ) : ℤ)

/-- `Storage::ttl`. -/
def ttl (cf : RawMetaCF) (key : Bytes) (now : ℕ) : Except Error ℤ := timeToLive 1000000 cf key now

/-- `Storage::pttl`. -/
def pttl (cf : RawMetaCF) (key : Bytes) (now : ℕ) : Except Error ℤ := timeToLive 1000 cf key now

/-- `set_key_etime`: whether the key exists, and its entry with the new expiry time. -/
def setKeyEtime (cf : RawMetaCF) (key : Bytes) (etime now : ℕ) : Except Error (Bool × RawMetaCF) :=
  match cf.get key with
  | none => .ok (false, cf)
  | some raw => do
    if ← isStaleStatic raw now then return (false, cf)
    else
      let dataType ← DataType.tryFrom (raw.headD 0)
      if dataType = .none ∨ dataType = .all then return (false, cf)
      else
        return (true, cf.insert key (raw.take (raw.length - 8) ++ MetaValue.leBytes 8 etime))

/-- `Storage::persist`: whether there was an expiry time to take away. -/
def persist (cf : RawMetaCF) (key : Bytes) (now : ℕ) : Except Error (Bool × RawMetaCF) := do
  match ← keyEtime cf key now with
  | none => return (false, cf)
  | some etime =>
    if etime = 0 then return (false, cf)
    else setKeyEtime cf key 0 now

/-! ### Expiry times -/

/-- `checked_mul` on `u64`, with the error of an overflow. -/
def checkedMul (a b : ℕ) (message : String) : Except Error ℕ :=
  if a * b < 2 ^ 64 then .ok (a * b) else .error (.invalidFormat message)

/-- `checked_add` on `u64`, with the error of an overflow. -/
def checkedAdd (a b : ℕ) (message : String) : Except Error ℕ :=
  if a + b < 2 ^ 64 then .ok (a + b) else .error (.invalidFormat message)

/-- The expiry time after a number of units of that many microseconds. -/
def relativeExpireTime (unit : ℕ) (negative overflow : String) (n : ℤ) (now : ℕ) :
    Except Error ℕ := do
  if n < 0 then throw (.invalidFormat negative)
  else checkedAdd now (← checkedMul n.toNat unit overflow) "TTL timestamp overflow"

def secondsToExpireTime (seconds : ℤ) (now : ℕ) : Except Error ℕ :=
  relativeExpireTime 1000000 "Negative TTL seconds" "TTL seconds overflow" seconds now

def millisecondsToExpireTime (milliseconds : ℤ) (now : ℕ) : Except Error ℕ :=
  relativeExpireTime 1000 "Negative TTL milliseconds" "TTL milliseconds overflow" milliseconds now

/-- The expiry time at a Unix time in units of that many microseconds. -/
def unixExpireTime (unit : ℕ) (timestamp : ℤ) : Except Error ℕ :=
  if timestamp ≤ 0 then .error (.invalidFormat "Invalid Unix timestamp")
  else checkedMul timestamp.toNat unit "Unix timestamp overflow"

def unixSecondsToExpireTime (timestamp : ℤ) : Except Error ℕ := unixExpireTime 1000000 timestamp

/-- `Storage::expire`. -/
def expire (cf : RawMetaCF) (key : Bytes) (seconds : ℤ) (now : ℕ) :
    Except Error (Bool × RawMetaCF) := do
  if seconds ≤ 0 then return (false, cf)
  else setKeyEtime cf key (← secondsToExpireTime seconds now) now

/-- `Storage::pexpire`. -/
def pexpire (cf : RawMetaCF) (key : Bytes) (milliseconds : ℤ) (now : ℕ) :
    Except Error (Bool × RawMetaCF) := do
  if milliseconds ≤ 0 then return (false, cf)
  else setKeyEtime cf key (← millisecondsToExpireTime milliseconds now) now

/-- `Storage::expireat`. A time that has passed is stored like any other. -/
def expireat (cf : RawMetaCF) (key : Bytes) (timestamp : ℤ) (now : ℕ) :
    Except Error (Bool × RawMetaCF) := do
  setKeyEtime cf key (← unixSecondsToExpireTime timestamp) now

/-- The test of `scan_keys` and `scan_meta` for one entry: its type, and whether it is live. -/
def scanned (raw : Bytes) (now : ℕ) : Except Error (DataType × Bool) :=
  match raw with
  | [] => .error (.invalidFormat "empty MetaCF value")
  | b :: _ => do
    let dataType ← DataType.tryFrom b
    match parsedLive dataType raw now with
    | none => throw (.invalidFormat s!"invalid MetaCF data type: {b.toNat}")
    | some live => return (dataType, ← live)

/-- The loop of `scan_keys`. -/
def scanKeysLoop (pattern : Bytes) (now : ℕ) : List (Bytes × Bytes) → Except Error (List Bytes)
  | [] => return []
  | r :: rest => do
    let (_, live) ← scanned r.2 now
    let keys ← scanKeysLoop pattern now rest
    return if live && Glob.matchesPattern pattern r.1 then r.1 :: keys else keys

def scanKeys (cf : RawMetaCF) (pattern : Bytes) (now : ℕ) : Except Error (List Bytes) :=
  scanKeysLoop pattern now cf.rows

/-- The loop of `scan_meta`. -/
def scanLoop (typeFilter : Option DataType) (pattern : Bytes) (now : ℕ) :
    ℕ → List (Bytes × Bytes) → Except Error Scan.ScanPage
  | 0, rest => return ⟨[], 0, rest.head?.map Prod.fst⟩
  | _ + 1, [] => return ⟨[], 0, none⟩
  | limit + 1, r :: rest => do
    let (dataType, live) ← scanned r.2 now
    let page ← scanLoop typeFilter pattern now limit rest
    let keep := live && Scan.passesType typeFilter dataType && Glob.matchesPattern pattern r.1
    return { page with keys := if keep then r.1 :: page.keys else page.keys
                       scanned := page.scanned + 1 }

def scanMeta (cf : RawMetaCF) (startKey : Option Bytes) (limit : ℕ) (typeFilter : Option DataType)
    (pattern : Bytes) (now : ℕ) : Except Error Scan.ScanPage :=
  scanLoop typeFilter pattern now limit <|
    match startKey with
    | none => cf.rows
    | some key => cf.rows.dropWhile fun r ↦ r.1 < key

/-- The test of `random_key` for one entry: what does not parse is passed over. -/
def randomLive (raw : Bytes) (now : ℕ) : Bool :=
  match raw with
  | [] => false
  | b :: _ =>
    match DataType.tryFrom b with
    | .error _ => false
    | .ok dataType =>
      match parsedLive dataType raw now with
      | some (.ok live) => live
      | _ => false

def randomKey (cf : RawMetaCF) (now : ℕ) : Option Bytes :=
  (cf.rows.find? fun r ↦ randomLive r.2 now).map fun r ↦ fromUtf8Lossy r.1

end Encoded

end Kiwi
