import Kiwi.Lib.Merge
import Kiwi.Storage.Encoded
import Kiwi.Storage.UserKeys

/-!
# `KEYS` over several instances

Every instance lists the user keys of its live meta rows in the order in which RocksDB iterates over
them, which is the bytewise order of the encoded keys, and `MergingIterator` merges the lists.
-/

namespace Kiwi.Keys

/-- The meta rows of an instance as RocksDB has them, by encoded key. -/
abbrev StoredMetaCF := SortedMap Bytes Bytes

/-- `ParsedBaseKey::new`, which keeps the user key. -/
def parsedBaseKey (encoded : Bytes) : Except Error Bytes :=
  if encoded.length < 24 then
    .error (.invalidFormat s!"Invalid encoded key length: {encoded.length} < 24")
  else decodeUserKey ((encoded.take (encoded.length - 16)).drop 8)

/-- The loop of `scan_keys`, over stored rows. -/
def scanKeysLoop (pattern : Bytes) (now : ℕ) : List (Bytes × Bytes) → Except Error (List Bytes)
  | [] => return []
  | r :: rest => do
    let baseKey ← parsedBaseKey r.1
    let (_, live) ← Encoded.scanned r.2 now
    let keys ← scanKeysLoop pattern now rest
    return if live && Glob.matchesPattern pattern baseKey then baseKey :: keys else keys

/-- `Redis::scan_keys`. -/
def scanKeys (cf : StoredMetaCF) (pattern : Bytes) (now : ℕ) : Except Error (List Bytes) :=
  scanKeysLoop pattern now cf.rows

/-- The heads that `MergingIterator::next` prefers. -/
def isBetter (reverse : Bool) (head best : Bytes) : Bool :=
  if reverse then best < head else head < best

/-- `MergingIterator`, collected. -/
def mergingIterator (reverse : Bool) (streams : List (List Bytes)) : List Bytes :=
  (Merging.merge (isBetter reverse) streams).map Prod.snd

/-- `Storage::keys`. -/
def keys (insts : List StoredMetaCF) (pattern : Bytes) (now : ℕ) : Except Error (List Bytes) := do
  let streams ← insts.mapM fun inst ↦ scanKeys inst pattern now
  return mergingIterator false streams

end Kiwi.Keys
