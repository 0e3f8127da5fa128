import Kiwi.Storage.UserKeys

/-!
# Keys as byte strings

The encoded keys of the data column families and the two comparators that are given to RocksDB. The
column families of lists and of zset scores have numbers in little-endian form in their keys, which
`lists_data_key_compare` and `zsets_score_key_compare` read; all others are in bytewise order.

A comparator is called on any byte string. The one of the lists asserts that it is not empty, the
one of the scores that it is longer than the reserved bytes. A string that is too short for a number
is compared bytewise.
-/

namespace Kiwi.PhysicalKeys

open Lexicographic MetaValue

/-! ### Encodings -/

/-- The key of a hash field, a set member or a zset member. -/
structure MemberDataKey where
  key : Bytes
  version : UInt64
  data : Bytes

/-- `MemberDataKey::encode_seek_key`. -/
def MemberDataKey.encodeSeekKey (k : MemberDataKey) : Bytes :=
  List.replicate 8 0 ++ (encodeUserKey k.key ++ (leBytes 8 k.version.toNat ++ k.data))

/-- `MemberDataKey::encode`. -/
def MemberDataKey.encode (k : MemberDataKey) : Bytes :=
  encodedKey k.key (leBytes 8 k.version.toNat ++ k.data)

/-- The key of a list element. -/
structure ListsDataKey where
  key : Bytes
  version : UInt64
  index : UInt64

/-- `ListsDataKey::encode`. -/
def ListsDataKey.encode (k : ListsDataKey) : Bytes :=
  encodedKey k.key (leBytes 8 k.version.toNat ++ leBytes 8 k.index.toNat)

/-- The key of a row that orders a zset by score. -/
structure ZSetsScoreKey where
  key : Bytes
  version : UInt64
  /-- The score, as its bits. -/
  score : UInt64
  member : Bytes

/-- `ZSetsScoreKey::encode`. -/
def ZSetsScoreKey.encode (k : ZSetsScoreKey) : Bytes :=
  encodedKey k.key (leBytes 8 k.version.toNat ++ (leBytes 8 k.score.toNat ++ k.member))

/-- `ZSetsScoreKey::encode_seek_key`, which has no member. -/
def ZSetsScoreKey.encodeSeekKey (k : ZSetsScoreKey) : Bytes :=
  List.replicate 8 0 ++
    (encodeUserKey k.key ++ (leBytes 8 k.version.toNat ++ leBytes 8 k.score.toNat))

/-! ### Comparators -/

/-- Where the encoded user key of a key ends. -/
def userkeyEnd (a : Bytes) : ℕ := 8 + seekUserkeyDelim false (a.drop 8)

/-- `decode_fixed::<u64>` at a place in a key. -/
def decodeFixed (a : Bytes) (start : ℕ) : ℕ := ofLeBytes ((a.drop start).take 8)

def listsDataKeyCompare (a b : Bytes) : Except Error Ordering :=
  if a = [] ∨ b = [] then .error .panicked
  else if a.length ≤ 8 ∨ b.length ≤ 8 then .ok (lexCompare a b)
  else
    let aVersionStart := userkeyEnd a
    let bVersionStart := userkeyEnd b
    .ok <| (lexCompare (a.take aVersionStart) (b.take bVersionStart)).then <|
      if aVersionStart = a.length ∧ bVersionStart = b.length then .eq
      else if aVersionStart = a.length then .lt
      else if bVersionStart = b.length then .gt
      else if a.length < aVersionStart + 8 ∨ b.length < bVersionStart + 8 then lexCompare a b
      else (cmp (decodeFixed a aVersionStart) (decodeFixed b bVersionStart)).then <|
        if a.length < aVersionStart + 16 ∨ b.length < bVersionStart + 16 then lexCompare a b
        else cmp (decodeFixed a (aVersionStart + 8)) (decodeFixed b (bVersionStart + 8))

section Scores

-- `f64::from_bits`, with `none` for NaN and the other numbers in the order of `partial_cmp`
variable {F : Type} [LinearOrder F] (fromBits : ℕ → Option F)

/-- The comparison of two scores: NaN is greater than all others, and as great as NaN. -/
def compareScores : Option F → Option F → Ordering
  | some x, some y => cmp x y
  | none, some _ => .gt
  | some _, none => .lt
  | none, none => .eq

def zsetsScoreKeyCompare (a b : Bytes) : Except Error Ordering :=
  if a.length ≤ 8 ∨ b.length ≤ 8 then .error .panicked
  else
    let aVersionStart := userkeyEnd a
    let bVersionStart := userkeyEnd b
    .ok <| (lexCompare ((a.take aVersionStart).drop 8) ((b.take bVersionStart).drop 8)).then <|
      if a.length < aVersionStart + 8 ∨ b.length < bVersionStart + 8 then lexCompare a b
      else (cmp (decodeFixed a aVersionStart) (decodeFixed b bVersionStart)).then <|
        if a.length < aVersionStart + 16 ∨ b.length < bVersionStart + 16 then lexCompare a b
        else (compareScores (fromBits (decodeFixed a (aVersionStart + 8)))
            (fromBits (decodeFixed b (bVersionStart + 8)))).then
          (lexCompare (a.drop (aVersionStart + 16)) (b.drop (bVersionStart + 16)))

end Scores

end Kiwi.PhysicalKeys
