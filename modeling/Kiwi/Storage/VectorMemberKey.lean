import Kiwi.Raft.LogStore
import Kiwi.Storage.Redis

/-!
# The keys of vector members

A member is stored under a version byte, the key with its length in front, the incarnation of the
storage, the generation of the vector set and the element. Numbers are big-endian, so that the
members of one generation are next to each other. `vsim_scan` reads them as the range from
`encodePrefix` to its `prefixUpperBound`.
-/

namespace Kiwi.VectorFormat

open Raft (beBytes)

/-- `VectorMemberDataKey`. -/
structure MemberKey where
  key : Bytes
  storageIncarnation : ℕ
  generationSequence : ℕ
  element : Bytes
  deriving DecidableEq, Repr

def encodeKeyPrefix (key : Bytes) : Except Error Bytes :=
  if key.length < 2 ^ 32 then .ok (1 :: beBytes 4 key.length ++ key)
  else
    let len := key.length
    .error (.invalidArgument s!"vector member key too long: {len} bytes")

def encodePrefix (key : Bytes) (storageIncarnation generationSequence : ℕ) : Except Error Bytes :=
  (encodeKeyPrefix key).map fun output ↦
    output ++ beBytes 8 storageIncarnation ++ beBytes 8 generationSequence

def encodeFull (k : MemberKey) : Except Error Bytes :=
  (encodeKeyPrefix k.key).map fun output ↦
    output ++ beBytes 8 k.storageIncarnation ++ beBytes 8 k.generationSequence ++ k.element

/-- The loop of `prefix_upper_bound`, over the bytes from the last one on. -/
def upperBoundRev : Bytes → Option Bytes
  | [] => none
  | last :: rest => if last = 0xFF then upperBoundRev rest else some ((last + 1) :: rest)

def prefixUpperBound (bytes : Bytes) : Option Bytes :=
  (upperBoundRev bytes.reverse).map List.reverse

/-- The length of the key fits in a `u32`, and both numbers are a `u64`. -/
structure ValidKey (k : MemberKey) : Prop where
  key : k.key.length < 2 ^ 32
  storageIncarnation : k.storageIncarnation < 2 ^ 64
  generationSequence : k.generationSequence < 2 ^ 64

end Kiwi.VectorFormat
