import Kiwi.Bytes
import Kiwi.Lib.LockOrder
import Mathlib.Data.List.Sort

/-!
# Key locks

`LockMgr` (`kstd/lock_mgr.rs`) keeps a pool of mutexes and locks a key by locking the mutex that the
hash of the key selects. All instances of a storage share one lock manager. `LockOperation` lists
the ways in which the storage operations lock their keys, and `LockOperation.script` is what each
does to the pool: a key is locked under its lossy string, and guards are dropped in the reverse
order in which they were taken.

`DefaultHasher` is an arbitrary function here.
-/

namespace Kiwi

open LockOrder

/-- `LockMgr`, before its pool is sized. -/
structure LockMgr where
  numShards : ℕ
  /-- `DefaultHasher`. -/
  hash : Bytes → ℕ

namespace LockMgr

/-- The size of the pool: `num_shards.max(1).next_power_of_two()`. -/
def size (m : LockMgr) : ℕ :=
  (max m.numShards 1).nextPowerOfTwo

/-- `index_for`, on a string. -/
def indexFor (m : LockMgr) (key : Bytes) : ℕ :=
  m.hash key &&& (m.size - 1)

def sortedIndexes (m : LockMgr) (keys : List Bytes) : List ℕ :=
  (keys.map m.indexFor).dedup.insertionSort (· ≤ ·)

end LockMgr

/-- How the operations of the storage lock their keys. -/
inductive LockOperation where
  | single (key : Bytes)
  /-- `Redis::zincrby`, which gives its lock back before it calls `zadd`, if it calls it. -/
  | zincrby (key : Bytes) (callsZadd : Bool)
  /-- `Storage::msetnx`. -/
  | msetnx (keys : List Bytes)
  /-- `Redis::rpoplpush`. -/
  | rpoplpush (source destination : Bytes)
  /-- `Redis::smove`. -/
  | smove (source destination : Bytes)

/-- The mutexes that an operation locks together, in the order in which it locks them. -/
def LockOperation.locks (m : LockMgr) : LockOperation → List ℕ
  | .single key | .zincrby key _ => [m.indexFor (fromUtf8Lossy key)]
  | .msetnx keys => m.sortedIndexes (keys.map fromUtf8Lossy)
  | .rpoplpush source destination =>
    let sourceStr := fromUtf8Lossy source
    let destStr := fromUtf8Lossy destination
    if sourceStr = destStr then [m.indexFor sourceStr]
    else if sourceStr < destStr then [m.indexFor sourceStr, m.indexFor destStr]
    else [m.indexFor destStr, m.indexFor sourceStr]
  | .smove source destination =>
    let (firstKey, secondKey) :=
      if source ≤ destination then (source, destination) else (destination, source)
    if firstKey ≠ secondKey then
      [m.indexFor (fromUtf8Lossy firstKey), m.indexFor (fromUtf8Lossy secondKey)]
    else [m.indexFor (fromUtf8Lossy firstKey)]

/-- Take the locks one after the other and give them back in reverse. -/
def scopedLocks (locks : List ℕ) : List (LockAction ℕ) :=
  locks.map .acquire ++ locks.reverse.map .release

/-- What an operation does to the pool. -/
def LockOperation.script (m : LockMgr) (operation : LockOperation) : List (LockAction ℕ) :=
  match operation with
  | .zincrby _ true => scopedLocks (operation.locks m) ++ scopedLocks (operation.locks m)
  | _ => scopedLocks (operation.locks m)

/-- Operations before their first lock. -/
def LockMgr.start (m : LockMgr) (operations : List LockOperation) : List (Process ℕ) :=
  operations.map fun operation ↦ ⟨[], operation.script m⟩

end Kiwi
