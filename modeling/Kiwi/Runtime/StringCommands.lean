import Kiwi.Lib.Linearize
import Kiwi.Storage.LockMgr
import Kiwi.Storage.Sharded
import Kiwi.Storage.Strings

/-!
# String commands as tasks

The string commands of a storage with several instances, as sequences of point reads, batch commits
and lock steps (`StringCommand.task`). `MSET`, `MSETNX`, `MGET` and `DEL` pass the command gate
exclusively, all others shared. A command on one key locks the lossy string of the key, reads the
meta value and commits at most one batch; `GET` locks nothing. Commands on several keys group them
by instance in a `BTreeMap`, so instances are visited in ascending order, and a storage with one
instance has one group.

`StringCommand.execute` is the same command by the operations of `Kiwi.Storage.Strings`, each in the
instance of its key, and `alone_task` says that a task that runs alone does that. Every command has
one clock reading.
-/

namespace Kiwi

open Linearize

variable {S : Type} [Score S] {α : Type}

/-- The string commands, with parsed arguments. -/
inductive StringCommand
  | get (key : Bytes)
  | set (key value : Bytes)
  | setnx (key value : Bytes)
  | getset (key value : Bytes)
  | incrby (key : Bytes) (incr : ℤ)
  | append (key value : Bytes)
  | setrange (key : Bytes) (offset : ℤ) (value : Bytes)
  | setbit (key : Bytes) (offset value : ℤ)
  | mset (kvs : List (Bytes × Bytes))
  | msetnx (kvs : List (Bytes × Bytes))
  | mget (keys : List Bytes)
  | del (keys : List Bytes)
  deriving DecidableEq

/-- What the storage answers to a string command. -/
inductive StringReply
  | bytes (r : Except Error Bytes)
  | unit (r : Except Error PUnit)
  | int (r : Except Error ℤ)
  | optional (r : Except Error (Option Bytes))
  | flag (r : Except Error Bool)
  | values (r : Except Error (List (Option Bytes)))

/-- `CmdFlags::STORAGE_EXCLUSIVE`. -/
def StringCommand.exclusive : StringCommand → Bool
  | mset _ | msetnx _ | mget _ | del _ => true
  | _ => false

/-- The tasks of string commands: a point read is one of a meta value in an instance, and a commit
is that of a batch in an instance. -/
abbrev StringTask (S : Type) [LinearOrder S] :=
  Task (ℕ × Bytes) (Option MetaValue) (ℕ × Batch S) ℕ StringReply

/-- The instances as a store. -/
def instsStore : Store (Insts S) (ℕ × Bytes) (Option MetaValue) (ℕ × Batch S) where
  look insts k := (insts k.1).metaCF.get k.2
  write insts w := Function.update insts w.1 ((insts w.1).write w.2)
  Touches w k := w.1 = k.1 ∧ ∃ e ∈ w.2, e.key = k.2
  look_write := by
    rintro ⟨i, b⟩ ⟨j, key⟩ hk insts
    by_cases hij : i = j
    · subst hij
      rw [Function.update_self]
      exact (Redis.agreeAt_write fun e he heq ↦ hk ⟨rfl, e, he, heq⟩).metaCF
    · rw [Function.update_of_ne (Ne.symm hij)]

/-! ### What commands make of a meta value -/

namespace Strings

/-- The type check of a string. -/
def stringValueOf (now : ℕ) (found : Option MetaValue) : Except Error (Option StringsValue) :=
  match found.filter fun m ↦ !m.isStale now with
  | none => .ok none
  | some (.string v) => .ok (some v)
  | some _ => .error wrongTypeError

/-- The string that an update starts from. -/
def existingOf (now : ℕ) (found : Option MetaValue) : Except Error StringsValue := do
  return (← stringValueOf now found).getD ⟨[], now, 0⟩

/-- `get_binary`. -/
def getBinaryOf (key : Bytes) (now : ℕ) (found : Option MetaValue) : Except Error Bytes := do
  match ← stringValueOf now found with
  | none => throw (.keyNotFound (fromUtf8Lossy key))
  | some v => return v.userValue

/-- One key of `mget_binary`. -/
def mgetOf (now : ℕ) (found : Option MetaValue) : Option Bytes :=
  match stringValueOf now found with
  | .ok v => v.map StringsValue.userValue
  | .error _ => none

/-- `key_exists_live`. -/
def existsLiveOf (now : ℕ) (found : Option MetaValue) : Bool := found.any (isLive now)

/-- `setnx`: the reply, and the string to put. -/
def setnxOf (value : Bytes) (now : ℕ) (found : Option MetaValue) :
    Except Error (ℤ × Option StringsValue) :=
  if existsLiveOf now found then .ok (0, none) else .ok (1, some ⟨value, now, 0⟩)

/-- `getset`. -/
def getsetOf (value : Bytes) (now : ℕ) (found : Option MetaValue) :
    Except Error (Option Bytes × Option StringsValue) := do
  let old ← stringValueOf now found
  return (old.map fun v ↦ fromUtf8Lossy v.userValue, some ⟨value, now, 0⟩)

/-- `incr_decr`. -/
def incrDecrOf (incr : ℤ) (now : ℕ) (found : Option MetaValue) :
    Except Error (ℤ × Option StringsValue) := do
  match ← stringValueOf now found with
  | none =>
    match checkedAddI64 0 incr with
    | none => throw (.redisErr "increment or decrement would overflow")
    | some n => return (n, some ⟨formatI64 n, now, 0⟩)
  | some old =>
    match parseI64 (fromUtf8Lossy old.userValue) with
    | none => throw (.redisErr "value is not an integer or out of range")
    | some n =>
      match checkedAddI64 n incr with
      | none => throw (.redisErr "increment or decrement would overflow")
      | some n => return (n, some ⟨formatI64 n, old.ctime, old.etime⟩)

/-- `append`. -/
def appendOf (value : Bytes) (now : ℕ) (found : Option MetaValue) :
    Except Error (ℤ × Option StringsValue) := do
  let old ← existingOf now found
  let new := old.userValue ++ value
  if new.length > i32Max then throw (.redisErr "string exceeds maximum allowed size")
  else return (asI32 new.length, some ⟨new, old.ctime, old.etime⟩)

/-- `setrange`, after the checks of the offset. -/
def setrangeOf (offset : ℤ) (value : Bytes) (now : ℕ) (found : Option MetaValue) :
    Except Error (ℤ × Option StringsValue) := do
  let old ← existingOf now found
  let len := asI32 old.userValue.length
  if value.isEmpty ∧ offset ≤ len then return (len, none)
  else if offset + value.length > i32Max then
    throw (.redisErr "ERR string exceeds maximum allowed size")
  else
    let new := overwrite old.userValue offset.toNat value
    return (asI32 new.length, some ⟨new, old.ctime, old.etime⟩)

/-- `setbit`, after the checks of the offset and the bit. -/
def setbitOf (offset value : ℤ) (now : ℕ) (found : Option MetaValue) :
    Except Error (ℤ × Option StringsValue) := do
  let old ← existingOf now found
  let i := offset.toNat / 8
  let mask := bitMask (offset.toNat % 8)
  let padded := old.userValue ++ List.replicate (i + 1 - old.userValue.length) 0
  let byte := padded.getD i 0
  let new := padded.set i (if value = 1 then byte ||| mask else byte &&& ~~~mask)
  return (bitAt old.userValue offset.toNat, some ⟨new, old.ctime, old.etime⟩)

end Strings

/-! ### The tasks -/

section

variable (m : LockMgr) (instanceNum now : ℕ)

/-- The mutex that an operation on a key locks. -/
def keyLock (key : Bytes) : ℕ := m.indexFor (fromUtf8Lossy key)

namespace StringCommand

open Strings

/-- A command on one key under its lock: it reads the meta value, and puts a string unless it fails
or has nothing to change. -/
def update (reply : Except Error α → StringReply) (key : Bytes)
    (f : Option MetaValue → Except Error (α × Option StringsValue)) : StringTask S :=
  .lock (keyLock m key) <| .read (instanceOf instanceNum key, key) fun found ↦
    match f found with
    | .error e => .unlock (keyLock m key) (.done (reply (.error e)))
    | .ok (a, none) => .unlock (keyLock m key) (.done (reply (.ok a)))
    | .ok (a, some new) =>
      .commit (instanceOf instanceNum key, [putString key new.userValue new.ctime new.etime])
        (.unlock (keyLock m key) (.done (reply (.ok a))))

/-- The instances of keys, in ascending order: those of the `BTreeMap` of the groups. -/
def instancesOf (keys : List Bytes) : List ℕ :=
  (keys.map (instanceOf instanceNum)).dedup.insertionSort (· ≤ ·)

/-- The part of a list that belongs to an instance. -/
def groupOf {β : Type} (keyOf : β → Bytes) (items : List β) (instanceId : ℕ) : List β :=
  items.filter fun x ↦ instanceOf instanceNum (keyOf x) = instanceId

/-- `Storage::mset`: one batch for each instance, and then what is left to do. -/
def msetTask (kvs : List (Bytes × Bytes)) (next : StringTask S) : StringTask S :=
  (instancesOf instanceNum (kvs.map Prod.fst)).foldr
    (fun instanceId rest ↦ .commit (instanceId,
      (groupOf instanceNum Prod.fst kvs instanceId).map fun kv ↦ putString kv.1 kv.2 now 0) rest)
    next

/-- The checks of `Storage::msetnx`. -/
def msetnxTask (blocked free : StringTask S) : List (Bytes × Bytes) → StringTask S
  | [] => free
  | kv :: rest => .read (instanceOf instanceNum kv.1, kv.1) fun found ↦
    if existsLiveOf now found then blocked else msetnxTask blocked free rest

/-- The reads of `Storage::mget_binary`; each result goes to the position of its key. -/
def mgetTask : List (Bytes × ℕ) → List (Option Bytes) → StringTask S
  | [], results => .done (.values (.ok results))
  | (key, idx) :: rest, results => .read (instanceOf instanceNum key, key) fun found ↦
    mgetTask rest (results.set idx (mgetOf now found))

/-- `Storage::del`. -/
def delTask : List Bytes → ℤ → StringTask S
  | [], deletedCount => .done (.int (.ok deletedCount))
  | key :: keys, deletedCount =>
    .lock (keyLock m key) <| .read (instanceOf instanceNum key, key) fun found ↦
      match found with
      | none => .unlock (keyLock m key) (delTask keys deletedCount)
      | some value =>
        if !isLive now value then .unlock (keyLock m key) (delTask keys deletedCount)
        else .commit (instanceOf instanceNum key, [.metaCF key (deletedMeta now value)])
          (.unlock (keyLock m key) (delTask keys (deletedCount + 1)))

/-- The locks of `Storage::msetnx`, which takes none when there is one instance. -/
def msetnxLocks (keys : List Bytes) : List ℕ :=
  if instanceNum = 1 then [] else m.sortedIndexes (keys.map fromUtf8Lossy)

/-- A command behind the gate. -/
def task : StringCommand → StringTask S
  | get key => .read (instanceOf instanceNum key, key) fun found ↦
      .done (.bytes (getBinaryOf key now found))
  | set key value => .lock (keyLock m key) <|
      .commit (instanceOf instanceNum key, [putString key value now 0])
        (.unlock (keyLock m key) (.done (.unit (.ok ⟨⟩))))
  | setnx key value => update m instanceNum .int key (setnxOf value now)
  | getset key value => update m instanceNum .optional key (getsetOf value now)
  | incrby key incr => update m instanceNum .int key (incrDecrOf incr now)
  | append key value => update m instanceNum .int key (appendOf value now)
  | setrange key offset value =>
    if offset < 0 then .done (.int (.error (.redisErr "ERR offset is out of range")))
    else if offset > i32Max then .done (.int (.error (.redisErr "ERR offset is out of range")))
    else update m instanceNum .int key (setrangeOf offset value now)
  | setbit key offset value =>
    if offset < 0 then
      .done (.int (.error (.redisErr "ERR bit offset is not an integer or out of range")))
    else if value ≠ 0 ∧ value ≠ 1 then
      .done (.int (.error (.redisErr "ERR bit is not an integer or out of range")))
    else if offset > 2 ^ 32 - 1 then
      .done (.int (.error (.redisErr "ERR bit offset is not an integer or out of range")))
    else update m instanceNum .int key (setbitOf offset value now)
  | mset kvs => msetTask instanceNum now kvs (.done (.unit (.ok ⟨⟩)))
  | msetnx kvs =>
    let locks := msetnxLocks m instanceNum (kvs.map Prod.fst)
    let answer := fun ok ↦ locks.reverse.foldr .unlock (.done (.flag (.ok ok)))
    locks.foldr .lock <| msetnxTask instanceNum now (answer false)
      (msetTask instanceNum now kvs (answer true))
      ((instancesOf instanceNum (kvs.map Prod.fst)).flatMap
        (groupOf instanceNum Prod.fst kvs))
  | mget keys => mgetTask instanceNum now
      ((instancesOf instanceNum keys).flatMap (groupOf instanceNum Prod.fst keys.zipIdx))
      (List.replicate keys.length none)
  | del keys => delTask m instanceNum now keys 0

/-! ### Commands by the operations of the instances -/

/-- An operation in the instance of a key. -/
def onInstance (reply : Except Error α → StringReply) (key : Bytes) (p : Op S α)
    (insts : Insts S) : StringReply × Insts S :=
  let result := p.exec (insts (instanceOf instanceNum key))
  (reply result.1, Function.update insts (instanceOf instanceNum key) result.2)

/-- `Storage::mset`. -/
def msetAll (kvs : List (Bytes × Bytes)) (insts : Insts S) : Insts S :=
  (instancesOf instanceNum (kvs.map Prod.fst)).foldl
    (fun insts instanceId ↦ Function.update insts instanceId
      ((Strings.mset (groupOf instanceNum Prod.fst kvs instanceId) now).exec
        (insts instanceId)).2)
    insts

/-- `Storage::del`, after some keys. -/
def delAll : List Bytes → ℤ → Insts S → ℤ × Insts S
  | [], deletedCount, insts => (deletedCount, insts)
  | key :: keys, deletedCount, insts =>
    let result := (Strings.delKey key now).exec (insts (instanceOf instanceNum key))
    delAll keys (match result.1 with
        | .ok true => deletedCount + 1
        | _ => deletedCount)
      (Function.update insts (instanceOf instanceNum key) result.2)

/-- A command with nobody else around. -/
def execute (insts : Insts S) : StringCommand → StringReply × Insts S
  | get key => (.bytes (Strings.getBinary (insts (instanceOf instanceNum key)) key now), insts)
  | set key value => onInstance instanceNum .unit key (Strings.set key value now) insts
  | setnx key value => onInstance instanceNum .int key (Strings.setnx key value now) insts
  | getset key value => onInstance instanceNum .optional key (Strings.getset key value now) insts
  | incrby key incr => onInstance instanceNum .int key (Strings.incrDecr key incr now) insts
  | append key value => onInstance instanceNum .int key (Strings.append key value now) insts
  | setrange key offset value =>
    onInstance instanceNum .int key (Strings.setrange key offset value now) insts
  | setbit key offset value =>
    onInstance instanceNum .int key (Strings.setbit key offset value now) insts
  | mset kvs => (.unit (.ok ⟨⟩), msetAll instanceNum now kvs insts)
  | msetnx kvs =>
    if kvs.any fun kv ↦ keyExistsLive (insts (instanceOf instanceNum kv.1)) kv.1 now then
      (.flag (.ok false), insts)
    else (.flag (.ok true), msetAll instanceNum now kvs insts)
  | mget keys =>
    (.values (.ok (keys.flatMap fun key ↦
      mgetBinary (insts (instanceOf instanceNum key)) [key] now)), insts)
  | del keys =>
    let result := delAll instanceNum now keys 0 insts
    (.int (.ok result.1), result.2)

end StringCommand

end

end Kiwi
