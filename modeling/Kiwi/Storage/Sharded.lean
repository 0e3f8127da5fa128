import Kiwi.Storage.Slots
import Kiwi.Storage.Zsets
import Mathlib.Logic.Function.Basic

/-!
# Zset stores over several instances

A `Storage` has several instances, and an operation on a key runs on the instance that the slot of
the key selects. `zinterstore` and `zunionstore` run on the instance of their destination; that
instance also reads the sources.
-/

namespace Kiwi

variable {S : Type} [Score S]

/-- The instances of a storage. -/
abbrev Insts (S : Type) [LinearOrder S] := ℕ → Redis S

namespace Insts

/-- A storage of `instanceNum` instances that holds what one instance with contents `whole` holds,
each key in the instance of its slot. -/
structure Spread (instanceNum : ℕ) (whole : Redis S) (insts : Insts S) : Prop where
  /-- The instance of a key holds its rows. -/
  own : ∀ key, (insts (instanceOf instanceNum key)).AgreeAt whole key
  /-- No other instance holds rows of the key. -/
  other : ∀ key i, i ≠ instanceOf instanceNum key → (insts i).AgreeAt Redis.empty key

/-- `Storage::zinterstore` and `Storage::zunionstore`. -/
def zsetStore (instanceNum : ℕ) (destination : Bytes) (keys : List Bytes) (weights : List S)
    (aggregate : Bytes) (isInter : Bool) (now : ℕ) (insts : Insts S) :
    Except Error ℤ × Insts S :=
  let instanceId := instanceOf instanceNum destination
  let result := (Zsets.zsetStoreOperation destination keys weights aggregate isInter now).exec
    (insts instanceId)
  (result.1, Function.update insts instanceId result.2)

/-- `Storage::zinterstore`. -/
def zinterstore (instanceNum : ℕ) (destination : Bytes) (keys : List Bytes) (weights : List S)
    (aggregate : Bytes) (now : ℕ) (insts : Insts S) : Except Error ℤ × Insts S :=
  insts.zsetStore instanceNum destination keys weights aggregate true now

/-- `Storage::zunionstore`. -/
def zunionstore (instanceNum : ℕ) (destination : Bytes) (keys : List Bytes) (weights : List S)
    (aggregate : Bytes) (now : ℕ) (insts : Insts S) : Except Error ℤ × Insts S :=
  insts.zsetStore instanceNum destination keys weights aggregate false now

end Insts

end Kiwi
