import Kiwi.Correctness.Edits.Basic

/-!
# What hash operations write

A hash that is created gets a fresh version, and every other write keeps the meta value's version.
`hscan` stores a cursor instead of committing a batch.
-/

namespace Kiwi.Edits

open Program Hashes Expiry

variable {S α : Type} [LinearOrder S] {now : ℕ} {a b : Redis S} {key : Bytes} {m : BaseMetaValue}
variable {E : Bytes → MetaValue → Prop}

/-! ### Reads -/

namespace SameView

variable (h : SameView now a b)
include h

section

variable (hm : a.baseMeta .hash key now = .ok (some m))

include hm

theorem hash (f : Bytes) :
    a.hashesDataCF.get ⟨key, m.version, f⟩ = b.hashesDataCF.get ⟨key, m.version, f⟩ :=
  h.lookup_of_base (r := .hash ⟨key, m.version, f⟩) hm rfl rfl

theorem hashRows :
    DataKey.rowsAt a.hashesDataCF key m.version = DataKey.rowsAt b.hashesDataCF key m.version :=
  DataKey.rowsAt_congr (h.hash hm)

end

theorem hget (key field : Bytes) : Hashes.hget a key field now = Hashes.hget b key field now :=
  h.bindBase .hash key rfl fun m hm ↦ by simp only [h.hash hm]

theorem storedFields (key : Bytes) :
    Hashes.storedFields a key now = Hashes.storedFields b key now :=
  h.bindBase .hash key rfl fun m hm ↦ by simp only [h.hashRows hm]

theorem hmget (key : Bytes) (fields : List Bytes) :
    Hashes.hmget a key fields now = Hashes.hmget b key fields now :=
  h.bindBase .hash key rfl fun m hm ↦ by simp only [h.hash hm]

section

variable (hm : a.baseMeta .hash key now = .ok (some m))

include hm

theorem newFieldCount (fields : List (Bytes × Bytes)) :
    Hashes.newFieldCount a key m.version fields = Hashes.newFieldCount b key m.version fields := by
  simp only [Hashes.newFieldCount, h.hash hm]

theorem storedOf (fields : List Bytes) :
    Hashes.storedOf a key m.version fields = Hashes.storedOf b key m.version fields := by
  simp only [Hashes.storedOf, h.hash hm]

end

end SameView

/-! ### Writes -/

theorem edits_createNewHash (hm : a.baseMeta .hash key now = .ok none)
    (fields : List (Bytes × Bytes)) :
    EditBatch (Kept now a) [key] now a (createNewHash key fields now) :=
  meets_createNewHash (fun _ ↦ .fresh (freshVersion_zero now a key)
    (expiry_of_baseMeta_none hm).symm) (rowVersion_zero now a key) fields

section Operations

variable (h : SameView now a b)
include h

theorem commits_updateField (key field initial : Bytes) (onNew : α)
    (onExisting : Bytes → Except Error (Option Bytes × α)) :
    CommitsEdits (Kept now a) [key] now a b
      (updateField key field initial onNew onExisting now) := by
  rw [CommitsEdits, CommitsOne, Commits, exec_updateField, exec_updateField, ← h.baseMeta]
  rcases hm : a.baseMeta .hash key now with e | (_ | m)
  · exact .unchanged _
  · exact .committed _ _ (edits_createNewHash hm _)
  have hversion := rowVersion_of_baseMeta hm
  dsimp only
  rw [← h.hash hm]
  rcases a.hashesDataCF.get ⟨key, m.version, field⟩ with _ | old
  · dsimp only
    split_ifs
    · exact .committed _ _ (meets_put (editMeta_setCount hm _) (meets_putFields hversion _))
    · exact .unchanged _
  · dsimp only
    rcases onExisting old with e | ⟨_ | value, x⟩
    · exact .unchanged _
    · exact .unchanged _
    · exact .committed _ _ (meets_putFields hversion _)

theorem commits_hmset (key : Bytes) (fieldValues : List (Bytes × Bytes)) :
    CommitsEdits (Kept now a) [key] now a b (hmset key fieldValues now) := by
  rw [CommitsEdits, CommitsOne, Commits, exec_hmset, exec_hmset, ← h.baseMeta]
  dsimp only
  rcases hm : a.baseMeta .hash key now with e | (_ | m)
  · exact .unchanged _
  · exact .committed _ _ (edits_createNewHash hm _)
  have hversion := rowVersion_of_baseMeta hm
  dsimp only
  rw [← h.newFieldCount hm]
  split_ifs
  · exact .committed _ _ ((meets_putFields hversion _).append
      (meets_meta (editMeta_setCount hm _)))
  · exact .unchanged _
  · exact .committed _ _ (meets_putFields hversion _)

theorem commits_hdel (key : Bytes) (fields : List Bytes) :
    CommitsEdits E [key] now a b (hdel key fields now) := by
  rw [CommitsEdits, CommitsOne, Commits, exec_hdel, exec_hdel, ← h.baseMeta]
  rcases hm : a.baseMeta .hash key now with e | (_ | m)
  · exact .unchanged _
  · exact .unchanged _
  dsimp only
  rw [← h.storedOf hm]
  split_ifs
  · exact .unchanged _
  · refine .committed _ _ (Meets.append (fun e he ↦ ?_)
      (meets_meta (editMeta_setCount hm _)))
    obtain ⟨f, -, rfl⟩ := List.mem_map.1 he
    exact ⟨List.mem_singleton_self _, trivial⟩
  · exact .unchanged _

end Operations

/-- Whether the operation is `hscan`, which stores a cursor. -/
def isHscan : Hashes.Operation S α → Bool
  | .hscan _ _ _ _ => true
  | _ => false

/-- **Hash operations.** -/
theorem commits_hash {S : Type} [Score S] {a b : Redis S} (h : SameView now a b)
    (o : Hashes.Operation S α) (ho : isHscan o = false) :
    CommitsOne (Writes (hashRule o) now a) a b (o.run now) (o.run now) := by
  cases o with
  | hsetWithOutcome => exact commits_updateField h ..
  | hset => exact (commits_updateField h ..).bind_pure Prod.fst
  | hsetnx | hincrby | hincrbyfloat => exact commits_updateField h ..
  | hmset key fieldValues => exact commits_hmset h key fieldValues
  | hdel key fields => exact commits_hdel h key fields
  | hget key field => exact commits_read (h.hget key field)
  | hexists => exact commits_read (by rw [hexists, hexists, h.hget])
  | hstrlen => exact commits_read (by rw [hstrlen, hstrlen, h.hget])
  | hgetall => exact commits_read (by rw [hgetall, hgetall, h.storedFields])
  | hkeys => exact commits_read (by rw [hkeys, hkeys, h.storedFields])
  | hvals => exact commits_read (by rw [hvals, hvals, h.storedFields])
  | hlen => exact commits_read (by rw [hlen, hlen, h.baseMeta])
  | hmget key fields => exact commits_read (h.hmget key fields)
  | hscan => cases ho

end Kiwi.Edits
