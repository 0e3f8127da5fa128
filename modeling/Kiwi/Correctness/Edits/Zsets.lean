import Kiwi.Correctness.Edits.Basic

/-!
# What zset operations write

A zset that is created gets a fresh version, and every other write keeps the meta value's version.
A store is not of this form: it clears its destination by the meta value that is stored there, live
or not.
-/

namespace Kiwi.Edits

open Program Zsets Expiry

variable {S α : Type} [Score S] {now : ℕ} {a b : Redis S} {key : Bytes} {m : BaseMetaValue}
variable {E : Bytes → MetaValue → Prop}

/-! ### Reads -/

namespace SameView

variable (h : SameView now a b)
include h

section

variable (hm : a.baseMeta .zset key now = .ok (some m))

include hm

theorem zset (x : Bytes) :
    a.zsetsDataCF.get ⟨key, m.version, x⟩ = b.zsetsDataCF.get ⟨key, m.version, x⟩ :=
  h.lookup_of_base (r := .zset ⟨key, m.version, x⟩) hm rfl rfl

theorem scoreRows : Zsets.scoreRows a key m.version = Zsets.scoreRows b key m.version := by
  have hrows : DataKey.rowsAt a.zsetsScoreCF key m.version =
      DataKey.rowsAt b.zsetsScoreCF key m.version :=
    DataKey.rowsAt_congr fun x ↦ h.lookup_of_base (r := .score ⟨key, m.version, x⟩) hm rfl rfl
  rw [Zsets.scoreRows, Zsets.scoreRows, hrows]

theorem revScoreRows : Zsets.revScoreRows a key m.version = Zsets.revScoreRows b key m.version := by
  rw [Zsets.revScoreRows, Zsets.revScoreRows, h.scoreRows hm]

theorem additions (members : List (ScoreMember S)) :
    Zsets.additions a key m.version members = Zsets.additions b key m.version members := by
  simp only [Zsets.additions, h.zset hm]

end

theorem sourceMembers (key : Bytes) (weight : S) :
    Zsets.sourceMembers a key weight now = Zsets.sourceMembers b key weight now :=
  h.bindValid .zset key rfl fun m hm ↦ by simp only [h.scoreRows hm]

theorem collectSources (isInter : Bool) (sources : List (Bytes × S)) :
    Zsets.collectSources a isInter now sources = Zsets.collectSources b isInter now sources := by
  induction sources with
  | nil => rfl
  | cons source sources ih =>
    rw [Zsets.collectSources, Zsets.collectSources, h.sourceMembers, ih]

theorem resultOf (keys : List Bytes) (weights : List S) (aggregate : Bytes) (isInter : Bool) :
    Zsets.resultOf a keys weights aggregate isInter now =
      Zsets.resultOf b keys weights aggregate isInter now := by
  simp only [Zsets.resultOf, h.collectSources]

end SameView

/-! ### Operations -/

section Operations

variable (h : SameView now a b)
include h

section

variable (key : Bytes)

theorem commits_zadd (members : List (ScoreMember S)) :
    CommitsEdits (Kept now a) [key] now a b (zadd key members now) := by
  rw [CommitsEdits, CommitsOne, Commits, exec_zadd, exec_zadd, ← h.baseMeta]
  dsimp only
  split_ifs
  · exact .unchanged _
  rcases hm : a.baseMeta .zset key now with e | (_ | m)
  · exact .unchanged _
  · exact .committed _ _ (meets_createZset (fun _ ↦ .fresh (freshVersion_zero now a key)
      (expiry_of_baseMeta_none hm).symm) (rowVersion_zero now a key) _)
  dsimp only
  rw [← h.additions hm]
  split_ifs
  · exact .committed _ _ ((meets_additions (rowVersion_of_baseMeta hm) _).append
      (meets_meta (editMeta_setCount hm _)))
  · exact .unchanged _

theorem commits_zincrby (increment : S) (member : Bytes) :
    CommitsEdits (Kept now a) [key] now a b (zincrby key increment member now) := by
  have hadd := (commits_zadd h key [⟨increment, member⟩]).bind_pure
    fun _ ↦ Score.format increment
  refine commits_get_bind (commits_lift_bind (h.validMeta .zset key) fun found hfound ↦ ?_)
  rcases found with _ | m
  · exact hadd
  rw [Redis.validMeta_eq_baseMeta] at hfound
  dsimp only
  rw [← h.zset hfound]
  rcases a.zsetsDataCF.get ⟨key, m.version, member⟩ with _ | current
  · exact hadd
  · exact commits_ite (fun _ ↦ commits_throw _) fun _ ↦ commits_write_pure
      (meets_moveMember (rowVersion_of_baseMeta hfound) current ⟨_, member⟩)

theorem commits_zrem (members : List Bytes) :
    CommitsEdits E [key] now a b (zrem key members now) := by
  refine commits_get_bind (commits_lift_bind (h.validMeta .zset key) fun found hfound ↦ ?_)
  rcases found with _ | m
  · exact commits_pure _
  rw [Redis.validMeta_eq_baseMeta] at hfound
  dsimp only
  simp only [← h.zset hfound]
  exact commits_ite (fun _ ↦ commits_pure _) fun _ ↦
    commits_write_pure (meets_removal (fun _ ↦ editMeta_setCount hfound _) _)

theorem commits_zremrangeby (range : Range S) :
    CommitsEdits E [key] now a b (zremrangeby key range now) := by
  rw [CommitsEdits, CommitsOne, Commits, exec_zremrangeby, exec_zremrangeby, ← h.baseMeta]
  rcases hm : a.baseMeta .zset key now with e | (_ | m)
  · exact .unchanged _
  · exact .unchanged _
  dsimp only
  rw [← h.scoreRows hm]
  rcases range.select (scoreRows a key m.version) m with e | selected
  · exact .unchanged _
  dsimp only
  rw [exec_removeSelected, exec_removeSelected]
  split_ifs
  · exact .unchanged _
  · exact .committed _ _ (meets_removal (fun _ ↦ editMeta_setCount hm _) _)

end

end Operations

/-- Whether the operation is a store. -/
def isZsetStore : Zsets.Operation S α → Bool
  | .zinterstore _ _ _ _ | .zunionstore _ _ _ _ => true
  | _ => false

/-- **Zset operations.** -/
theorem commits_zset (h : SameView now a b) (o : Zsets.Operation S α) (ho : isZsetStore o = false) :
    CommitsOne (Writes (zsetRule o) now a) a b (o.run now) (o.run now) := by
  cases o with
  | zadd key members => exact commits_zadd h key members
  | zincrby key increment member => exact commits_zincrby h key increment member
  | zrem key members => exact commits_zrem h key members
  | zremrangebylex key min max => exact commits_zremrangeby h key (.lex min max)
  | zremrangebyrank key start stop => exact commits_zremrangeby h key (.rank start stop)
  | zremrangebyscore key minScore maxScore =>
    exact commits_zremrangeby h key (.score minScore maxScore)
  | zcard => exact commits_read (by rw [zcard, zcard, h.validMeta])
  | zcount key | zlexcount key | zrange key | zrangebylex key | zrangebyscore key | zscan key =>
    exact commits_read (h.bindValid .zset key rfl fun m hm ↦ by simp only [h.scoreRows hm])
  | zrevrange key | zrevrangebyscore key =>
    exact commits_read (h.bindValid .zset key rfl fun m hm ↦ by simp only [h.revScoreRows hm])
  | zscore key | zmscore key =>
    exact commits_read (h.bindValid .zset key rfl fun m hm ↦ by simp only [h.zset hm])
  | zrank key =>
    exact commits_read (h.bindValid .zset key rfl fun m hm ↦ by
      simp only [h.zset hm, h.scoreRows hm])
  | zrevrank key =>
    exact commits_read (h.bindValid .zset key rfl fun m hm ↦ by
      simp only [h.zset hm, h.revScoreRows hm])
  | zinterstore | zunionstore => cases ho

end Kiwi.Edits
