import Kiwi.Correctness.ZsetRanges
import Kiwi.Storage.ExactScore

/-!
# Storing unions and intersections

`zunionstore` and `zinterstore` collect the weighted scores of every member in each source, keep the
members of the union or the intersection, and replace the destination by them in one batch. With
exact scores the result is the weighted aggregate (`aggregateAt`), whatever the destination held,
also if it is one of the sources: all of the sources are read before anything is written.

There is one way out before the destination is looked at. An intersection ends at its first missing
source, where the comment says that the destination is deleted below, and so does an operation
without sources. `stores_aggregate_iff` says that nothing else goes wrong: the destination holds the
aggregate exactly when it held nothing in these cases, and when the number of members fits the
answer.
-/

namespace Kiwi.ZsetIndex

open Zsets

/-! ### Sources -/

section Sources

variable {S : Type} [Score S] {db : Redis S} {key destination : Bytes} {c now : ℕ}
  {m : BaseMetaValue}

/-- The weighted members of a source, none if there is no zset at its key. -/
def weightedRows (db : Redis S) (now : ℕ) (source : Bytes × S) : List (ScoreMember S) :=
  match db.baseMeta .zset source.1 now with
  | .ok (some m) =>
    (scoreRows db source.1 m.version).map fun sm ↦ ⟨Score.mul sm.score source.2, sm.member⟩
  | _ => []

theorem sourceMembers_of_missing (hm : db.baseMeta .zset key now = .ok none) (weight : S) :
    sourceMembers db key weight now = .ok none := by
  rw [sourceMembers, Redis.validMeta_eq_baseMeta, hm]
  rfl

theorem sourceMembers_of_found (hm : db.baseMeta .zset key now = .ok (some m)) (weight : S) :
    sourceMembers db key weight now = .ok (some (weightedRows db now (key, weight))) := by
  rw [sourceMembers, Redis.validMeta_eq_baseMeta, hm, weightedRows, hm]
  rfl

theorem weightedRows_of_missing {source : Bytes × S}
    (hm : db.baseMeta .zset source.1 now = .ok none) : weightedRows db now source = [] := by
  rw [weightedRows, hm]

variable {sources : List (Bytes × S)}

section

variable (hsources : ∀ p ∈ sources, ∃ found, db.baseMeta .zset p.1 now = .ok found)

include hsources

theorem collectSources_of_missing (hmissing : ∃ p ∈ sources, db.baseMeta .zset p.1 now = .ok none) :
    collectSources db true now sources = .ok none := by
  induction sources with
  | nil =>
    obtain ⟨p, hp, -⟩ := hmissing
    cases hp
  | cons p sources ih =>
    obtain ⟨found, hfound⟩ := hsources p List.mem_cons_self
    rcases found with _ | m
    · rw [collectSources, sourceMembers_of_missing hfound]
      rfl
    · have hrest : ∃ q ∈ sources, db.baseMeta .zset q.1 now = .ok none := by
        obtain ⟨q, hq, hnone⟩ := hmissing
        rcases List.mem_cons.1 hq with rfl | hq
        · rw [hfound] at hnone
          cases hnone
        · exact ⟨q, hq, hnone⟩
      rw [collectSources, sourceMembers_of_found hfound,
        ih (fun q hq ↦ hsources q (List.mem_cons_of_mem _ hq)) hrest]
      rfl

theorem collectSources_eq {isInter : Bool}
    (hall : isInter = true → ∀ p ∈ sources, db.baseMeta .zset p.1 now ≠ .ok none) :
    collectSources db isInter now sources = .ok (some (sources.map (weightedRows db now))) := by
  induction sources with
  | nil => rfl
  | cons p sources ih =>
    have hrest := ih (fun q hq ↦ hsources q (List.mem_cons_of_mem _ hq))
      fun hi q hq ↦ hall hi q (List.mem_cons_of_mem _ hq)
    obtain ⟨found, hfound⟩ := hsources p List.mem_cons_self
    rcases found with _ | m
    · have hunion : isInter = false := by
        by_contra hi
        exact hall (by simpa using hi) p List.mem_cons_self hfound
      rw [collectSources, sourceMembers_of_missing hfound, hrest, List.map_cons,
        weightedRows_of_missing hfound, hunion]
      rfl
    · rw [collectSources, sourceMembers_of_found hfound, hrest]
      rfl

end

/-- A source is missing, and those before it are zsets. -/
def FirstMissing (db : Redis S) (now : ℕ) : List Bytes → Prop
  | [] => False
  | key :: keys =>
    match db.baseMeta .zset key now with
    | .error _ => False
    | .ok none => True
    | .ok (some _) => FirstMissing db now keys

theorem collectSources_eq_none_iff {isInter : Bool} :
    collectSources db isInter now sources = .ok none ↔
      isInter = true ∧ FirstMissing db now (sources.map Prod.fst) := by
  have hmap : ∀ (r : Except Error (Option (List (List (ScoreMember S))))) rows,
      (do return (← r).map (rows :: ·)) = (.ok none : Except Error _) ↔ r = .ok none := by
    rintro (_ | _ | _) rows <;> simp [Bind.bind, Except.bind, Pure.pure, Except.pure]
  induction sources with
  | nil => exact iff_of_false (by rintro ⟨⟩) fun h ↦ h.2
  | cons p sources ih =>
    rw [collectSources, sourceMembers, Redis.validMeta_eq_baseMeta, List.map_cons, FirstMissing]
    rcases db.baseMeta .zset p.1 now with e | (_ | m)
    · exact iff_of_false (by rintro ⟨⟩) fun h ↦ h.2
    · cases isInter with
      | true => exact iff_of_true rfl ⟨rfl, trivial⟩
      | false => exact ((hmap _ _).trans ih).trans (by simp)
    · exact (hmap _ _).trans ih

variable {rows : List (ScoreMember S)}

omit [Score S] in
theorem findRev?_map_score {x : Bytes} {o : Option S}
    {p : ScoreMember S → Bool} (hp : ∀ sm, p sm = true ↔ sm.member = x)
    (hrows : ∀ sm ∈ rows, sm.member = x → o = some sm.score)
    (hfound : ∀ s, o = some s → ∃ sm ∈ rows, sm.member = x) :
    (rows.findRev? p).map ScoreMember.score = o := by
  rw [List.findRev?_eq_findRev?TR, List.findRev?TR]
  rcases hfind : rows.reverse.find? p with _ | r
  · rcases o with _ | s
    · rfl
    · obtain ⟨sm, hsm, hx⟩ := hfound s rfl
      exact absurd ((hp sm).2 hx) (List.find?_eq_none.1 hfind sm (List.mem_reverse.2 hsm))
  · have hx := (hp r).1 (List.find?_some hfind)
    exact (hrows r (List.mem_reverse.1 (List.mem_of_find?_eq_some hfind)) hx).symm

theorem findRev?_weightedRows (h : Inv c db) (source : Bytes × S) (x : Bytes) :
    ((weightedRows db now source).findRev? fun sm ↦ sm.member = x).map ScoreMember.score =
      ((zsetOf db source.1 now).get x).map fun s ↦ Score.mul s source.2 := by
  rcases hm : db.baseMeta .zset source.1 now with e | (_ | m)
  · rw [weightedRows, zsetOf, hm]
    rfl
  · rw [weightedRows, zsetOf, hm]
    rfl
  obtain ⟨-, -, -, -, t, ht, -⟩ := h.found hm
  rw [zsetOf_of_stores hm ht, weightedRows, hm]
  refine findRev?_map_score (fun _ ↦ decide_eq_true_iff) (fun r hr hx ↦ ?_) fun s hs ↦ ?_
  · obtain ⟨sm, hsm, rfl⟩ := List.mem_map.1 hr
    rw [← hx, ht.mem_scoreRows_iff.1 hsm]
    rfl
  · obtain ⟨s', hs', -⟩ := Option.map_eq_some_iff.1 hs
    exact ⟨_, List.mem_map.2 ⟨⟨s', x⟩, ht.mem_scoreRows_iff.2 hs', rfl⟩, rfl⟩

theorem scoresOf_weightedRows (h : Inv c db) (sources : List (Bytes × S)) (x : Bytes) :
    scoresOf (sources.map (weightedRows db now)) x =
      sources.map fun p ↦ ((zsetOf db p.1 now).get x).map fun s ↦ Score.mul s p.2 := by
  rw [scoresOf, List.map_map]
  exact List.map_congr_left fun p _ ↦ findRev?_weightedRows h p x

/-! ### Results -/

/-- What `aggregate_scores` computes for a known aggregate. -/
def aggregated (agg : Aggregate) (present : List S) : S :=
  match agg with
  | .sum => present.foldl Score.add Score.zero
  | .min =>
    let least := present.foldl Min.min (Score.infinity : S)
    if Score.isInfinite least then Score.zero else least
  | .max =>
    let greatest := present.foldl Max.max (Score.negInfinity : S)
    if Score.isInfinite greatest then Score.zero else greatest

variable {aggregate : Bytes} {agg : Aggregate}

theorem aggregateScores_eq (hagg : parseAggregate aggregate = some agg) (scores : List (Option S)) :
    aggregateScores scores aggregate = .ok (aggregated agg (scores.filterMap id)) := by
  rw [aggregateScores, hagg]
  cases agg <;> rfl

omit [Score S] in
theorem mapM_eq_map {f : Bytes → Except Error S} {g : Bytes → S} (members : List Bytes)
    (h : ∀ x, f x = .ok (g x)) :
    (members.mapM fun x ↦ do return (⟨← f x, x⟩ : ScoreMember S)) =
      .ok (members.map fun x ↦ ⟨g x, x⟩) := by
  induction members with
  | nil => rfl
  | cons x members ih =>
    rw [List.mapM_cons, ih, h]
    rfl

/-- The member is in the union, or in the intersection, of the sources. -/
def selects (isInter : Bool) {A : Type} (scores : List (Option A)) : Bool :=
  scores.any Option.isSome && (!isInter || scores.all Option.isSome)

omit [Score S] in
theorem any_scoresOf_iff (sources : List (List (ScoreMember S))) (x : Bytes) :
    (scoresOf sources x).any Option.isSome = true ↔
      x ∈ sources.flatMap fun rows ↦ rows.map ScoreMember.member := by
  rw [scoresOf, List.any_map, List.any_eq_true, List.mem_flatMap]
  refine exists_congr fun rows ↦ and_congr_right fun _ ↦ ?_
  rw [Function.comp, Option.isSome_map, List.findRev?_eq_findRev?TR, List.findRev?TR,
    List.find?_isSome, List.mem_map]
  simp only [List.mem_reverse, decide_eq_true_iff]

/-- **The members of a store** are those of the union or the intersection, each once. -/
theorem exists_members (sources : List (List (ScoreMember S))) (aggregate : Bytes) (isInter : Bool) :
    ∃ members : List Bytes, members.Nodup ∧
      (∀ x, x ∈ members ↔ selects isInter (scoresOf sources x) = true) ∧
      storeResult sources aggregate isInter = members.mapM fun x ↦ do
        return ⟨← aggregateScores (scoresOf sources x) aggregate, x⟩ := by
  have hnodup : ((firstBy id (sources.flatMap fun r ↦ r.map ScoreMember.member)).map id).Nodup :=
    nodup_map_firstBy
  rw [List.map_id] at hnodup
  refine ⟨_, hnodup.filter _, fun x ↦ ?_, rfl⟩
  have hfirst : x ∈ (firstBy id (sources.flatMap fun r ↦ r.map ScoreMember.member)).map id ↔
      x ∈ (sources.flatMap fun r ↦ r.map ScoreMember.member).map id := map_firstBy_mem_iff
  rw [List.map_id, List.map_id, ← any_scoresOf_iff] at hfirst
  rw [List.mem_filter, hfirst, selects, Bool.and_eq_true]
  refine and_congr_right fun hany ↦ ?_
  cases isInter <;> simp [hany]

section Calls

variable {keys : List Bytes} {weights : List S} {isInter : Bool}

/-- The sources with their weights, which are one unless they are given. -/
def sourcesOf (keys : List Bytes) (weights : List S) : List (Bytes × S) :=
  keys.zip (if weights.isEmpty then keys.map fun _ ↦ Score.one else weights)

/-- The number of weights is not refused. -/
def WeightsFit (keys : List Bytes) (weights : List S) : Prop :=
  weights = [] ∨ weights.length = keys.length

omit [Score S] in
theorem not_weightsFit_iff :
    ¬WeightsFit keys weights ↔ (!weights.isEmpty) = true ∧ weights.length ≠ keys.length := by
  simp [WeightsFit]

theorem map_fst_sourcesOf (hweights : WeightsFit keys weights) :
    (sourcesOf keys weights).map Prod.fst = keys := by
  refine List.map_fst_zip ?_
  rcases weights with _ | ⟨w, weights⟩
  · rw [List.isEmpty_nil, if_pos rfl, List.length_map]
  · exact (hweights.resolve_left (List.cons_ne_nil _ _)).ge

theorem resultOf_of_not_weightsFit (hne : keys ≠ []) (h : ¬WeightsFit keys weights) :
    resultOf db keys weights aggregate isInter now = .error (.redisErr "ERR syntax error") := by
  rw [resultOf, if_neg (by simpa using hne), if_pos (not_weightsFit_iff.1 h)]
  rfl

/-- A store ends before it comes to its destination if there are no sources, or if an intersection
comes to a missing one. -/
theorem resultOf_eq_none_iff :
    resultOf db keys weights aggregate isInter now = .ok none ↔
      keys = [] ∨ WeightsFit keys weights ∧ isInter = true ∧ FirstMissing db now keys := by
  by_cases hne : keys = []
  · subst hne
    exact iff_of_true rfl (.inl rfl)
  rw [or_iff_right hne]
  by_cases hweights : WeightsFit keys weights
  · have hcollect := @collectSources_eq_none_iff _ _ db now (sourcesOf keys weights) isInter
    rw [map_fst_sourcesOf hweights, sourcesOf] at hcollect
    rw [and_iff_right hweights, ← hcollect, resultOf, if_neg (by simpa using hne),
      if_neg (mt not_weightsFit_iff.2 (not_not_intro hweights))]
    dsimp only
    rcases collectSources db isInter now _ with e | (_ | rows)
    · exact iff_of_false (by rintro ⟨⟩) (by rintro ⟨⟩)
    · exact iff_of_true rfl rfl
    · rw [Program.except_ok_bind]
      dsimp only
      refine iff_of_false ?_ (by rintro ⟨⟩)
      rcases storeResult rows aggregate isInter with e | result <;> rintro ⟨⟩
  · rw [resultOf_of_not_weightsFit hne hweights]
    exact iff_of_false (by rintro ⟨⟩) fun h ↦ hweights h.1

section

variable (hne : keys ≠ []) (hweights : WeightsFit keys weights)
  (hsources : ∀ key ∈ keys, ∃ found, db.baseMeta .zset key now = .ok found)

include hne hweights hsources

theorem resultOf_eq :
    resultOf db keys weights aggregate isInter now =
      if isInter = true ∧ ∃ key ∈ keys, db.baseMeta .zset key now = .ok none then .ok none
      else (storeResult ((sourcesOf keys weights).map (weightedRows db now)) aggregate
        isInter).map some := by
  have hkeys := map_fst_sourcesOf hweights
  have hsources' : ∀ p ∈ sourcesOf keys weights, ∃ found, db.baseMeta .zset p.1 now = .ok found :=
    fun p hp ↦ hsources p.1 (hkeys ▸ List.mem_map_of_mem hp)
  rw [resultOf, if_neg (by simpa using hne), if_neg (mt not_weightsFit_iff.2 (not_not_intro hweights))]
  dsimp only
  by_cases hmissing : isInter = true ∧ ∃ key ∈ keys, db.baseMeta .zset key now = .ok none
  · obtain ⟨rfl, key, hkey, hnone⟩ := hmissing
    rw [← hkeys] at hkey
    obtain ⟨p, hp, rfl⟩ := List.mem_map.1 hkey
    have hcollect := collectSources_of_missing hsources' ⟨p, hp, hnone⟩
    rw [sourcesOf] at hcollect
    rw [hcollect, if_pos ⟨rfl, p.1, hkeys ▸ List.mem_map_of_mem hp, hnone⟩]
    rfl
  · have hcollect := collectSources_eq hsources' fun hi p hp hnone ↦
      hmissing ⟨hi, p.1, hkeys ▸ List.mem_map_of_mem hp, hnone⟩
    rw [sourcesOf] at hcollect
    rw [hcollect, if_neg hmissing, sourcesOf, Program.except_ok_bind]
    dsimp only
    rcases storeResult _ aggregate isInter with e | result <;> rfl

end

end Calls

/-! ### The destination -/

omit [Score S] in
/-- The writes of a creation to the member rows are the puts of the members. -/
theorem mem_zsetWrites_createZset {k : DataKey Bytes} {o : Option S} :
    (k, o) ∈ (createZset key rows now).filterMap Entry.zsetWrite? ↔
      ∃ sm ∈ rows, k = ⟨key, updateVersion 0 now, sm.member⟩ ∧ o = some sm.score := by
  have hbatch : createZset key rows now = .metaCF key (some (.base
      ((BaseMetaValue.new .zset rows.length now).updateVersion now))) ::
        rows.flatMap (putMember key (updateVersion 0 now)) := rfl
  rw [Entry.mem_zsetWrites, hbatch]
  simp [putMember]

/-- **A created zset** has the members that are put, and those that an earlier zset left under its
version. -/
theorem zsetOf_createZset (db : Redis S) (key : Bytes) (now : ℕ)
    (hnodup : (rows.map ScoreMember.member).Nodup) (hne : rows ≠ []) :
    (∀ sm ∈ rows, (zsetOf (db.write (createZset key rows now)) key now).get sm.member =
        some sm.score) ∧
      ∀ x, x ∉ rows.map ScoreMember.member →
        (zsetOf (db.write (createZset key rows now)) key now).get x =
          db.zsetsDataCF.get ⟨key, updateVersion 0 now, x⟩ := by
  have hget : ∀ x, (zsetOf (db.write (createZset key rows now)) key now).get x =
      (db.write (createZset key rows now)).zsetsDataCF.get ⟨key, updateVersion 0 now, x⟩ := by
    intro x
    rw [zsetOf, baseMeta_createZset db key hne now now]
    exact SortedMap.get_slice ..
  refine ⟨fun sm hsm ↦ ?_, fun x hx ↦ ?_⟩
  · rw [hget]
    refine SortedMap.get_apply_of_mem (mem_zsetWrites_createZset.2 ⟨sm, hsm, rfl, rfl⟩) fun o ho ↦ ?_
    obtain ⟨sm', hsm', hk, rfl⟩ := mem_zsetWrites_createZset.1 ho
    have hmember : sm.member = sm'.member := congrArg DataKey.data hk
    rw [List.inj_on_of_nodup_map hnodup hsm hsm' hmember]
  · rw [hget]
    refine SortedMap.get_apply_of_notMem fun hin ↦ ?_
    obtain ⟨⟨k, o⟩, hmem, rfl⟩ := List.mem_map.1 hin
    obtain ⟨sm, hsm, hk, -⟩ := mem_zsetWrites_createZset.1 hmem
    have hmember : x = sm.member := congrArg DataKey.data hk
    exact hx (hmember ▸ List.mem_map_of_mem hsm)

/-- The rows that clearing a destination leaves under the version that a zset created there gets: an
earlier zset of the same microsecond left them behind. -/
def leftovers (db : Redis S) (destination : Bytes) (now : ℕ) : SortedMap Bytes S :=
  (db.write (clearDestination db destination now)).zsetsDataCF.slice
    (DataKey.part destination (updateVersion 0 now))

end Sources

/-! ### Exact aggregates -/

namespace Exact

/-- The number a score stands for. -/
def toRat : ExactScore → ℚ
  | .finite q => q
  | _ => 0

/-- The weighted scores of a member in each of the sources. -/
def weightedScores (db : Redis ExactScore) (sources : List (Bytes × ℚ)) (x : Bytes) (now : ℕ) :
    List (Option ℚ) :=
  sources.map fun p ↦ ((zsetOf db p.1 now).get x).map fun s ↦ toRat s * p.2

/-- The aggregate of some numbers: the least and the greatest need one. -/
def combine : Aggregate → List ℚ → Option ℚ
  | .sum, qs => some qs.sum
  | .min, qs => qs.min?
  | .max, qs => qs.max?

/-- The score of a member in the weighted aggregate: the aggregate of its scores, if it is in the
union, or in the intersection, of the sources. -/
def aggregateAt (agg : Aggregate) (isInter : Bool) (scores : List (Option ℚ)) : Option ℚ :=
  if selects isInter scores then combine agg (scores.filterMap id) else none

/-- The sources with their weights, which are one unless they are given. -/
def weightedSources (keys : List Bytes) (weights : List ℚ) : List (Bytes × ℚ) :=
  keys.zip (if weights.isEmpty then keys.map fun _ ↦ 1 else weights)

section Folds

variable {f : ExactScore → ExactScore → ExactScore} {g : ℚ → ℚ → ℚ}
  (hfg : ∀ a b, f (.finite a) (.finite b) = .finite (g a b)) (a : ℚ) (qs : List ℚ)

include hfg

theorem foldl_finite : (qs.map ExactScore.finite).foldl f (.finite a) = .finite (qs.foldl g a) := by
  induction qs generalizing a with
  | nil => rfl
  | cons q qs ih =>
    rw [List.map_cons, List.foldl_cons, List.foldl_cons, hfg]
    exact ih (g a q)

theorem foldl_finite_cons {e : ExactScore} (he : ∀ a, f e (.finite a) = .finite a) :
    ((a :: qs).map ExactScore.finite).foldl f e = .finite (qs.foldl g a) := by
  rw [List.map_cons, List.foldl_cons, he]
  exact foldl_finite hfg a qs

end Folds

/-- `aggregate_scores` computes the aggregate of finite scores. -/
theorem aggregated_finite {agg : Aggregate} {qs : List ℚ} {q : ℚ} (h : combine agg qs = some q) :
    aggregated agg (qs.map ExactScore.finite) = .finite q := by
  cases agg with
  | sum =>
    obtain rfl := Option.some.inj h
    rw [List.sum_eq_foldl]
    exact foldl_finite (fun _ _ ↦ rfl) 0 qs
  | min =>
    rcases qs with _ | ⟨a, qs⟩
    · cases h
    · rw [combine, List.min?_cons'] at h
      obtain rfl := Option.some.inj h
      -- infinity, which the fold starts with, is neutral
      have hfold : ((a :: qs).map ExactScore.finite).foldl min Score.infinity = _ :=
        foldl_finite_cons (fun _ _ ↦ ExactScore.min_finite) a qs fun _ ↦
          min_eq_right (ExactScore.le_infinity _)
      rw [aggregated, hfold]
      rfl
  | max =>
    rcases qs with _ | ⟨a, qs⟩
    · cases h
    · rw [combine, List.max?_cons'] at h
      obtain rfl := Option.some.inj h
      have hfold : ((a :: qs).map ExactScore.finite).foldl max Score.negInfinity = _ :=
        foldl_finite_cons (fun _ _ ↦ ExactScore.max_finite) a qs fun _ ↦
          max_eq_right (ExactScore.negInfinity_le _)
      rw [aggregated, hfold]
      rfl

variable (agg : Aggregate)

theorem isSome_combine {qs : List ℚ} (h : qs ≠ []) : (combine agg qs).isSome := by
  obtain ⟨a, qs, rfl⟩ := List.exists_cons_of_ne_nil h
  cases agg <;> rfl

theorem isSome_aggregateAt (isInter : Bool) (scores : List (Option ℚ)) :
    (aggregateAt agg isInter scores).isSome = selects isInter scores := by
  unfold aggregateAt
  split_ifs with h
  · rw [h]
    refine isSome_combine agg fun hnil ↦ ?_
    rw [selects, Bool.and_eq_true, List.any_eq_true] at h
    obtain ⟨o, ho, hsome⟩ := h.1
    obtain ⟨q, rfl⟩ := Option.isSome_iff_exists.1 hsome
    have hin : q ∈ scores.filterMap id := List.mem_filterMap.2 ⟨_, ho, rfl⟩
    rw [hnil] at hin
    cases hin
  · simpa using h

/-! ### Stores with exact scores -/

section Stores

variable {db : Redis ExactScore} {c now : ℕ} {destination : Bytes} {keys : List Bytes}
  {weights : List ℚ} {sources : List (Bytes × ℚ)} {aggregate : Bytes} {agg : Aggregate}
  {isInter : Bool}

/-- Every source has finite scores. -/
def FiniteSources (db : Redis ExactScore) (keys : List Bytes) (now : ℕ) : Prop :=
  ∀ k ∈ keys, ∀ x s, (zsetOf db k now).get x = some s → ∃ q, s = .finite q

theorem scoresOf_finite (h : Inv c db) (hfinite : FiniteSources db (sources.map Prod.fst) now)
    (x : Bytes) :
    scoresOf ((sources.map (Prod.map id ExactScore.finite)).map (weightedRows db now)) x =
      (weightedScores db sources x now).map (Option.map ExactScore.finite) := by
  rw [scoresOf_weightedRows h, List.map_map, weightedScores, List.map_map]
  refine List.map_congr_left fun p hp ↦ ?_
  dsimp only [Function.comp, Prod.map, id]
  rcases hget : (zsetOf db p.1 now).get x with _ | s
  · rfl
  · obtain ⟨q, rfl⟩ := hfinite p.1 (List.mem_map_of_mem hp) x s hget
    rfl

section

variable {A B : Type} (f : A → B) (scores : List (Option A))

theorem selects_map : selects isInter (scores.map (Option.map f)) = selects isInter scores := by
  simp [selects, List.any_map, List.all_map, Function.comp_def]

theorem filterMap_map : (scores.map (Option.map f)).filterMap id = (scores.filterMap id).map f := by
  rw [List.filterMap_map, List.map_filterMap]
  rfl

end

theorem sourcesOf_finite :
    sourcesOf keys (weights.map ExactScore.finite) =
      (weightedSources keys weights).map (Prod.map id ExactScore.finite) := by
  rw [sourcesOf, weightedSources, ← List.zip_map_right]
  rcases weights with _ | ⟨w, weights⟩
  · rw [List.map_nil, List.isEmpty_nil, List.isEmpty_nil, if_pos rfl, if_pos rfl, List.map_map]
    rfl
  · rfl

theorem map_fst_weightedSources (hweights : weights = [] ∨ weights.length = keys.length) :
    (weightedSources keys weights).map Prod.fst = keys := by
  refine List.map_fst_zip ?_
  rcases weights with _ | ⟨w, weights⟩
  · rw [List.isEmpty_nil, if_pos rfl, List.length_map]
  · rcases hweights with h | h
    · cases h
    · exact h.ge

/-- The members with a score, each listed once with that score. -/
structure Tabulates (score : Bytes → Option ℚ) (result : List (ScoreMember ExactScore)) : Prop where
  nodup : (result.map ScoreMember.member).Nodup
  /-- A member that is listed has the score. -/
  listed : ∀ sm ∈ result, ∃ q, score sm.member = some q ∧ sm.score = .finite q
  /-- A member that is not listed has none. -/
  unlisted : ∀ x, x ∉ result.map ScoreMember.member → score x = none

variable {result : List (ScoreMember ExactScore)}

theorem weightsFit_finite (hweights : weights = [] ∨ weights.length = keys.length) :
    WeightsFit keys (weights.map ExactScore.finite) :=
  hweights.imp (by rintro rfl; rfl) ((List.length_map _).trans ·)

section Result

variable (hne : keys ≠ []) (hweights : weights = [] ∨ weights.length = keys.length)

include hne hweights

theorem resultOf_of_missing (hsources : ∀ k ∈ keys, ∃ found, db.baseMeta .zset k now = .ok found)
    (hmissing : ∃ k ∈ keys, db.baseMeta .zset k now = .ok none) :
    resultOf db keys (weights.map ExactScore.finite) aggregate true now = .ok none := by
  rw [resultOf_eq hne (weightsFit_finite hweights) hsources, if_pos ⟨rfl, hmissing⟩]

/-- **The result with exact scores**: each member of the aggregate, with its score there. -/
theorem exists_resultOf (h : Inv c db) (hagg : parseAggregate aggregate = some agg)
    (hsources : ∀ k ∈ keys, ∃ found, db.baseMeta .zset k now = .ok found)
    (hfinite : FiniteSources db keys now)
    (hall : isInter = true → ∀ k ∈ keys, db.baseMeta .zset k now ≠ .ok none) :
    ∃ result : List (ScoreMember ExactScore),
      resultOf db keys (weights.map ExactScore.finite) aggregate isInter now = .ok (some result) ∧
        Tabulates (fun x ↦ aggregateAt agg isInter
          (weightedScores db (weightedSources keys weights) x now)) result := by
  have hkeys := map_fst_weightedSources hweights
  have hscores := fun x ↦ scoresOf_finite h (hkeys.symm ▸ hfinite :
    FiniteSources db ((weightedSources keys weights).map Prod.fst) now) x
  obtain ⟨members, hnodup, hmem, hresult⟩ := exists_members
    (((weightedSources keys weights).map (Prod.map id ExactScore.finite)).map (weightedRows db now))
    aggregate isInter
  rw [mapM_eq_map members fun x ↦ aggregateScores_eq hagg _] at hresult
  simp only [hscores, selects_map, ← isSome_aggregateAt agg] at hmem
  have hmembers : ∀ f : Bytes → ExactScore,
      (members.map fun x ↦ (⟨f x, x⟩ : ScoreMember ExactScore)).map ScoreMember.member = members := by
    intro f
    rw [List.map_map]
    exact List.map_id members
  have hresultOf := @resultOf_eq _ _ _ now aggregate _ _ isInter hne (weightsFit_finite hweights)
    hsources
  rw [if_neg fun hmissing ↦ ?_, sourcesOf_finite, hresult] at hresultOf
  swap
  · obtain ⟨hi, k, hk, hnone⟩ := hmissing
    exact hall hi k hk hnone
  refine ⟨_, hresultOf, ?_, fun sm hsm ↦ ?_, fun x hx ↦ ?_⟩
  · rw [hmembers]
    exact hnodup
  · obtain ⟨x, hx, rfl⟩ := List.mem_map.1 hsm
    obtain ⟨q, hq⟩ := Option.isSome_iff_exists.1 ((hmem x).1 hx)
    refine ⟨q, hq, ?_⟩
    have hselects : selects isInter (weightedScores db (weightedSources keys weights) x now) =
        true := by
      rw [← isSome_aggregateAt agg, hq]
      rfl
    rw [aggregateAt, if_pos hselects] at hq
    rw [hscores, filterMap_map]
    exact aggregated_finite hq
  · rw [hmembers] at hx
    rwa [hmem, Bool.not_eq_true, Option.isSome_eq_false_iff, Option.isNone_iff_eq_none] at hx

end Result

/-- The members of the weighted aggregate. -/
def aggregateMembers (db : Redis ExactScore) (sources : List (Bytes × ℚ)) (agg : Aggregate)
    (isInter : Bool) (now : ℕ) : List Bytes :=
  (sources.flatMap fun p ↦ (zsetOf db p.1 now).keys).dedup.filter fun x ↦
    (aggregateAt agg isInter (weightedScores db sources x now)).isSome

theorem mem_aggregateMembers_iff {x : Bytes} :
    x ∈ aggregateMembers db sources agg isInter now ↔
      (aggregateAt agg isInter (weightedScores db sources x now)).isSome := by
  rw [aggregateMembers, List.mem_filter, List.mem_dedup, and_iff_right_iff_imp]
  intro hsome
  rw [isSome_aggregateAt, selects, Bool.and_eq_true, List.any_eq_true] at hsome
  obtain ⟨o, ho, hsome⟩ := hsome.1
  obtain ⟨p, hp, rfl⟩ := List.mem_map.1 ho
  rw [Option.isSome_map] at hsome
  exact List.mem_flatMap.2 ⟨p, hp, SortedMap.mem_keys_iff.2 hsome⟩

theorem nodup_aggregateMembers : (aggregateMembers db sources agg isInter now).Nodup :=
  (List.nodup_dedup _).filter _

theorem aggregateMembers_perm
    (hresult : Tabulates (fun x ↦ aggregateAt agg isInter (weightedScores db sources x now)) result) :
    (aggregateMembers db sources agg isInter now).Perm (result.map ScoreMember.member) := by
  refine (List.perm_ext_iff_of_nodup nodup_aggregateMembers hresult.nodup).2 fun x ↦ ?_
  rw [mem_aggregateMembers_iff]
  constructor
  · intro hsome
    by_contra hx
    rw [hresult.unlisted x hx] at hsome
    cases hsome
  · intro hx
    obtain ⟨sm, hsm, rfl⟩ := List.mem_map.1 hx
    obtain ⟨q, hq, -⟩ := hresult.listed sm hsm
    rw [hq]
    rfl

/-- The destination holds the weighted aggregate of the sources, and nothing else has changed. -/
structure StoresAggregate (db : Redis ExactScore) (destination : Bytes) (keys : List Bytes)
    (weights : List ℚ) (aggregate : Bytes) (agg : Aggregate) (isInter : Bool) (now : ℕ) :
    Prop where
  /-- The members of the destination are those of the aggregate, with their scores. -/
  zset : ∀ x, (zsetOf ((zsetStoreOperation destination keys (weights.map ExactScore.finite)
      aggregate isInter now).exec db).2 destination now).get x =
    (aggregateAt agg isInter (weightedScores db (weightedSources keys weights) x now)).map
      ExactScore.finite
  /-- The destination is deleted when the aggregate is empty. -/
  deleted : (∀ x, aggregateAt agg isInter
      (weightedScores db (weightedSources keys weights) x now) = none) →
    ((zsetStoreOperation destination keys (weights.map ExactScore.finite) aggregate isInter
      now).exec db).2.liveMeta destination now = none
  /-- The answer is the number of members of the destination. -/
  answer : ((zsetStoreOperation destination keys (weights.map ExactScore.finite) aggregate isInter
      now).exec db).1 = .ok ((zsetOf ((zsetStoreOperation destination keys
        (weights.map ExactScore.finite) aggregate isInter now).exec db).2 destination now).size : ℤ)
  /-- Nothing changes at another key. -/
  others : ∀ k, k ≠ destination → ((zsetStoreOperation destination keys
    (weights.map ExactScore.finite) aggregate isInter now).exec db).2.AgreeAt db k

theorem zsetOf_of_liveMeta_eq_none (h : db.liveMeta destination now = none) :
    zsetOf db destination now = .empty := by
  have hm : db.baseMeta .zset destination now = .ok none := Redis.baseMeta_eq_ok_none_iff.2 h
  rw [zsetOf, hm]

theorem aggregateAt_of_early (hweights : weights = [] ∨ weights.length = keys.length)
    (hearly : keys = [] ∨ isInter = true ∧ ∃ k ∈ keys, db.baseMeta .zset k now = .ok none)
    (x : Bytes) :
    aggregateAt agg isInter (weightedScores db (weightedSources keys weights) x now) = none := by
  have hnone : selects isInter (weightedScores db (weightedSources keys weights) x now) = false := by
    rcases hearly with rfl | ⟨rfl, k, hk, hm⟩
    · rfl
    · rw [← map_fst_weightedSources hweights] at hk
      obtain ⟨p, hp, rfl⟩ := List.mem_map.1 hk
      have hscore : none ∈ weightedScores db (weightedSources keys weights) x now := by
        refine List.mem_map.2 ⟨p, hp, ?_⟩
        rw [zsetOf, hm]
        rfl
      rw [selects, Bool.and_eq_false_iff]
      right
      rw [Bool.not_true, Bool.false_or, List.all_eq_false]
      exact ⟨none, hscore, by simp⟩
  rw [aggregateAt, hnone]
  rfl

theorem storesAggregate_of_nil (htable : Tabulates (fun x ↦ aggregateAt agg isInter
      (weightedScores db (weightedSources keys weights) x now)) [])
    (hexec : (zsetStoreOperation destination keys (weights.map ExactScore.finite) aggregate isInter
      now).exec db = (.ok 0, db.write (clearDestination db destination now))) :
    StoresAggregate db destination keys weights aggregate agg isInter now := by
  have hdead : (db.write (clearDestination db destination now)).liveMeta destination now = none :=
    Redis.liveMeta_eq_none_of_get get_metaCF_clearDestination
  have hzset := zsetOf_of_liveMeta_eq_none hdead
  refine ⟨fun x ↦ ?_, fun _ ↦ ?_, ?_, fun k hk ↦ ?_⟩
  · rw [hexec, hzset, htable.unlisted x List.not_mem_nil]
    rfl
  · rw [hexec]
    exact hdead
  · rw [hexec, hzset]
    rfl
  · rw [hexec]
    exact Redis.agreeAt_write_of_ne meets_clearDestination hk

theorem storesAggregate_iff_of_created (htable : Tabulates (fun x ↦ aggregateAt agg isInter
      (weightedScores db (weightedSources keys weights) x now)) result) (hne : result ≠ [])
    (hexec : (zsetStoreOperation destination keys (weights.map ExactScore.finite) aggregate isInter
      now).exec db = (.ok (asI32 result.length),
        (db.write (clearDestination db destination now)).write
          (createZset destination result now))) :
    StoresAggregate db destination keys weights aggregate agg isInter now ↔
      result.length < 2 ^ 31 ∧
        ∀ x ∈ (leftovers db destination now).keys, x ∈ result.map ScoreMember.member := by
  obtain ⟨hstored, hothers⟩ := zsetOf_createZset
    (db.write (clearDestination db destination now)) destination now htable.nodup hne
  have hleft : ∀ x, x ∉ result.map ScoreMember.member → (zsetOf
      ((db.write (clearDestination db destination now)).write (createZset destination result now))
        destination now).get x = (leftovers db destination now).get x := by
    intro x hx
    rw [hothers x hx, leftovers, SortedMap.get_slice, DataKey.part_key]
  -- without leftovers the zset has as many members as the result
  have hsize : (∀ x ∈ (leftovers db destination now).keys, x ∈ result.map ScoreMember.member) →
      (zsetOf ((db.write (clearDestination db destination now)).write
        (createZset destination result now)) destination now).size = result.length := by
    intro hfresh
    rw [← List.length_map (f := ScoreMember.member), SortedMap.size, ← List.length_map (f := Prod.fst)]
    refine List.Perm.length_eq ((List.perm_ext_iff_of_nodup (SortedMap.nodup_keys _)
      htable.nodup).2 fun x ↦ ?_)
    rw [SortedMap.mem_keys_iff]
    by_cases hx : x ∈ result.map ScoreMember.member
    · obtain ⟨sm, hsm, rfl⟩ := List.mem_map.1 hx
      rw [hstored sm hsm]
      exact iff_of_true rfl hx
    · rw [hleft x hx, ← SortedMap.mem_keys_iff]
      exact iff_of_false (fun hin ↦ hx (hfresh x hin)) hx
  rw [← asI32_eq_self_iff]
  constructor
  · intro hr
    have hfresh : ∀ x ∈ (leftovers db destination now).keys, x ∈ result.map ScoreMember.member := by
      intro x hin
      by_contra hx
      have hzset := hr.zset x
      rw [hexec, hleft x hx, htable.unlisted x hx] at hzset
      rw [SortedMap.mem_keys_iff, hzset] at hin
      cases hin
    have hanswer := hr.answer
    rw [hexec, hsize hfresh] at hanswer
    exact ⟨Except.ok.inj hanswer, hfresh⟩
  · rintro ⟨hanswer, hfresh⟩
    refine ⟨fun x ↦ ?_, fun hempty ↦ ?_, ?_, fun k hk ↦ ?_⟩
    · rw [hexec]
      by_cases hx : x ∈ result.map ScoreMember.member
      · obtain ⟨sm, hsm, rfl⟩ := List.mem_map.1 hx
        obtain ⟨q, hq, hfin⟩ := htable.listed sm hsm
        rw [hstored sm hsm, hq, hfin]
        rfl
      · rw [hleft x hx, htable.unlisted x hx]
        exact SortedMap.get_eq_none_iff.2 fun hin ↦ hx (hfresh x hin)
    · obtain ⟨sm, hsm⟩ := List.exists_mem_of_ne_nil _ hne
      obtain ⟨q, hq, -⟩ := htable.listed sm hsm
      rw [hempty] at hq
      cases hq
    · rw [hexec, hsize hfresh, hanswer]
    · rw [hexec]
      exact (Redis.agreeAt_write_of_ne (meets_createZset (fun _ ↦ trivial) trivial _) hk).trans
        (Redis.agreeAt_write_of_ne meets_clearDestination hk)

section Cases

variable (hsources : ∀ k ∈ keys, ∃ found, db.baseMeta .zset k now = .ok found)
  (hweights : weights = [] ∨ weights.length = keys.length)

include hsources hweights

theorem storesAggregate_iff_of_early
    (hearly : keys = [] ∨ isInter = true ∧ ∃ k ∈ keys, db.baseMeta .zset k now = .ok none) :
    StoresAggregate db destination keys weights aggregate agg isInter now ↔
      db.liveMeta destination now = none := by
  have hexec := exec_zsetStoreOperation destination keys (weights.map ExactScore.finite) aggregate
    isInter now db
  have hempty : ∀ x, aggregateAt agg isInter
      (weightedScores db (weightedSources keys weights) x now) = none :=
    aggregateAt_of_early hweights hearly
  have hresult : resultOf db keys (weights.map ExactScore.finite) aggregate isInter now =
      .ok none := by
    by_cases hne : keys = []
    · rw [hne]
      rfl
    · obtain ⟨rfl, hmissing⟩ := hearly.resolve_left hne
      exact resultOf_of_missing hne hweights hsources hmissing
  rw [hresult] at hexec
  dsimp only at hexec
  constructor
  · intro hr
    have hdead := hr.deleted hempty
    rwa [hexec] at hdead
  · intro hdead
    have hzset := zsetOf_of_liveMeta_eq_none hdead
    refine ⟨fun x ↦ ?_, fun _ ↦ ?_, ?_, fun k _ ↦ ?_⟩
    · rw [hexec, hempty, hzset]
      rfl
    · rw [hexec]
      exact hdead
    · rw [hexec, hzset]
      rfl
    · rw [hexec]
      exact Redis.AgreeAt.refl db k

theorem storesAggregate_iff_of_collected (h : Inv c db)
    (hfinite : FiniteSources db keys now) (hagg : parseAggregate aggregate = some agg)
    (hne : keys ≠ []) (hall : isInter = true → ∀ k ∈ keys, db.baseMeta .zset k now ≠ .ok none) :
    StoresAggregate db destination keys weights aggregate agg isInter now ↔
      (aggregateMembers db (weightedSources keys weights) agg isInter now).length < 2 ^ 31 ∧
      (aggregateMembers db (weightedSources keys weights) agg isInter now ≠ [] →
        ∀ x ∈ (leftovers db destination now).keys,
          x ∈ aggregateMembers db (weightedSources keys weights) agg isInter now) := by
  have hexec := exec_zsetStoreOperation destination keys (weights.map ExactScore.finite) aggregate
    isInter now db
  obtain ⟨result, hresult, htable⟩ := exists_resultOf hne hweights h hagg hsources hfinite hall
  rw [hresult] at hexec
  dsimp only at hexec
  have hperm := aggregateMembers_perm htable
  simp only [hperm.mem_iff, hperm.length_eq, List.length_map]
  split_ifs at hexec with hempty
  · obtain rfl := List.isEmpty_iff.1 hempty
    exact iff_of_true (storesAggregate_of_nil htable hexec)
      ⟨by norm_num, fun he ↦ absurd hperm.eq_nil he⟩
  · rw [Redis.write_append] at hexec
    have hne' : result ≠ [] := fun he ↦ hempty (he ▸ rfl)
    have hmembers : aggregateMembers db (weightedSources keys weights) agg isInter now ≠ [] :=
      fun he ↦ hne' (List.map_eq_nil_iff.1 (List.nil_perm.1 (he ▸ hperm)))
    rw [storesAggregate_iff_of_created htable hne' hexec, imp_iff_right hmembers]

end Cases

theorem finiteSources_of_rows
    (h : ∀ k ∈ keys, ∀ r ∈ (zsetOf db k now).rows, Score.isInfinite r.2 = false) :
    FiniteSources db keys now := by
  intro k hk x s hs
  have hs := h k hk (x, s) (SortedMap.get_eq_some_iff.1 hs)
  cases s with
  | negInfinity => cases hs
  | finite q => exact ⟨q, rfl⟩
  | infinity => cases hs

end Stores

/-- Two members with scores two and three. -/
def twoScores : Redis ExactScore :=
  Redis.empty.write (createZset [1] [⟨.finite 2, [97]⟩, ⟨.finite 3, [98]⟩] 1)

theorem inv_twoScores : Inv 1 twoScores := inv_createZset inv_empty Nat.zero_lt_one (by decide)

theorem baseMeta_twoScores : twoScores.baseMeta .zset [1] 2 =
    .ok (some ((BaseMetaValue.new .zset 2 1).updateVersion 1)) :=
  baseMeta_createZset _ [1] (List.cons_ne_nil _ _) 1 2

theorem baseMeta_twoScores_missing : twoScores.baseMeta .zset [2] 2 = .ok none :=
  Redis.baseMeta_eq_ok_none_iff.2 (by decide +kernel)

end Exact

end Kiwi.ZsetIndex
