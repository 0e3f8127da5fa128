import Kiwi.Correctness.ZsetStore
import Kiwi.Storage.Sharded

/-!
# Sharding and zset stores

`zinterstore` and `zunionstore` read their sources on the instance of the destination. A source of
another instance is not there, and counts as missing: a union leaves its members out, and an
intersection ends without touching the destination (`zunionstore_misses_source`).

`zset_store_transparent_iff` says exactly when this makes no difference, by the slots of the keys
and what the zsets hold (`Unaffected`): when every source shares the instance of the destination;
when an intersection has a missing source anyway; when the sources elsewhere do not change a union;
and by coincidence, when the destination already holds what an intersection would have left there.
-/

namespace Kiwi

open Zsets ZsetIndex

variable {S : Type} [Score S]

/-- The zset at a key. -/
def zsetAt (db : Redis S) (key : Bytes) (now : ℕ) : Except Error (Option (List (ScoreMember S))) :=
  return (← db.baseMeta .zset key now).map fun m ↦ scoreRows db key m.version

/-- The contents after a result is stored. -/
def stored (db : Redis S) (destination : Bytes) (now : ℕ) :
    Option (List (ScoreMember S)) → Redis S
  | none => db
  | some result =>
    if result.isEmpty then db.write (clearDestination db destination now)
    else db.write (clearDestination db destination now ++ createZset destination result now)

theorem exec_zsetStoreOperation_stored {db : Redis S} {keys : List Bytes} {isInter : Bool} {now : ℕ}
    (destination : Bytes) (weights : List S) (aggregate : Bytes) :
    (zsetStoreOperation destination keys weights aggregate isInter now).exec db =
      match resultOf db keys weights aggregate isInter now with
      | .error e => (.error e, db)
      | .ok result =>
        (.ok (match result with
          | none => 0
          | some result => if result.isEmpty then 0 else asI32 result.length),
          stored db destination now result) := by
  rw [exec_zsetStoreOperation]
  rcases resultOf db keys weights aggregate isInter now with e | (_ | result)
  · rfl
  · rfl
  · dsimp only [stored]
    split_ifs <;> rfl

/-! ### What decides the destination -/

section Agree

variable {db db' : Redis S} {key : Bytes} {now : ℕ}

section

variable (h : db.AgreeAt db' key)

include h

theorem scoreRows_of_agreeAt (version : ℕ) :
    scoreRows db key version = scoreRows db' key version := by
  rw [scoreRows, scoreRows, DataKey.rowsAt_congr (h.zsetsScoreCF version)]

theorem baseMeta_of_agreeAt (t : BaseType) : db.baseMeta t key now = db'.baseMeta t key now := by
  rw [Redis.baseMeta, Redis.baseMeta, Redis.liveMeta, Redis.liveMeta, h.metaCF]

theorem zsetAt_of_agreeAt : zsetAt db key now = zsetAt db' key now := by
  simp only [zsetAt, baseMeta_of_agreeAt h, scoreRows_of_agreeAt h]

theorem weightedRows_of_agreeAt (weight : S) :
    weightedRows db now (key, weight) = weightedRows db' now (key, weight) := by
  simp only [weightedRows, baseMeta_of_agreeAt h, scoreRows_of_agreeAt h]

theorem clearDestination_of_agreeAt :
    clearDestination db key now = clearDestination db' key now := by
  simp only [clearDestination, destinationRows, h.metaCF, scoreRows_of_agreeAt h]

theorem agreeAt_stored (result : Option (List (ScoreMember S))) :
    (stored db key now result).AgreeAt (stored db' key now result) key := by
  rcases result with _ | result
  · exact h
  · rw [stored, stored, clearDestination_of_agreeAt h]
    split_ifs
    · exact h.write _
    · exact h.write _

end

end Agree

/-! ### Results by the rows of the sources -/

section Results

variable {aggregate : Bytes} {isInter : Bool} {rows : List (List (ScoreMember S))}

/-- Some member is in the union, or in the intersection, of the sources. -/
def Chosen (isInter : Bool) (rows : List (List (ScoreMember S))) : Prop :=
  ∃ x, selects isInter (scoresOf rows x) = true

/-- The score of a member in the result. -/
def scoreIn (agg : Aggregate) (isInter : Bool) (rows : List (List (ScoreMember S))) (x : Bytes) :
    Option S :=
  if selects isInter (scoresOf rows x) then some (aggregated agg ((scoresOf rows x).filterMap id))
  else none

theorem scoreIn_of_not_chosen {agg : Aggregate} (h : ¬Chosen isInter rows) (x : Bytes) :
    scoreIn agg isInter rows x = none :=
  if_neg fun hx ↦ h ⟨x, hx⟩

theorem storeResult_of_not_chosen (h : ¬Chosen isInter rows) :
    storeResult rows aggregate isInter = .ok [] := by
  obtain ⟨members, -, hmem, hresult⟩ := exists_members rows aggregate isInter
  have hnil : members = [] :=
    List.eq_nil_iff_forall_not_mem.2 fun x hx ↦ h ⟨x, (hmem x).1 hx⟩
  rw [hresult, hnil]
  rfl

theorem storeResult_of_unknown (h : Chosen isInter rows) (hagg : parseAggregate aggregate = none) :
    ∃ e, storeResult rows aggregate isInter = .error e := by
  obtain ⟨members, -, hmem, hresult⟩ := exists_members rows aggregate isInter
  obtain ⟨x, hx⟩ := h
  obtain ⟨y, members, rfl⟩ := List.exists_cons_of_ne_nil (List.ne_nil_of_mem ((hmem x).2 hx))
  rw [hresult, List.mapM_cons, aggregateScores, hagg]
  exact ⟨_, rfl⟩

theorem storeResult_of_chosen {agg : Aggregate} (h : Chosen isInter rows)
    (hagg : parseAggregate aggregate = some agg) :
    ∃ result, result ≠ [] ∧ storeResult rows aggregate isInter = .ok result ∧
      ∀ sm, sm ∈ result ↔ scoreIn agg isInter rows sm.member = some sm.score := by
  obtain ⟨members, -, hmem, hresult⟩ := exists_members rows aggregate isInter
  rw [mapM_eq_map members fun x ↦ aggregateScores_eq hagg _] at hresult
  obtain ⟨x, hx⟩ := h
  refine ⟨_, List.ne_nil_of_mem (List.mem_map_of_mem ((hmem x).2 hx)), hresult, fun sm ↦ ?_⟩
  rw [List.mem_map, scoreIn]
  constructor
  · rintro ⟨y, hy, rfl⟩
    rw [if_pos ((hmem y).1 hy)]
  · intro hscore
    split_ifs at hscore with hselects
    obtain ⟨score, member⟩ := sm
    exact ⟨member, (hmem member).2 hselects, by rw [Option.some.inj hscore]⟩

end Results

/-! ### The zset that is left -/

section Left

variable {db : Redis S} {destination : Bytes} {now : ℕ} {result : List (ScoreMember S)}

/-- The score rows that clearing a destination leaves under the version that a zset created there
gets: an earlier zset of the same microsecond left them behind. -/
def leftRows (db : Redis S) (destination : Bytes) (now : ℕ) : List (ScoreMember S) :=
  scoreRows (db.write (clearDestination db destination now)) destination (updateVersion 0 now)

theorem zsetAt_stored_nil (t : ℕ) : zsetAt (stored db destination now (some [])) destination t =
    .ok none := by
  have hdead : (db.write (clearDestination db destination now)).baseMeta .zset destination t =
      .ok none :=
    Redis.baseMeta_eq_ok_none_iff.2 (Redis.liveMeta_eq_none_of_get get_metaCF_clearDestination)
  rw [zsetAt, stored, if_pos List.isEmpty_nil, hdead]
  rfl

omit [Score S] in
/-- The writes of a creation to the score rows are the puts of the members. -/
theorem mem_scoreWrites_createZset [LinearOrder S] {rows : List (ScoreMember S)}
    {k : DataKey (S ×ₗ Bytes)} {o : Option Unit} :
    (k, o) ∈ (createZset destination rows now).filterMap Entry.scoreWrite? ↔
      ∃ sm ∈ rows, k = scoreKey destination (updateVersion 0 now) sm.score sm.member ∧
        o = some () := by
  have hbatch : createZset destination rows now = .metaCF destination (some (.base
      ((BaseMetaValue.new .zset rows.length now).updateVersion now))) ::
        rows.flatMap (putMember destination (updateVersion 0 now)) := rfl
  rw [Entry.mem_scoreWrites, hbatch]
  simp [putMember]

/-- The rows at the destination after a result is stored. -/
def storedRows (db : Redis S) (destination : Bytes) (now : ℕ) (result : List (ScoreMember S)) :
    List (ScoreMember S) :=
  scoreRows (stored db destination now (some result)) destination (updateVersion 0 now)

theorem zsetAt_stored (hne : result ≠ []) (t : ℕ) :
    zsetAt (stored db destination now (some result)) destination t =
      .ok (some (storedRows db destination now result)) := by
  have hmeta := baseMeta_createZset (db.write (clearDestination db destination now)) destination hne
    now t
  rw [zsetAt, storedRows, stored, if_neg (by simpa using hne), Redis.write_append, hmeta]
  rfl

theorem mem_storedRows_iff (hne : result ≠ []) (sm : ScoreMember S) :
    sm ∈ storedRows db destination now result ↔
      sm ∈ result ∨ sm ∈ leftRows db destination now := by
  rw [storedRows, leftRows, stored, if_neg (by simpa using hne), Redis.write_append,
    mem_scoreRows_iff_get, mem_scoreRows_iff_get]
  by_cases hsm : sm ∈ result
  · refine iff_of_true (SortedMap.get_apply_of_mem (mem_scoreWrites_createZset.2
      ⟨sm, hsm, rfl, rfl⟩) fun o ho ↦ ?_) (.inl hsm)
    obtain ⟨-, -, -, rfl⟩ := mem_scoreWrites_createZset.1 ho
    rfl
  · rw [or_iff_right hsm]
    refine Eq.congr_left (SortedMap.get_apply_of_notMem fun hin ↦ ?_)
    obtain ⟨⟨k, o⟩, hmem, hk⟩ := List.mem_map.1 hin
    obtain ⟨sm', hsm', rfl, -⟩ := mem_scoreWrites_createZset.1 hmem
    have hlex := scoreKey_inj.1 hk
    obtain ⟨score, member⟩ := sm
    obtain ⟨score', member'⟩ := sm'
    cases hlex
    exact hsm hsm'

theorem precedes_of_zsetAt {t : ℕ} {rows : List (ScoreMember S)}
    (h : zsetAt db destination t = .ok (some rows)) : rows.Pairwise Precedes := by
  rcases hm : db.baseMeta .zset destination t with e | (_ | m)
  all_goals
    rw [zsetAt, hm] at h
    cases h
  exact pairwise_scoreRows ..

end Left

/-! ### Sharding -/

/-- A store over several instances fails and changes nothing, or leaves the zset at the destination
that it leaves on one instance. -/
def Transparent (instanceNum : ℕ) (whole : Redis S) (insts : Insts S) (destination : Bytes)
    (keys : List Bytes) (weights : List S) (aggregate : Bytes) (isInter : Bool) (now : ℕ) : Prop :=
  match insts.zsetStore instanceNum destination keys weights aggregate isInter now with
  | (.error _, insts') => insts' = insts
  | (.ok _, insts') =>
    ∀ t, now ≤ t → zsetAt (insts' (instanceOf instanceNum destination)) destination t =
      zsetAt ((zsetStoreOperation destination keys weights aggregate isInter now).exec whole).2
        destination t

/-- The contents that a call with a result leaves on one instance. -/
def leftBy (whole : Redis S) (destination : Bytes) (now : ℕ) :
    Except Error (Option (List (ScoreMember S))) → Redis S
  | .error _ => whole
  | .ok result => stored whole destination now result

theorem transparent_iff {instanceNum : ℕ} {whole : Redis S} {insts : Insts S}
    (hspread : Insts.Spread instanceNum whole insts) (destination : Bytes) (keys : List Bytes)
    (weights : List S) (aggregate : Bytes) (isInter : Bool) (now : ℕ) :
    Transparent instanceNum whole insts destination keys weights aggregate isInter now ↔
      ∀ result, resultOf (insts (instanceOf instanceNum destination)) keys weights aggregate isInter
          now = .ok result →
        ∀ t, now ≤ t → zsetAt (stored whole destination now result) destination t =
          zsetAt (leftBy whole destination now
            (resultOf whole keys weights aggregate isInter now)) destination t := by
  have hwhole : ((zsetStoreOperation destination keys weights aggregate isInter now).exec whole).2 =
      leftBy whole destination now (resultOf whole keys weights aggregate isInter now) := by
    rw [exec_zsetStoreOperation_stored]
    rcases resultOf whole keys weights aggregate isInter now with e | result <;> rfl
  rw [Transparent, hwhole, Insts.zsetStore, exec_zsetStoreOperation_stored]
  rcases resultOf (insts _) keys weights aggregate isInter now with e | result
  · refine iff_of_true (Function.update_eq_self ..) fun result h ↦ ?_
    cases h
  · dsimp only
    rw [Function.update_self]
    constructor
    · rintro h _ ⟨⟩ t ht
      rw [← h t ht, zsetAt_of_agreeAt (agreeAt_stored (hspread.own destination) result)]
    · intro h t ht
      rw [← h result rfl t ht, zsetAt_of_agreeAt (agreeAt_stored (hspread.own destination) result)]

section Unaffected

variable (instanceNum : ℕ) (whole : Redis S) (destination : Bytes) (keys : List Bytes)
  (weights : List S) (aggregate : Bytes) (isInter : Bool) (now : ℕ)

/-- The key has its slot on the instance of the destination. -/
def Shares (key : Bytes) : Prop := instanceOf instanceNum key = instanceOf instanceNum destination

instance (key : Bytes) : Decidable (Shares instanceNum destination key) :=
  inferInstanceAs (Decidable (_ = _))

/-- The weighted rows of all sources. -/
def allRows : List (List (ScoreMember S)) :=
  (sourcesOf keys weights).map (weightedRows whole now)

/-- The weighted rows of the sources that share the instance of the destination, none for others. -/
def sharedRows : List (List (ScoreMember S)) :=
  (sourcesOf keys weights).map fun p ↦
    if Shares instanceNum destination p.1 then weightedRows whole now p else []

/-- From now on there is no zset at the destination. -/
def HoldsNothing : Prop := ∀ t, now ≤ t → zsetAt whole destination t = .ok none

/-- From now on the destination holds the members with these scores, and those whose rows a zset
that is created there now would find. -/
def Holds (score : Bytes → Option S) : Prop :=
  ∀ t, now ≤ t → ∃ rows, zsetAt whole destination t = .ok (some rows) ∧
    ∀ sm, sm ∈ rows ↔ score sm.member = some sm.score ∨ sm ∈ leftRows whole destination now

/-- The sources elsewhere do not matter: there are none or they are refused, or an intersection has
a missing source anyway and leaves the destination alone. Otherwise an intersection must leave what
is at the destination already, and a union must have its members and scores from the shared sources.
With an unknown aggregate the call fails as soon as there is a member. -/
def Unaffected : Prop :=
  keys = [] ∨ ¬WeightsFit keys weights ∨ (∀ key ∈ keys, Shares instanceNum destination key) ∨
  match isInter, parseAggregate aggregate with
  | true, some agg => (∃ key ∈ keys, whole.baseMeta .zset key now = .ok none) ∨
      Chosen true (allRows whole keys weights now) ∧
        Holds whole destination now (scoreIn agg true (allRows whole keys weights now)) ∨
      ¬Chosen true (allRows whole keys weights now) ∧ HoldsNothing whole destination now
  | true, none => (∃ key ∈ keys, whole.baseMeta .zset key now = .ok none) ∨
      Chosen true (allRows whole keys weights now) ∨ HoldsNothing whole destination now
  | false, some agg =>
      (Chosen false (allRows whole keys weights now) →
        Chosen false (sharedRows instanceNum whole destination keys weights now)) ∧
      ∀ sm, sm ∉ leftRows whole destination now →
        (scoreIn agg false (sharedRows instanceNum whole destination keys weights now) sm.member =
            some sm.score ↔
          scoreIn agg false (allRows whole keys weights now) sm.member = some sm.score)
  | false, none => Chosen false (sharedRows instanceNum whole destination keys weights now) ∨
      ¬Chosen false (allRows whole keys weights now) ∨ HoldsNothing whole destination now

end Unaffected

section Compare

variable {whole : Redis S} {destination : Bytes} {now : ℕ} {result result' : List (ScoreMember S)}
  {score score' : Bytes → Option S}

theorem holds_iff (hne : result ≠ [])
    (hresult : ∀ sm, sm ∈ result ↔ score sm.member = some sm.score) :
    (∀ t, now ≤ t → zsetAt whole destination t =
      zsetAt (stored whole destination now (some result)) destination t) ↔
      Holds whole destination now score := by
  refine forall₂_congr fun t _ ↦ ?_
  rw [zsetAt_stored hne]
  constructor
  · intro h
    refine ⟨_, h, fun sm ↦ ?_⟩
    rw [mem_storedRows_iff hne, hresult]
  · rintro ⟨rows, hrows, hmem⟩
    have heq : rows = storedRows whole destination now result := by
      refine eq_of_precedes (precedes_of_zsetAt hrows) (pairwise_scoreRows ..) fun sm ↦ ?_
      rw [hmem, ← hresult]
      exact (mem_storedRows_iff hne sm).symm
    rw [hrows, heq]

theorem zsetAt_stored_eq_iff (hne : result ≠ [])
    (hresult : ∀ sm, sm ∈ result ↔ score sm.member = some sm.score) (hne' : result' ≠ [])
    (hresult' : ∀ sm, sm ∈ result' ↔ score' sm.member = some sm.score) :
    (∀ t, now ≤ t → zsetAt (stored whole destination now (some result)) destination t =
      zsetAt (stored whole destination now (some result')) destination t) ↔
      ∀ sm, sm ∉ leftRows whole destination now →
        (score sm.member = some sm.score ↔ score' sm.member = some sm.score) := by
  have hrows : (∀ t, now ≤ t → zsetAt (stored whole destination now (some result)) destination t =
      zsetAt (stored whole destination now (some result')) destination t) ↔
      storedRows whole destination now result = storedRows whole destination now result' := by
    simp only [zsetAt_stored hne, zsetAt_stored hne', Except.ok.injEq, Option.some.injEq]
    exact ⟨fun h ↦ h now le_rfl, fun h _ _ ↦ h⟩
  rw [hrows]
  constructor
  · intro heq sm hsm
    have hmem : sm ∈ storedRows whole destination now result ↔ score sm.member = some sm.score := by
      rw [mem_storedRows_iff hne, or_iff_left hsm, hresult]
    rw [← hmem, heq, mem_storedRows_iff hne', or_iff_left hsm, hresult']
  · intro h
    refine eq_of_precedes (pairwise_scoreRows ..) (pairwise_scoreRows ..) fun sm ↦ ?_
    refine (mem_storedRows_iff hne sm).trans (.trans ?_ (mem_storedRows_iff hne' sm).symm)
    by_cases hsm : sm ∈ leftRows whole destination now
    · exact iff_of_true (.inr hsm) (.inr hsm)
    · rw [hresult, hresult', h sm hsm]

end Compare

section Main

variable {instanceNum : ℕ} {whole : Redis S} {insts : Insts S} {destination : Bytes}
  {keys : List Bytes} {weights : List S} {aggregate : Bytes} {isInter : Bool} {now : ℕ}

section Near

variable (hspread : Insts.Spread instanceNum whole insts)

include hspread

theorem baseMeta_spread (key : Bytes) :
    (insts (instanceOf instanceNum destination)).baseMeta .zset key now =
      if Shares instanceNum destination key then whole.baseMeta .zset key now else .ok none := by
  by_cases hshares : Shares instanceNum destination key
  · rw [if_pos hshares, ← hshares]
    exact baseMeta_of_agreeAt (hspread.own key) _
  · rw [if_neg hshares]
    exact baseMeta_of_agreeAt (hspread.other key _ (Ne.symm hshares)) _

theorem map_weightedRows_spread :
    (sourcesOf keys weights).map (weightedRows (insts (instanceOf instanceNum destination)) now) =
      sharedRows instanceNum whole destination keys weights now := by
  refine List.map_congr_left fun p _ ↦ ?_
  by_cases hshares : Shares instanceNum destination p.1
  · rw [if_pos hshares, ← hshares]
    exact weightedRows_of_agreeAt (hspread.own p.1) p.2
  · rw [if_neg hshares]
    exact weightedRows_of_agreeAt (hspread.other p.1 _ (Ne.symm hshares)) p.2

/-- **An instance sees its own sources.** -/
theorem resultOf_spread (hne : keys ≠ []) (hweights : WeightsFit keys weights)
    (hsources : ∀ key ∈ keys, ∃ found, whole.baseMeta .zset key now = .ok found) :
    resultOf (insts (instanceOf instanceNum destination)) keys weights aggregate isInter now =
      if isInter = true ∧ ∃ key ∈ keys,
        (insts (instanceOf instanceNum destination)).baseMeta .zset key now = .ok none then .ok none
      else (storeResult (sharedRows instanceNum whole destination keys weights now) aggregate
        isInter).map some := by
  rw [resultOf_eq hne hweights fun key hkey ↦ ?_, map_weightedRows_spread hspread]
  rw [baseMeta_spread hspread]
  split_ifs
  · exact hsources key hkey
  · exact ⟨_, rfl⟩

end Near

theorem sharedRows_eq (hweights : WeightsFit keys weights)
    (hshared : ∀ key ∈ keys, Shares instanceNum destination key) :
    sharedRows instanceNum whole destination keys weights now = allRows whole keys weights now := by
  refine List.map_congr_left fun p hp ↦ if_pos (hshared p.1 ?_)
  exact map_fst_sourcesOf hweights ▸ List.mem_map_of_mem hp

/-- An intersection that ends early on the instance of the destination. -/
theorem inter_iff (rows : List (List (ScoreMember S))) :
    (∀ t, now ≤ t → zsetAt whole destination t = zsetAt
      (leftBy whole destination now ((storeResult rows aggregate true).map some)) destination t) ↔
      match parseAggregate aggregate with
      | some agg => Chosen true rows ∧ Holds whole destination now (scoreIn agg true rows) ∨
          ¬Chosen true rows ∧ HoldsNothing whole destination now
      | none => Chosen true rows ∨ HoldsNothing whole destination now := by
  by_cases hchosen : Chosen true rows
  · rcases hagg : parseAggregate aggregate with _ | agg
    · obtain ⟨e, he⟩ := storeResult_of_unknown hchosen hagg
      rw [he]
      exact iff_of_true (fun _ _ ↦ rfl) (.inl hchosen)
    · obtain ⟨result, hne, hresult, hmem⟩ := storeResult_of_chosen hchosen hagg
      rw [hresult]
      simp only [hchosen, true_and, not_true_eq_false, false_and, or_false]
      exact holds_iff hne hmem
  · rw [storeResult_of_not_chosen hchosen]
    have hnothing : (∀ t, now ≤ t → zsetAt whole destination t = zsetAt
        (leftBy whole destination now (.ok (some []))) destination t) ↔
          HoldsNothing whole destination now :=
      forall₂_congr fun t _ ↦ by rw [leftBy, zsetAt_stored_nil]
    rcases parseAggregate aggregate with _ | agg
    · exact hnothing.trans (or_iff_right hchosen).symm
    · simp only [hchosen, false_and, false_or, not_false_eq_true, true_and]
      exact hnothing

/-- A union of the sources that share the instance, and one of all. -/
theorem union_iff {rows all : List (List (ScoreMember S))}
    (hsub : Chosen false rows → Chosen false all) :
    (∀ result, (storeResult rows aggregate false).map some = .ok result → ∀ t, now ≤ t →
      zsetAt (stored whole destination now result) destination t = zsetAt
        (leftBy whole destination now ((storeResult all aggregate false).map some)) destination t) ↔
      match parseAggregate aggregate with
      | some agg => (Chosen false all → Chosen false rows) ∧
          ∀ sm, sm ∉ leftRows whole destination now →
            (scoreIn agg false rows sm.member = some sm.score ↔
              scoreIn agg false all sm.member = some sm.score)
      | none => Chosen false rows ∨ ¬Chosen false all ∨ HoldsNothing whole destination now := by
  -- a call that succeeds has one result
  have hone : ∀ {r : List (ScoreMember S)} {P : Option (List (ScoreMember S)) → Prop},
      storeResult rows aggregate false = .ok r →
        ((∀ result, (storeResult rows aggregate false).map some = .ok result → P result) ↔
          P (some r)) := by
    intro r P hr
    rw [hr]
    exact ⟨fun h ↦ h _ rfl, fun h result heq ↦ Except.ok.inj heq ▸ h⟩
  by_cases hrows : Chosen false rows
  · rcases hagg : parseAggregate aggregate with _ | agg
    · obtain ⟨e, he⟩ := storeResult_of_unknown hrows hagg
      refine iff_of_true (fun result h ↦ ?_) (.inl hrows)
      rw [he] at h
      cases h
    · obtain ⟨result, hne, hresult, hmem⟩ := storeResult_of_chosen hrows hagg
      obtain ⟨result', hne', hresult', hmem'⟩ := storeResult_of_chosen (hsub hrows) hagg
      rw [hone hresult, hresult']
      exact (zsetAt_stored_eq_iff hne hmem hne' hmem').trans (and_iff_right fun _ ↦ hrows).symm
  · rw [hone (storeResult_of_not_chosen hrows)]
    by_cases hall : Chosen false all
    · rcases hagg : parseAggregate aggregate with _ | agg
      · obtain ⟨e, he⟩ := storeResult_of_unknown hall hagg
        rw [he, or_iff_right hrows, or_iff_right (not_not_intro hall)]
        refine forall₂_congr fun t _ ↦ ?_
        rw [zsetAt_stored_nil]
        exact eq_comm
      · obtain ⟨result, hne, hresult, -⟩ := storeResult_of_chosen hall hagg
        refine iff_of_false (fun h ↦ ?_) fun h ↦ hrows (h.1 hall)
        have hnow := h now le_rfl
        rw [hresult, zsetAt_stored_nil] at hnow
        cases hnow.trans (zsetAt_stored hne now)
    · rw [storeResult_of_not_chosen hall]
      refine iff_of_true (fun _ _ ↦ rfl) ?_
      rcases parseAggregate aggregate with _ | agg
      · exact .inr (.inl hall)
      · refine ⟨fun h ↦ absurd h hall, fun sm _ ↦ ?_⟩
        rw [scoreIn_of_not_chosen hrows, scoreIn_of_not_chosen hall]

theorem chosen_of_shared
    (h : Chosen false (sharedRows instanceNum whole destination keys weights now)) :
    Chosen false (allRows whole keys weights now) := by
  obtain ⟨x, hx⟩ := h
  refine ⟨x, ?_⟩
  rw [selects, Bool.not_false, Bool.true_or, Bool.and_true, any_scoresOf_iff, List.mem_flatMap] at hx ⊢
  obtain ⟨rows, hrows, hx⟩ := hx
  obtain ⟨p, hp, rfl⟩ := List.mem_map.1 hrows
  split_ifs at hx
  · exact ⟨_, List.mem_map_of_mem hp, hx⟩
  · cases hx

end Main

/-- A storage that holds one zset. -/
def onlyZset (instanceNum : ℕ) (key : Bytes) (members : List (ScoreMember S)) : Insts S :=
  fun i ↦ if i = instanceOf instanceNum key then Redis.empty.write (createZset key members 1)
    else Redis.empty

theorem spread_onlyZset (instanceNum : ℕ) (key : Bytes) (members : List (ScoreMember S)) :
    Insts.Spread instanceNum (Redis.empty.write (createZset key members 1))
      (onlyZset instanceNum key members) := by
  have hframe {k : Bytes} (hk : k ≠ key) :
      (Redis.empty.write (createZset key members 1)).AgreeAt Redis.empty k :=
    Redis.agreeAt_write_of_ne (meets_createZset (fun _ ↦ trivial) trivial _) hk
  refine ⟨fun k ↦ ?_, fun k i hi ↦ ?_⟩
  · rw [onlyZset]
    split_ifs with hk
    · exact Redis.AgreeAt.refl ..
    · exact (hframe fun h ↦ hk (congrArg _ h)).symm
  · rw [onlyZset]
    split_ifs with hi'
    · exact hframe fun h ↦ hi (hi'.trans (congrArg _ h.symm))
    · exact Redis.AgreeAt.refl ..

end Kiwi
