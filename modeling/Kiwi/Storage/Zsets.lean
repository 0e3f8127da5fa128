import Kiwi.Storage.Redis

/-!
# Zset operations

The operations of `redis_zsets.rs`. Every member of a zset has two rows under the zset's version:
one in `ZsetsDataCF`, by member, that stores the score, and one in `ZsetsScoreCF`, by score and
member, that gives the order. The score in the first row is stored as decimal text that parses back
to the same number; here it is the score.

An iteration over the score rows starts at minus infinity, which is the first row, or at the lower
bound of a range, and stops at the first row of another zset or beyond the upper bound. A reverse
iteration seeks to plus infinity. The seek key ends with the score, so it is before every row with
that score, and the iteration starts at the last row whose score is below plus infinity.
-/

namespace Kiwi.Zsets

variable {S : Type} [Score S]

/-- A member with its score: an argument of `zadd`. -/
structure ScoreMember (S : Type) where
  score : S
  member : Bytes
  deriving DecidableEq, Repr

/-! ### Rows -/

/-- The key of a score row. -/
def scoreKey (key : Bytes) (version : ℕ) (score : S) (member : Bytes) : DataKey (S ×ₗ Bytes) :=
  ⟨key, version, toLex (score, member)⟩

/-- The two puts of a member. -/
def putMember (key : Bytes) (version : ℕ) (sm : ScoreMember S) : Batch S :=
  [.zsetsDataCF ⟨key, version, sm.member⟩ (some sm.score),
    .zsetsScoreCF (scoreKey key version sm.score sm.member) (some ())]

/-- The two deletes of a member. -/
def deleteMember (key : Bytes) (version : ℕ) (sm : ScoreMember S) : Batch S :=
  [.zsetsDataCF ⟨key, version, sm.member⟩ none,
    .zsetsScoreCF (scoreKey key version sm.score sm.member) none]

/-- The members under a version, in the order of their scores. -/
def scoreRows (db : Redis S) (key : Bytes) (version : ℕ) : List (ScoreMember S) :=
  (DataKey.rowsAt db.zsetsScoreCF key version).map fun r ↦ ⟨(ofLex r.1).1, (ofLex r.1).2⟩

/-- The members a reverse iteration visits: those before the seek key for plus infinity. -/
def revScoreRows (db : Redis S) (key : Bytes) (version : ℕ) : List (ScoreMember S) :=
  ((scoreRows db key version).filter fun sm ↦ sm.score < Score.infinity).reverse

/-- The meta value and rows of a new zset. -/
def createZset (key : Bytes) (members : List (ScoreMember S)) (now : ℕ) : Batch S :=
  let m := (BaseMetaValue.new .zset members.length now).updateVersion now
  .metaCF key (some (.base m)) :: members.flatMap (putMember key m.version)

/-! ### Adding -/

/-- What `zadd` does for one argument, given the score stored for its member: the writes, and
whether the member is new. -/
def addOne (key : Bytes) (version : ℕ) (existing : Option S) (sm : ScoreMember S) :
    Batch S × Bool :=
  match existing with
  | some old =>
    if Score.near old sm.score then ([], false)
    else
      (.zsetsScoreCF (scoreKey key version old sm.member) none :: putMember key version sm, false)
  | none => (putMember key version sm, true)

variable {m : BaseMetaValue}

section

omit [Score S]

@[simp] theorem metaWrites_putMember (key : Bytes) (version : ℕ) (sm : ScoreMember S) :
    (putMember key version sm).filterMap Entry.metaWrite? = [] := rfl

variable {M : Bytes → MetaValue → Prop} {R : Bytes → ℕ → Prop} {key : Bytes} {version : ℕ}

theorem meets_putMember (hR : R key version) (sm : ScoreMember S) :
    Meets [key] M R (putMember key version sm) :=
  meets_cons (List.mem_singleton_self _) hR (meets_singleton (List.mem_singleton_self _) hR)

theorem meets_deleteMember (version : ℕ) (sm : ScoreMember S) :
    Meets [key] M R (deleteMember key version sm) :=
  meets_cons (List.mem_singleton_self _) trivial
    (meets_singleton (List.mem_singleton_self _) trivial)

theorem meets_moveMember (hR : R key version) (old : S) (sm : ScoreMember S) :
    Meets [key] M R (.zsetsScoreCF (scoreKey key version old sm.member) none ::
      putMember key version sm) :=
  meets_cons (List.mem_singleton_self _) trivial (meets_putMember hR sm)

theorem meets_removal {count : ℕ}
    (hM : count ≠ 0 → M key (.base (m.setCount count))) (rows : List (ScoreMember S)) :
    Meets [key] M R (rows.flatMap (deleteMember key m.version) ++
      [putOrDeleteBaseMeta key m count]) := by
  refine (meets_flatMap fun sm _ ↦ meets_deleteMember m.version sm).append ?_
  rw [putOrDeleteBaseMeta]
  split_ifs with hcount
  · exact meets_deleteMeta key
  · exact meets_meta (hM hcount)

theorem meets_createZset {now : ℕ}
    (hM : ∀ n, M key (.base ((BaseMetaValue.new .zset n now).updateVersion now)))
    (hR : R key (updateVersion 0 now)) (members : List (ScoreMember S)) :
    Meets [key] M R (createZset key members now) :=
  meets_put (hM _) (meets_flatMap fun sm _ ↦ meets_putMember hR sm)

theorem metaWrites_flatMap {A : Type} {l : List A} {f : A → Batch S}
    (h : ∀ a ∈ l, (f a).filterMap Entry.metaWrite? = []) :
    (l.flatMap f).filterMap Entry.metaWrite? = [] := by
  rw [List.filterMap_eq_nil_iff]
  intro e he
  obtain ⟨a, ha, he⟩ := List.mem_flatMap.1 he
  exact List.filterMap_eq_nil_iff.1 (h a ha) e he

end

theorem get_metaCF_write_createZset (db : Redis S) (key : Bytes) (members : List (ScoreMember S))
    (now : ℕ) : (db.write (createZset key members now)).metaCF.get key =
      some (.base ((BaseMetaValue.new .zset members.length now).updateVersion now)) := by
  rw [createZset, Redis.write_metaCF, List.filterMap_cons]
  simp [metaWrites_flatMap fun _ _ ↦ metaWrites_putMember _ _ _]

variable {M : Bytes → MetaValue → Prop} {R : Bytes → ℕ → Prop} {version : ℕ}

theorem meets_addOne {key : Bytes} (hR : R key version) (existing : Option S) (sm : ScoreMember S) :
    Meets [key] M R (addOne key version existing sm).1 := by
  rcases existing with _ | old
  · exact meets_putMember hR sm
  · rw [addOne]
    split_ifs
    · exact meets_nil
    · exact meets_moveMember hR old sm

/-- `zadd`. Of the arguments with one member, the first counts. -/
def zadd (key : Bytes) (scoreMembers : List (ScoreMember S)) (now : ℕ) : Op S ℤ := do
  let db ← get
  let filtered := firstBy ScoreMember.member scoreMembers
  if filtered.isEmpty then return 0
  else
    match ← db.baseMeta .zset key now with
    | none =>
      commit (createZset key filtered now)
      return asI32 filtered.length
    | some found =>
      let valid := found.isValid now
      let m := if valid then found else found.initialMetaValue now
      let added := filtered.map fun sm ↦
        addOne key m.version
          (if valid then db.zsetsDataCF.get ⟨key, m.version, sm.member⟩ else none) sm
      let count := added.countP Prod.snd
      if !m.checkModifyCount count then throw (.redisErr "zset size overflow")
      else
        commit (added.flatMap Prod.fst ++ [.metaCF key (some (.base (m.modifyCount count)))])
        return asI32 count

/-- What `zadd` does for its arguments on a stored zset. -/
def additions (db : Redis S) (key : Bytes) (version : ℕ) (members : List (ScoreMember S)) :
    List (Batch S × Bool) :=
  members.map fun sm ↦ addOne key version (db.zsetsDataCF.get ⟨key, version, sm.member⟩) sm

variable {db : Redis S}

theorem meets_additions {key : Bytes} (hR : R key version) (members : List (ScoreMember S)) :
    Meets [key] M R ((additions db key version members).flatMap Prod.fst) := by
  refine meets_flatMap fun x hx ↦ ?_
  obtain ⟨sm, -, rfl⟩ := List.mem_map.1 hx
  exact meets_addOne hR _ sm

variable (key : Bytes)

open Program in
/-- **Execution of `zadd`.** -/
theorem exec_zadd (scoreMembers : List (ScoreMember S)) (now : ℕ) (db : Redis S) :
    (zadd key scoreMembers now).exec db =
      let filtered := firstBy ScoreMember.member scoreMembers
      if filtered.isEmpty then (.ok 0, db)
      else
        match db.baseMeta .zset key now with
        | .error e => (.error e, db)
        | .ok none => (.ok (asI32 filtered.length), db.write (createZset key filtered now))
        | .ok (some m) =>
          let added := additions db key m.version filtered
          if m.checkModifyCount (added.countP Prod.snd) then
            (.ok (asI32 (added.countP Prod.snd)), db.write (added.flatMap Prod.fst
              ++ [.metaCF key (some (.base (m.modifyCount (added.countP Prod.snd))))]))
          else (.error (.redisErr "zset size overflow"), db) := by
  rw [zadd, exec_get_bind]
  simp only [exec_ite, exec_pure]
  congr 1
  rcases h : db.baseMeta .zset key now with e | (_ | m)
  · rfl
  · rfl
  · have hv := Redis.isValid_of_liveMeta (Redis.baseMeta_eq_ok_some_iff.1 h).1
    rw [exec_lift_ok_bind]
    simp only [hv, if_true]
    show exec (if !m.checkModifyCount ((additions db key m.version _).countP Prod.snd) then _
      else _) db = _
    cases m.checkModifyCount ((additions db key m.version
      (firstBy ScoreMember.member scoreMembers)).countP Prod.snd) <;> rfl

/-- `zincrby`: the new score as text. A member that is not stored is added by `zadd`. -/
def zincrby (key : Bytes) (increment : S) (member : Bytes) (now : ℕ) : Op S Bytes := do
  let db ← get
  match ← db.validMeta .zset key now with
  | none =>
    let _ ← zadd key [⟨increment, member⟩] now
    return Score.format increment
  | some m =>
    match db.zsetsDataCF.get ⟨key, m.version, member⟩ with
    | none =>
      let _ ← zadd key [⟨increment, member⟩] now
      return Score.format increment
    | some current =>
      let score := Score.add current increment
      if Score.isNan score || Score.isInfinite score then
        throw (.redisErr "ERR increment would produce NaN or Infinity")
      else
        commit (.zsetsScoreCF (scoreKey key m.version current member) none
          :: putMember key m.version ⟨score, member⟩)
        return Score.format score

/-! ### Removing -/

/-- `zrem`, which counts a repeated argument every time. -/
def zrem (key : Bytes) (members : List Bytes) (now : ℕ) : Op S ℤ := do
  let db ← get
  match ← db.validMeta .zset key now with
  | none => return 0
  | some m =>
    let stored := members.filterMap fun x ↦
      (db.zsetsDataCF.get ⟨key, m.version, x⟩).map fun score ↦ (⟨score, x⟩ : ScoreMember S)
    if stored.isEmpty then return 0
    else
      commit (stored.flatMap (deleteMember key m.version)
        ++ [putOrDeleteBaseMeta key m (subU64 m.count stored.length)])
      return asI32 stored.length

/-- The rows of the listed members that are stored, one for each time a member is listed. -/
def listedRows (db : Redis S) (key : Bytes) (version : ℕ) (members : List Bytes) :
    List (ScoreMember S) :=
  members.filterMap fun x ↦ (db.zsetsDataCF.get ⟨key, version, x⟩).map fun score ↦ ⟨score, x⟩

open Program in
theorem exec_zrem (members : List Bytes) (now : ℕ) (db : Redis S) :
    (zrem key members now).exec db =
      match db.baseMeta .zset key now with
      | .error e => (.error e, db)
      | .ok none => (.ok 0, db)
      | .ok (some m) =>
        if (listedRows db key m.version members).isEmpty then (.ok 0, db)
        else
          (.ok (asI32 (listedRows db key m.version members).length),
            db.write ((listedRows db key m.version members).flatMap (deleteMember key m.version)
              ++ [putOrDeleteBaseMeta key m
                (subU64 m.count (listedRows db key m.version members).length)])) := by
  rw [zrem, exec_get_bind, Redis.validMeta_eq_baseMeta]
  rcases db.baseMeta .zset key now with e | (_ | m)
  · rfl
  · rfl
  · rw [exec_lift_ok_bind]
    dsimp only
    rw [exec_ite]
    rfl

/-- The end of the `zremrangeby…` operations: delete the members that were selected. -/
def removeSelected (key : Bytes) (m : BaseMetaValue) (toDelete : List (ScoreMember S)) :
    Op S ℤ := do
  if toDelete.isEmpty then return 0
  else
    commit (toDelete.flatMap (deleteMember key m.version)
      ++ [putOrDeleteBaseMeta key m (m.count - toDelete.length)])
    return asI32 toDelete.length

open Program in
theorem exec_removeSelected (toDelete : List (ScoreMember S)) (db : Redis S) :
    (removeSelected key m toDelete).exec db =
      if toDelete.isEmpty then (.ok 0, db)
      else (.ok (asI32 toDelete.length), db.write (toDelete.flatMap (deleteMember key m.version)
        ++ [putOrDeleteBaseMeta key m (m.count - toDelete.length)])) := by
  rw [removeSelected, exec_ite]
  rfl

/-- `parse_lex_range`: the bound, if there is one, and whether it is exclusive. -/
def parseLexRange (range : Bytes) : Except Error (Option Bytes × Bool) :=
  match range with
  | [0x2D] => .ok (none, false)
  | [0x2B] => .ok (none, false)
  | 0x5B :: b :: rest => .ok (some (b :: rest), false)
  | 0x28 :: b :: rest => .ok (some (b :: rest), true)
  | _ => .error (.redisErr "ERR min or max not valid string range item")

def isInLexRange (min max : Option Bytes × Bool) (member : Bytes) : Bool :=
  (match min.1 with
    | none => true
    | some b => if min.2 then b < member else b ≤ member) &&
  (match max.1 with
    | none => true
    | some b => if max.2 then member < b else member ≤ b)

/-- The members of a lexicographical range: the iteration stops at the first member above the upper
bound. -/
def lexRange (rows : List (ScoreMember S)) (min max : Option Bytes × Bool) :
    List (ScoreMember S) :=
  (rows.takeWhile fun sm ↦
    match max.1 with
    | none => true
    | some b => sm.member ≤ b).filter fun sm ↦ isInLexRange min max sm.member

/-- The members of a score range. -/
def scoreRange (rows : List (ScoreMember S)) (minScore maxScore : S) : List (ScoreMember S) :=
  (rows.dropWhile fun sm ↦ sm.score < minScore).takeWhile fun sm ↦ sm.score ≤ maxScore

/-- The members of a range of ranks, the ranks counted from the end when negative. -/
def rankRange (rows : List (ScoreMember S)) (m : BaseMetaValue) (start stop : ℤ) :
    List (ScoreMember S) :=
  let count := asI64 m.count
  let startIdx := if start < 0 then max (count + start) 0 else start
  let stopIdx := if stop < 0 then max (count + stop) 0 else stop
  if count = 0 then []
  else if startIdx > stopIdx ∨ startIdx ≥ count then []
  else
    let stopIdx := min stopIdx (count - 1)
    (rows.take (stopIdx + 1).toNat).drop startIdx.toNat

variable {rows : List (ScoreMember S)}

omit [Score S] in
theorem rankRange_sublist {start stop : ℤ} : (rankRange rows m start stop).Sublist rows := by
  unfold rankRange
  dsimp only
  generalize (if start < 0 then max (asI64 m.count + start) 0 else start) = startIdx
  generalize (if stop < 0 then max (asI64 m.count + stop) 0 else stop) = stopIdx
  split_ifs
  · exact List.nil_sublist _
  · exact List.nil_sublist _
  · exact (List.drop_sublist _ _).trans (List.take_sublist _ _)

def zremrangebylex (key min max : Bytes) (now : ℕ) : Op S ℤ := do
  let db ← get
  match ← db.validMeta .zset key now with
  | none => return 0
  | some m =>
    let min ← parseLexRange min
    let max ← parseLexRange max
    removeSelected key m (lexRange (scoreRows db key m.version) min max)

def zremrangebyrank (key : Bytes) (start stop : ℤ) (now : ℕ) : Op S ℤ := do
  let db ← get
  match ← db.validMeta .zset key now with
  | none => return 0
  | some m => removeSelected key m (rankRange (scoreRows db key m.version) m start stop)

def zremrangebyscore (key : Bytes) (minScore maxScore : S) (now : ℕ) : Op S ℤ := do
  let db ← get
  match ← db.validMeta .zset key now with
  | none => return 0
  | some m => removeSelected key m (scoreRange (scoreRows db key m.version) minScore maxScore)

omit [Score S] in
theorem lexRange_sublist {min max : Option Bytes × Bool} : (lexRange rows min max).Sublist rows :=
  List.filter_sublist.trans (List.takeWhile_sublist _)

theorem scoreRange_sublist {minScore maxScore : S} :
    (scoreRange rows minScore maxScore).Sublist rows :=
  (List.takeWhile_sublist _).trans (List.dropWhile_sublist _)

/-- The selections of the `zremrangeby…` operations. -/
inductive Range (S : Type)
  | lex (min max : Bytes)
  | rank (start stop : ℤ)
  | score (minScore maxScore : S)

/-- The members a range selects. -/
def Range.select (rows : List (ScoreMember S)) (m : BaseMetaValue) :
    Range S → Except Error (List (ScoreMember S))
  | .lex min max => do
    let min ← parseLexRange min
    let max ← parseLexRange max
    return lexRange rows min max
  | .rank start stop => return rankRange rows m start stop
  | .score minScore maxScore => return scoreRange rows minScore maxScore

/-- The `zremrangeby…` operation of a range. -/
def zremrangeby (key : Bytes) (range : Range S) (now : ℕ) : Op S ℤ :=
  match range with
  | .lex min max => zremrangebylex key min max now
  | .rank start stop => zremrangebyrank key start stop now
  | .score minScore maxScore => zremrangebyscore key minScore maxScore now

theorem Range.select_sublist {rows selected : List (ScoreMember S)}
    {range : Range S} (h : range.select rows m = .ok selected) : selected.Sublist rows := by
  cases range with
  | lex min max =>
    rw [Range.select] at h
    rcases hmin : parseLexRange min with e | min'
    · rw [hmin] at h
      cases h
    rcases hmax : parseLexRange max with e | max'
    · rw [hmin, hmax] at h
      cases h
    rw [hmin, hmax] at h
    exact Except.ok.inj h ▸ lexRange_sublist
  | rank => exact Except.ok.inj h ▸ rankRange_sublist
  | score => exact Except.ok.inj h ▸ scoreRange_sublist

open Program in
/-- **Execution of the `zremrangeby…` operations.** -/
theorem exec_zremrangeby (range : Range S) (now : ℕ) (db : Redis S) :
    (zremrangeby key range now).exec db =
      match db.baseMeta .zset key now with
      | .error e => (.error e, db)
      | .ok none => (.ok 0, db)
      | .ok (some m) =>
        match range.select (scoreRows db key m.version) m with
        | .error e => (.error e, db)
        | .ok selected => (removeSelected key m selected).exec db := by
  cases range with
  | lex min max =>
    rw [zremrangeby, zremrangebylex, exec_get_bind, Redis.validMeta_eq_baseMeta]
    rcases db.baseMeta .zset key now with e | (_ | m)
    · rfl
    · rfl
    · rw [exec_lift_ok_bind]
      simp only [Range.select]
      rcases parseLexRange min with e | min
      · rfl
      · rcases parseLexRange max with e | max <;> rfl
  | rank =>
    rw [zremrangeby, zremrangebyrank, exec_get_bind, Redis.validMeta_eq_baseMeta]
    rcases db.baseMeta .zset key now with e | (_ | m)
    · rfl
    · rfl
    · rw [exec_lift_ok_bind]
      rfl
  | score =>
    rw [zremrangeby, zremrangebyscore, exec_get_bind, Redis.validMeta_eq_baseMeta]
    rcases db.baseMeta .zset key now with e | (_ | m) <;> rfl

/-! ### Reads -/

def zcard (db : Redis S) (key : Bytes) (now : ℕ) : Except Error ℤ := do
  match ← db.validMeta .zset key now with
  | none => return 0
  | some m => return asI32 m.count

def zcount (db : Redis S) (key : Bytes) (minScore maxScore : S) (now : ℕ) : Except Error ℤ := do
  match ← db.validMeta .zset key now with
  | none => return 0
  | some m => return asI32 (scoreRange (scoreRows db key m.version) minScore maxScore).length

def zscore (db : Redis S) (key member : Bytes) (now : ℕ) : Except Error (Option Bytes) := do
  match ← db.validMeta .zset key now with
  | none => return none
  | some m => return (db.zsetsDataCF.get ⟨key, m.version, member⟩).map Score.format

def zmscore (db : Redis S) (key : Bytes) (members : List Bytes) (now : ℕ) :
    Except Error (List (Option Bytes)) := do
  match ← db.validMeta .zset key now with
  | none => return members.map fun _ ↦ none
  | some m =>
    return members.map fun x ↦ (db.zsetsDataCF.get ⟨key, m.version, x⟩).map Score.format

/-- The place of a member with its score in an iteration. -/
def rankIn (rows : List (ScoreMember S)) (score : S) (member : Bytes) : Option ℤ :=
  (rows.findIdx? fun sm ↦ sm.score = score ∧ sm.member = member).map fun (i : ℕ) ↦ (i : ℤ)

def zrank (db : Redis S) (key member : Bytes) (now : ℕ) : Except Error (Option ℤ) := do
  match ← db.validMeta .zset key now with
  | none => return none
  | some m =>
    match db.zsetsDataCF.get ⟨key, m.version, member⟩ with
    | none => return none
    | some score => return rankIn (scoreRows db key m.version) score member

def zrevrank (db : Redis S) (key member : Bytes) (now : ℕ) : Except Error (Option ℤ) := do
  match ← db.validMeta .zset key now with
  | none => return none
  | some m =>
    match db.zsetsDataCF.get ⟨key, m.version, member⟩ with
    | none => return none
    | some score => return rankIn (revScoreRows db key m.version) score member

def zlexcount (db : Redis S) (key min max : Bytes) (now : ℕ) : Except Error ℤ := do
  match ← db.validMeta .zset key now with
  | none => return 0
  | some m =>
    let min ← parseLexRange min
    let max ← parseLexRange max
    return asI32 (lexRange (scoreRows db key m.version) min max).length

/-- A reply that lists members, each followed by its score when that was asked for. -/
def listing (withScores : Bool) (rows : List (ScoreMember S)) : List Bytes :=
  rows.flatMap fun sm ↦ if withScores then [sm.member, Score.format sm.score] else [sm.member]

/-- `LIMIT`: skip `offset` members and keep `count`. -/
def limited (offset count : Option ℤ) (rows : List (ScoreMember S)) : List (ScoreMember S) :=
  (rows.drop (offset.getD 0).toNat).take (count.getD (2 ^ 63 - 1)).toNat

def zrange (db : Redis S) (key : Bytes) (start stop : ℤ) (withScores : Bool) (now : ℕ) :
    Except Error (List Bytes) := do
  match ← db.validMeta .zset key now with
  | none => return []
  | some m =>
    return listing withScores (rankRange (scoreRows db key m.version) m start stop)

def zrevrange (db : Redis S) (key : Bytes) (start stop : ℤ) (withScores : Bool) (now : ℕ) :
    Except Error (List Bytes) := do
  match ← db.validMeta .zset key now with
  | none => return []
  | some m =>
    return listing withScores (rankRange (revScoreRows db key m.version) m start stop)

def zrangebylex (db : Redis S) (key min max : Bytes) (offset count : Option ℤ) (now : ℕ) :
    Except Error (List Bytes) := do
  match ← db.validMeta .zset key now with
  | none => return []
  | some m =>
    let min ← parseLexRange min
    let max ← parseLexRange max
    return listing false (limited offset count (lexRange (scoreRows db key m.version) min max))

def zrangebyscore (db : Redis S) (key : Bytes) (minScore maxScore : S) (withScores : Bool)
    (offset count : Option ℤ) (now : ℕ) : Except Error (List Bytes) := do
  match ← db.validMeta .zset key now with
  | none => return []
  | some m =>
    return listing withScores
      (limited offset count (scoreRange (scoreRows db key m.version) minScore maxScore))

def zrevrangebyscore (db : Redis S) (key : Bytes) (maxScore minScore : S) (withScores : Bool)
    (offset count : Option ℤ) (now : ℕ) : Except Error (List Bytes) := do
  match ← db.validMeta .zset key now with
  | none => return []
  | some m =>
    let rows := ((revScoreRows db key m.version).takeWhile fun sm ↦ minScore ≤ sm.score).filter
      fun sm ↦ sm.score ≤ maxScore
    return listing withScores (limited offset count rows)

/-! ### Scanning -/

/-- The characters of a well-formed UTF-8 string, each as its bytes. -/
def utf8Chars : ℕ → Bytes → List Bytes
  | 0, _ => []
  | _, [] => []
  | fuel + 1, b :: bs =>
    let k := (utf8Step b bs).2
    (b :: bs.take k) :: utf8Chars fuel (bs.drop k)

/-- The attempts of `glob_match` after a star, one for every byte offset in the text. A string
cannot be sliced inside a character, so the attempt after a character of several bytes panics. -/
def matchAnywhere (attempt : List Bytes → Except Error Bool) : List Bytes → Except Error Bool
  | [] => attempt []
  | t :: text => do
    if ← attempt (t :: text) then return true
    if t.length = 1 then matchAnywhere attempt text else throw .panicked

/-- The `glob_match` of `ZSCAN`, which knows `*` and `?` only, on characters. -/
def globMatch : List Bytes → List Bytes → Except Error Bool
  | [], text => .ok text.isEmpty
  | [0x2A] :: pattern, text =>
    if pattern.isEmpty then .ok true else matchAnywhere (globMatch pattern) text
  | _ :: _, [] => .ok false
  | p :: pattern, t :: text => if p == [0x3F] || t == p then globMatch pattern text else .ok false

/-- The test that `zscan` makes of a member, both as text. -/
def matchesText (pattern : Option Bytes) (member : Bytes) : Except Error Bool :=
  match pattern with
  | none => .ok true
  | some pattern =>
    globMatch (utf8Chars pattern.length pattern)
      (utf8Chars (fromUtf8Lossy member).length (fromUtf8Lossy member))

/-- The loop of `zscan` over the rows from the cursor on. It stops after the match that fills the
page, so a page of size zero holds one match. -/
def fillPage (pattern : Option Bytes) : ℕ → List (ScoreMember S × ℕ) →
    Except Error (List (ScoreMember S × ℕ))
  | _, [] => .ok []
  | size, row :: rows => do
    if ← matchesText pattern row.1.member then
      if size ≤ 1 then return [row]
      return row :: (← fillPage pattern (size - 1) rows)
    fillPage pattern size rows

/-- `zscan`: the next cursor, and the members of this page as text. -/
def zscan (db : Redis S) (key : Bytes) (cursor : ℕ) (pattern : Option Bytes) (count : Option ℕ)
    (now : ℕ) : Except Error (ℕ × List (Bytes × Bytes)) := do
  match ← db.validMeta .zset key now with
  | none => return (0, [])
  | some m =>
    let size := max (count.getD 10) 1
    let page ← fillPage pattern size ((scoreRows db key m.version).zipIdx.drop cursor)
    let next := if page.length < size then 0 else (page.getLast?.map fun p ↦ p.2 + 1).getD 0
    return (next, page.map fun p ↦ (fromUtf8Lossy p.1.member, Score.format p.1.score))

/-! ### Stores -/

/-- The aggregate functions. -/
inductive Aggregate
  | sum | min | max
  deriving DecidableEq, Repr

/-- An ASCII letter as a capital. -/
def asciiUpper (b : UInt8) : UInt8 := if 0x61 ≤ b && b ≤ 0x7A then b - 32 else b

/-- `str::to_uppercase`, as far as the result is ASCII: besides the letters, the long s (U+017F) and
the dotless i (U+0131) have ASCII capitals. -/
def toUppercase : Bytes → Bytes
  | [] => []
  | 0xC5 :: 0xBF :: rest => 0x53 :: toUppercase rest
  | 0xC4 :: 0xB1 :: rest => 0x49 :: toUppercase rest
  | b :: rest => asciiUpper b :: toUppercase rest

/-- The aggregate named by an argument, in any case; `none` for another word. -/
def parseAggregate (name : Bytes) : Option Aggregate :=
  let upper := toUppercase name
  if upper = [0x53, 0x55, 0x4D] then some .sum
  else if upper = [0x4D, 0x49, 0x4E] then some .min
  else if upper = [0x4D, 0x41, 0x58] then some .max
  else none

/-- `aggregate_scores`. An infinite minimum or maximum becomes zero. -/
def aggregateScores (scores : List (Option S)) (aggregate : Bytes) : Except Error S :=
  let present := scores.filterMap id
  match parseAggregate aggregate with
  | some .sum => .ok (present.foldl Score.add Score.zero)
  | some .min =>
    let least := present.foldl Min.min (Score.infinity : S)
    .ok (if Score.isInfinite least then Score.zero else least)
  | some .max =>
    let greatest := present.foldl Max.max (Score.negInfinity : S)
    .ok (if Score.isInfinite greatest then Score.zero else greatest)
  | none => .error (.redisErr "ERR syntax error")

/-- The weighted members of one source, or `none` when it is missing or stale. -/
def sourceMembers (db : Redis S) (key : Bytes) (weight : S) (now : ℕ) :
    Except Error (Option (List (ScoreMember S))) := do
  match ← db.validMeta .zset key now with
  | none => return none
  | some m =>
    return some ((scoreRows db key m.version).map fun sm ↦ ⟨Score.mul sm.score weight, sm.member⟩)

/-- The sources read in turn: `none` as soon as one is missing in an intersection; in a union a
missing source has no members. -/
def collectSources (db : Redis S) (isInter : Bool) (now : ℕ) :
    List (Bytes × S) → Except Error (Option (List (List (ScoreMember S))))
  | [] => return some []
  | (key, weight) :: sources => do
    match ← sourceMembers db key weight now with
    | none =>
      if isInter then return none
      else return (← collectSources db isInter now sources).map ([] :: ·)
    | some members => return (← collectSources db isInter now sources).map (members :: ·)

/-- The scores of a member in each of the sources; the last row of a source counts. -/
def scoresOf (sources : List (List (ScoreMember S))) (member : Bytes) : List (Option S) :=
  sources.map fun rows ↦ (rows.findRev? fun sm ↦ sm.member = member).map ScoreMember.score

/-- The members of the result with their aggregated scores. -/
def storeResult (sources : List (List (ScoreMember S))) (aggregate : Bytes) (isInter : Bool) :
    Except Error (List (ScoreMember S)) :=
  let members := firstBy id (sources.flatMap fun rows ↦ rows.map ScoreMember.member)
  let kept := members.filter fun x ↦
    if isInter then (scoresOf sources x).all Option.isSome
    else (scoresOf sources x).any Option.isSome
  kept.mapM fun x ↦ do return ⟨← aggregateScores (scoresOf sources x) aggregate, x⟩

variable {result : List (ScoreMember S)}

omit [Score S] in
theorem map_member_of_mapM {f : Bytes → Except Error S} {members : List Bytes}
    (h : (members.mapM fun x ↦ do return (⟨← f x, x⟩ : ScoreMember S)) = .ok result) :
    result.map ScoreMember.member = members := by
  induction members generalizing result with
  | nil =>
    obtain rfl := Except.ok.inj h
    rfl
  | cons x members ih =>
    rw [List.mapM_cons] at h
    rcases hx : f x with e | s
    · rw [hx] at h
      cases h
    rcases hrest : (members.mapM fun x ↦ do return (⟨← f x, x⟩ : ScoreMember S)) with e | rest
    · rw [hx, hrest] at h
      cases h
    · rw [hx, hrest] at h
      obtain rfl := Except.ok.inj h
      rw [List.map_cons, ih hrest]

variable {aggregate : Bytes} {isInter : Bool}

theorem nodup_of_storeResult {sources : List (List (ScoreMember S))}
    (h : storeResult sources aggregate isInter = .ok result) :
    (result.map ScoreMember.member).Nodup := by
  rw [map_member_of_mapM h]
  have hnodup :
      ((firstBy id (sources.flatMap fun rows ↦ rows.map ScoreMember.member)).map id).Nodup :=
    nodup_map_firstBy
  rw [List.map_id] at hnodup
  exact hnodup.filter _

/-- The deletes of the members of a destination. Its meta value is parsed in the base layout
whatever its type is. -/
def destinationRows (db : Redis S) (destination : Bytes) (value : MetaValue) (now : ℕ) : Batch S :=
  match ParsedBaseMetaValue.new value.encode with
  | none => []
  | some m =>
    if m.isValid now then
      (scoreRows db destination m.version).flatMap (deleteMember destination m.version)
    else []

/-- The deletes that clear a destination. -/
def clearDestination (db : Redis S) (destination : Bytes) (now : ℕ) : Batch S :=
  match db.metaCF.get destination with
  | none => []
  | some value => destinationRows db destination value now ++ [.metaCF destination none]

section Clear

variable {db : Redis S} {destination : Bytes} {now : ℕ}

theorem meets_clearDestination : Meets [destination] M R (clearDestination db destination now) := by
  rw [clearDestination]
  rcases db.metaCF.get destination with _ | value
  · exact meets_nil
  refine Meets.append ?_ (meets_deleteMeta destination)
  rw [destinationRows]
  rcases ParsedBaseMetaValue.new value.encode with _ | m
  · exact meets_nil
  · dsimp only
    split_ifs
    · exact meets_flatMap fun sm _ ↦ meets_deleteMember m.version sm
    · exact meets_nil

theorem get_metaCF_clearDestination :
    (db.write (clearDestination db destination now)).metaCF.get destination = none := by
  rw [clearDestination]
  rcases hget : db.metaCF.get destination with _ | value
  · exact hget
  · exact Redis.get_metaCF_write_append ..

end Clear

/-- `zset_store_operation`. A missing source of an intersection ends it without touching the
destination. -/
def zsetStoreOperation (destination : Bytes) (keys : List Bytes) (weights : List S)
    (aggregate : Bytes) (isInter : Bool) (now : ℕ) : Op S ℤ := do
  let db ← get
  if keys.isEmpty then return 0
  else if !weights.isEmpty ∧ weights.length ≠ keys.length then throw (.redisErr "ERR syntax error")
  else
    let weights := if weights.isEmpty then keys.map fun _ ↦ Score.one else weights
    match ← collectSources db isInter now (keys.zip weights) with
    | none => return 0
    | some sources =>
      let result ← storeResult sources aggregate isInter
      let clear := clearDestination db destination now
      if result.isEmpty then
        commit clear
        return 0
      else
        commit (clear ++ createZset destination result now)
        return asI32 result.length

/-- The members a store writes, if it gets as far as that: `none` when it ends before, without an
error. -/
def resultOf (db : Redis S) (keys : List Bytes) (weights : List S) (aggregate : Bytes)
    (isInter : Bool) (now : ℕ) : Except Error (Option (List (ScoreMember S))) :=
  if keys.isEmpty then return none
  else if !weights.isEmpty ∧ weights.length ≠ keys.length then
    throw (.redisErr "ERR syntax error")
  else do
    let weights := if weights.isEmpty then keys.map fun _ ↦ Score.one else weights
    match ← collectSources db isInter now (keys.zip weights) with
    | none => return none
    | some sources => return some (← storeResult sources aggregate isInter)

theorem nodup_of_resultOf {keys : List Bytes} {weights : List S} {now : ℕ}
    (h : resultOf db keys weights aggregate isInter now = .ok (some result)) :
    (result.map ScoreMember.member).Nodup := by
  unfold resultOf at h
  dsimp only at h
  generalize (if weights.isEmpty then keys.map fun _ ↦ Score.one else weights) = weights' at h
  split_ifs at h with h₁ h₂
  · cases h
  rcases hs : collectSources db isInter now (keys.zip weights') with e | (_ | sources)
  · rw [hs] at h
    cases h
  · rw [hs] at h
    cases h
  rw [hs, Program.except_ok_bind] at h
  dsimp only at h
  rcases hr : storeResult sources aggregate isInter with e | result'
  · rw [hr] at h
    cases h
  · rw [hr] at h
    obtain rfl := Option.some.inj (Except.ok.inj h)
    exact nodup_of_storeResult hr

open Program in
/-- **Execution of a store.** -/
theorem exec_zsetStoreOperation (destination : Bytes) (keys : List Bytes) (weights : List S)
    (aggregate : Bytes) (isInter : Bool) (now : ℕ) (db : Redis S) :
    (zsetStoreOperation destination keys weights aggregate isInter now).exec db =
      match resultOf db keys weights aggregate isInter now with
      | .error e => (.error e, db)
      | .ok none => (.ok 0, db)
      | .ok (some result) =>
        if result.isEmpty then (.ok 0, db.write (clearDestination db destination now))
        else (.ok (asI32 result.length), db.write (clearDestination db destination now
          ++ createZset destination result now)) := by
  rw [zsetStoreOperation, exec_get_bind, exec_ite, exec_ite, resultOf]
  split_ifs with h₁ h₂ h₃
  · rfl
  · rfl
  all_goals
    dsimp only
    rcases collectSources db isInter now _ with e | (_ | sources)
    · rfl
    · rfl
    · rw [exec_lift_ok_bind, except_ok_bind]
      dsimp only
      rcases storeResult sources aggregate isInter with e | result
      · rfl
      · rw [exec_lift_ok_bind, exec_ite]
        rfl

def zinterstore (destination : Bytes) (keys : List Bytes) (weights : List S) (aggregate : Bytes)
    (now : ℕ) : Op S ℤ :=
  zsetStoreOperation destination keys weights aggregate true now

def zunionstore (destination : Bytes) (keys : List Bytes) (weights : List S) (aggregate : Bytes)
    (now : ℕ) : Op S ℤ :=
  zsetStoreOperation destination keys weights aggregate false now

/-! ### The commands of score ranges -/

/-- A bound of `ZRANGEBYSCORE` and `ZREMRANGEBYSCORE`. -/
def scoreArg (arg : Bytes) : Except Error S :=
  match Score.parse (fromUtf8Lossy arg) with
  | some s => .ok s
  | none => .error (.redisErr "ERR min or max is not a float")

/-- A bound of `ZCOUNT`, which answers the message of the parser. -/
def countArg (arg : Bytes) : Except Error S :=
  match Score.parse (fromUtf8Lossy arg) with
  | some s => .ok s
  | none => .error (.redisErr
    (if arg = [] then "cannot parse float from empty string" else "invalid float literal"))

/-- The options after the bounds of `ZRANGEBYSCORE`: `WITHSCORES`, and `LIMIT` with two numbers. -/
def rangeOptions (withScores : Bool) (offset count : Option ℤ) :
    List Bytes → Except Error (Bool × Option ℤ × Option ℤ)
  | [] => .ok (withScores, offset, count)
  | arg :: args =>
    if arg.map asciiUpper = [0x57, 0x49, 0x54, 0x48, 0x53, 0x43, 0x4F, 0x52, 0x45, 0x53] then
      rangeOptions true offset count args
    else if arg.map asciiUpper = [0x4C, 0x49, 0x4D, 0x49, 0x54] then
      match args with
      | first :: second :: args =>
        match parseI64 (fromUtf8Lossy first), parseI64 (fromUtf8Lossy second) with
        | some o, some c => rangeOptions withScores (some o) (some c) args
        | _, _ => .error (.redisErr "ERR value is not an integer or out of range")
      | _ => .error (.redisErr "ERR syntax error")
    else .error (.redisErr "ERR syntax error")

/-- `ZRANGEBYSCORE`. -/
def zrangebyscoreCmd (db : Redis S) (key min max : Bytes) (options : List Bytes) (now : ℕ) :
    Except Error (List Bytes) := do
  let minScore ← scoreArg min
  let maxScore ← scoreArg max
  let (withScores, offset, count) ← rangeOptions false none none options
  zrangebyscore db key minScore maxScore withScores offset count now

/-- `ZCOUNT`. -/
def zcountCmd (db : Redis S) (key min max : Bytes) (now : ℕ) : Except Error ℤ := do
  let minScore ← countArg min
  let maxScore ← countArg max
  zcount db key minScore maxScore now

/-- `ZREMRANGEBYSCORE`. -/
def zremrangebyscoreCmd (key min max : Bytes) (now : ℕ) : Op S ℤ := do
  let minScore ← (scoreArg min : Except Error S)
  let maxScore ← (scoreArg max : Except Error S)
  zremrangebyscore key minScore maxScore now

end Kiwi.Zsets
