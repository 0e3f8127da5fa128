import Kiwi.Correctness.ZsetRemoval
import Kiwi.Lib.Positions

/-!
# Ranges of a zset

The members of a zset have one order, by score and then by member (`Enumerates`), and a range is a
part of that enumeration: the members at a range of ranks, with a score between two scores, or, when
all scores are the same, between two strings. A read lists the part, and the `zremrangeby…`
operation of the same range deletes it (`exec_zremrangeby_of_select`, for all three at once).

* Ranks. A stop rank before the first member is moved to the first member, where `lrange` leaves it
  before the list: `zrange 0 (-100)` lists one member. `rankRanges_iff` says that nothing else goes
  wrong, as long as the number of removed members fits the answer.
* Scores. The bounds belong to the range (`score_ranges`). The commands refuse a bound with the
  parenthesis that leaves it out (`score_commands_iff`).
* Strings. `parse_lex_range` does not take a bracket alone for the empty string, but refuses it
  (`lexRanges_iff`), and an infinite bound on the wrong side leaves the range open on that side.
-/

namespace Kiwi.ZsetIndex

open Zsets Positions

variable {S : Type} [Score S] {db : Redis S} {key : Bytes} {version now : ℕ} {m : BaseMetaValue}
  {t : IndexedMap Bytes S} {xs : List (ScoreMember S)}

/-! ### The members in order -/

/-- By score, and by member where scores are equal. -/
def Precedes (a b : ScoreMember S) : Prop := toLex (a.score, a.member) < toLex (b.score, b.member)

theorem nodup_of_precedes (h : xs.Pairwise Precedes) : xs.Nodup :=
  h.imp fun hlt e ↦ absurd (e ▸ hlt) (lt_irrefl _)

/-- There is one list of given members in order. -/
theorem eq_of_precedes {ys : List (ScoreMember S)} (hx : xs.Pairwise Precedes)
    (hy : ys.Pairwise Precedes) (hmem : ∀ sm, sm ∈ xs ↔ sm ∈ ys) : xs = ys := by
  have hperm := (List.perm_ext_iff_of_nodup (nodup_of_precedes hx) (nodup_of_precedes hy)).2 hmem
  exact hperm.eq_of_pairwise (fun a b _ _ hab hba ↦ absurd (hab.trans hba) (lt_irrefl _)) hx hy

/-- The members of a zset in order. -/
structure Enumerates (db : Redis S) (key : Bytes) (now : ℕ) (xs : List (ScoreMember S)) : Prop where
  /-- The order is that of scores and members. -/
  sorted : xs.Pairwise Precedes
  /-- The members are those of the zset, with their scores. -/
  mem_iff : ∀ sm, sm ∈ xs ↔ (zsetOf db key now).get sm.member = some sm.score

section

variable (h : Enumerates db key now xs)

include h

theorem Enumerates.nodup : xs.Nodup := nodup_of_precedes h.sorted

theorem Enumerates.nodup_members : (xs.map ScoreMember.member).Nodup := by
  refine h.nodup.map_on fun a ha b hb he ↦ ?_
  have hscore := (h.mem_iff a).1 ha
  rw [he, (h.mem_iff b).1 hb] at hscore
  cases a
  cases b
  cases he
  cases hscore
  rfl

theorem Enumerates.unique {ys : List (ScoreMember S)}
    (h' : Enumerates db key now ys) : xs = ys :=
  eq_of_precedes h.sorted h'.sorted fun sm ↦ (h.mem_iff sm).trans (h'.mem_iff sm).symm

end

theorem pairwise_scoreRows (db : Redis S) (key : Bytes) (version : ℕ) :
    (scoreRows db key version).Pairwise Precedes := by
  rw [scoreRows, List.pairwise_map]
  exact DataKey.sorted_rowsAt db.zsetsScoreCF key version

theorem enumerates_scoreRows (hm : db.baseMeta .zset key now = .ok (some m))
    (ht : Stores db key m.version t) : Enumerates db key now (scoreRows db key m.version) := by
  refine ⟨pairwise_scoreRows db key m.version, fun sm ↦ ?_⟩
  rw [ht.mem_scoreRows_iff, zsetOf_of_stores hm ht]

theorem enumerates_of_scoreRows (hc : Coherent db) (hm : db.baseMeta .zset key now = .ok (some m))
    (hrows : scoreRows db key m.version = xs) : Enumerates db key now xs := by
  obtain ⟨-, t, ht, -⟩ := hc.found_zset hm
  exact hrows ▸ enumerates_scoreRows hm ht

theorem length_scoreRows (ht : Stores db key version t) :
    (scoreRows db key version).length = t.size := by
  rw [scoreRows, DataKey.rowsAt_eq_rows_slice, ht.slice_scores, List.length_map]
  exact t.size_index_eq

theorem Enumerates.eq_nil (h : Enumerates db key now xs) (hm : db.baseMeta .zset key now = .ok none) :
    xs = [] := by
  refine List.eq_nil_iff_forall_not_mem.2 fun sm hsm ↦ ?_
  have hget := (h.mem_iff sm).1 hsm
  rw [zsetOf, hm] at hget
  cases hget

theorem Enumerates.eq_scoreRows (h : Enumerates db key now xs) (hc : Coherent db)
    (hm : db.baseMeta .zset key now = .ok (some m)) :
    scoreRows db key m.version = xs ∧ m.count = xs.length ∧ xs ≠ [] := by
  obtain ⟨-, t, ht, hsize⟩ := hc.found_zset hm
  have hrows : scoreRows db key m.version = xs := (enumerates_scoreRows hm ht).unique h
  have hvalid := Redis.isValid_of_liveMeta (Redis.baseMeta_eq_ok_some_iff.1 hm).1
  simp only [BaseMetaValue.isValid, Bool.and_eq_true, bne_iff_ne] at hvalid
  have hlength : m.count = xs.length := by rw [← hrows, length_scoreRows ht, hsize]
  refine ⟨hrows, hlength, fun hnil ↦ hvalid.2 ?_⟩
  rw [hlength, hnil, List.length_nil]

/-! ### Removing a range -/

/-- An operation removes the selected members and leaves the others, and the state stays coherent.
-/
structure Leaves (op : Op S ℤ) (db : Redis S) (key : Bytes) (selected : List (ScoreMember S))
    (now : ℕ) : Prop where
  /-- The other members remain with their scores. -/
  remaining : ∀ x, (zsetOf (op.exec db).2 key now).get x =
    if x ∈ selected.map ScoreMember.member then none else (zsetOf db key now).get x
  coherent : Coherent (op.exec db).2

theorem leaves_of_unchanged {op : Op S ℤ} (h : Coherent db) (hexec : (op.exec db).2 = db) :
    Leaves op db key [] now := by
  constructor
  · intro x
    rw [hexec, List.map_nil, if_neg List.not_mem_nil]
  · rw [hexec]
    exact h

/-- **Removing a range.** The `zremrangeby…` operations delete what their range selects. -/
theorem exec_zremrangeby_of_select (h : Coherent db) (hm : db.baseMeta .zset key now = .ok (some m))
    {range : Range S} {selected : List (ScoreMember S)}
    (hselect : range.select (scoreRows db key m.version) m = .ok selected) :
    ((zremrangeby key range now).exec db).1 = .ok (asI32 selected.length) ∧
      Leaves (zremrangeby key range now) db key selected now := by
  obtain ⟨hbound, t, ht, hsize⟩ := h.found_zset hm
  have hsub := Range.select_sublist hselect
  have hexec := exec_zremrangeby key range now db
  rw [hm] at hexec
  dsimp only at hexec
  rw [hselect] at hexec
  dsimp only at hexec
  rw [exec_removeSelected] at hexec
  split_ifs at hexec with hempty
  · obtain rfl := List.isEmpty_iff.1 hempty
    have hzero : asI32 (0 : ℕ) = 0 := asI32_of_lt (by norm_num)
    rw [List.length_nil, hzero, hexec]
    exact ⟨rfl, leaves_of_unchanged h (by rw [hexec])⟩
  · replace hexec : (zremrangeby key range now).exec db =
        (.ok (asI32 selected.length), leave db key m selected (m.count - selected.length)) := hexec
    have hrows : ∀ sm ∈ selected, t.values.get sm.member = some sm.score := fun sm hsm ↦
      ht.mem_scoreRows_iff.1 (hsub.subset hsm)
    have hleft := ht.size_eraseAll_of_sublist hsub
    have hcount : m.count - selected.length =
        (t.eraseAll (selected.map ScoreMember.member)).size := by omega
    rw [hexec]
    refine ⟨rfl, ⟨fun x ↦ ?_, ?_⟩⟩
    · rw [hexec, zsetOf_leave hm ht hrows hcount, IndexedMap.values_eraseAll,
        SortedMap.get_eraseAll, zsetOf_of_stores hm ht]
      split_ifs <;> rfl
    · rw [hexec]
      exact coherent_leave h ht hrows (by omega) hcount

theorem exec_zremrangeby_of_missing (h : Coherent db) (hm : db.baseMeta .zset key now = .ok none)
    (range : Range S) :
    ((zremrangeby key range now).exec db).1 = .ok 0 ∧
      Leaves (zremrangeby key range now) db key [] now := by
  have hexec := exec_zremrangeby key range now db
  rw [hm] at hexec
  dsimp only at hexec
  rw [hexec]
  exact ⟨rfl, leaves_of_unchanged h (by rw [hexec])⟩

/-! ### Ranks -/

variable {rows : List (ScoreMember S)}

omit [Score S] in
/-- A range of ranks, when no more rows are visited than the count says. A stop rank before the
first row is moved to the first row. -/
theorem rankRange_eq_between (hle : rows.length ≤ m.count)
    (hlt : m.count < 2 ^ 63) (start stop : ℤ) :
    rankRange rows m start stop =
      between (fromEnd m.count start) (max (fromEnd m.count stop) 0) rows := by
  unfold rankRange
  rw [asI64_of_lt hlt]
  dsimp only
  have hstart : (if start < 0 then max ((m.count : ℤ) + start) 0 else start) =
      max (fromEnd m.count start) 0 := by
    unfold fromEnd
    split_ifs <;> omega
  have hstop : (if stop < 0 then max ((m.count : ℤ) + stop) 0 else stop) =
      max (fromEnd m.count stop) 0 := by
    unfold fromEnd
    split_ifs <;> omega
  rw [hstart, hstop]
  generalize fromEnd m.count start = a
  generalize fromEnd m.count stop = b
  split_ifs with hzero hempty
  · obtain rfl := List.length_eq_zero_iff.1 (show rows.length = 0 by omega)
    rfl
  · exact (between_eq_nil (by omega)).symm
  · have hlo : (max a 0).toNat = a.toNat := by omega
    rw [between_eq_drop_take, hlo]
    congr 1
    exact List.take_eq_take_iff.2 (by omega)

/-- `zrange` lists a range of ranks, and `zremrangebyrank` removes it. -/
structure RankRanges (db : Redis S) (key : Bytes) (xs : List (ScoreMember S)) (start stop : ℤ)
    (now : ℕ) : Prop where
  /-- `zrange` lists the range, with or without scores. -/
  zrange : ∀ withScores, Zsets.zrange db key start stop withScores now =
    .ok (listing withScores (slice start stop xs))
  /-- `zremrangebyrank` answers the number of members in the range. -/
  answer : ((zremrangebyrank key start stop now).exec db).1 = .ok ((slice start stop xs).length : ℤ)
  /-- `zremrangebyrank` removes the range. -/
  removes : Leaves (zremrangebyrank key start stop now) db key (slice start stop xs) now

section

omit [Score S]

variable {start stop : ℤ}

/-- The range that is computed is the one that the ranks stand for, unless the stop rank is before
the first member and the start rank is not after it. -/
theorem between_max_eq_slice (hxs : xs ≠ [])
    (hgood : ¬(stop < -xs.length ∧ (start = 0 ∨ start ≤ -xs.length))) :
    between (fromEnd xs.length start) (max (fromEnd xs.length stop) 0) xs = slice start stop xs := by
  have hpos := List.length_pos_iff.2 hxs
  rw [slice_eq_between]
  by_cases hstop : stop < -xs.length
  · -- the range is empty either way
    rw [between_eq_nil, between_eq_nil]
    · unfold fromEnd
      split_ifs <;> omega
    · unfold fromEnd
      split_ifs <;> omega
  · have hnonneg : max (fromEnd xs.length stop) 0 = fromEnd xs.length stop := by
      unfold fromEnd
      split_ifs <;> omega
    rw [hnonneg]

theorem not_before_of_length_eq (hxs : xs ≠ [])
    (hlength : (between (fromEnd xs.length start) (max (fromEnd xs.length stop) 0) xs).length =
      (slice start stop xs).length) :
    ¬(stop < -xs.length ∧ (start = 0 ∨ start ≤ -xs.length)) := by
  have hpos := List.length_pos_iff.2 hxs
  rintro ⟨hstop, hstart⟩
  rw [slice_eq_between, length_between, length_between] at hlength
  unfold fromEnd at hlength
  split_ifs at hlength <;> omega

end

/-- What `zrange` lists, by places of the enumeration. -/
theorem zrange_eq_between (h : Coherent db) (hm : db.baseMeta .zset key now = .ok (some m))
    (hxs : Enumerates db key now xs) (hlt : xs.length < 2 ^ 63) (start stop : ℤ)
    (withScores : Bool) :
    zrange db key start stop withScores now = .ok (listing withScores
      (between (fromEnd xs.length start) (max (fromEnd xs.length stop) 0) xs)) := by
  obtain ⟨hrows, hcount, -⟩ := hxs.eq_scoreRows h hm
  rw [zrange, Redis.validMeta_eq_baseMeta, hm]
  show Except.ok (listing withScores (rankRange (scoreRows db key m.version) m start stop)) = _
  rw [hrows, rankRange_eq_between (by omega) (by omega), hcount]

theorem listing_false : listing false rows = rows.map ScoreMember.member := by
  unfold listing
  induction rows with
  | nil => rfl
  | cons sm rows ih => rw [List.flatMap_cons, ih]; rfl

theorem rankRanges_of_missing (h : Coherent db) (hm : db.baseMeta .zset key now = .ok none)
    (start stop : ℤ) : RankRanges db key [] start stop now := by
  obtain ⟨hanswer, hleaves⟩ := exec_zremrangeby_of_missing h hm (.rank start stop)
  have hslice : slice start stop ([] : List (ScoreMember S)) = [] := rfl
  refine ⟨?_, ?_, ?_⟩
  · intro withScores
    rw [zrange, Redis.validMeta_eq_baseMeta, hm, hslice]
    rfl
  · rw [hslice]
    exact hanswer
  · rw [hslice]
    exact hleaves

/-- **Ranks.** For a zset in a coherent state, `zrange` lists the range of a pair of ranks and
`zremrangebyrank` removes it exactly when the stop rank is not before the first member while the
start rank is at it or before, and fewer than `2 ^ 31` members are in the range. Ranks are `i64`,
and so is the number of members. -/
theorem rankRanges_iff (db : Redis S) (h : Coherent db) (key : Bytes) (now : ℕ)
    (found : Option BaseMetaValue) (hm : db.baseMeta .zset key now = .ok found)
    (xs : List (ScoreMember S)) (hxs : Enumerates db key now xs) (hlt : xs.length < 2 ^ 63)
    (start stop : ℤ) :
    RankRanges db key xs start stop now ↔
      (xs = [] ∨ ¬(stop < -xs.length ∧ (start = 0 ∨ start ≤ -xs.length))) ∧
        (slice start stop xs).length < 2 ^ 31 := by
  rcases found with _ | m
  · obtain rfl := hxs.eq_nil hm
    exact iff_of_true (rankRanges_of_missing h hm start stop) ⟨Or.inl rfl, Nat.two_pow_pos 31⟩
  · obtain ⟨hrows, hcount, hne⟩ := hxs.eq_scoreRows h hm
    have hselected : rankRange (scoreRows db key m.version) m start stop =
        between (fromEnd xs.length start) (max (fromEnd xs.length stop) 0) xs := by
      rw [hrows, rankRange_eq_between (by omega) (by omega), hcount]
    have hrange := zrange_eq_between h hm hxs hlt start stop
    obtain ⟨hanswer, hleaves⟩ := exec_zremrangeby_of_select h hm
      (show (Range.rank start stop).select (scoreRows db key m.version) m = .ok _ from rfl)
    rw [hselected] at hanswer hleaves
    rw [or_iff_right hne]
    constructor
    · intro hr
      have hlist := Except.ok.inj ((hrange false).symm.trans (hr.zrange false))
      have hlength := congrArg List.length hlist
      rw [listing_false, listing_false, List.length_map, List.length_map] at hlength
      have hgood := not_before_of_length_eq hne hlength
      have hanswer' := Except.ok.inj (hanswer.symm.trans hr.answer)
      rw [hlength] at hanswer'
      exact ⟨hgood, (asI32_eq_self_iff _).1 hanswer'⟩
    · rintro ⟨hgood, hsmall⟩
      have he := between_max_eq_slice hne hgood
      rw [he] at hanswer hleaves
      rw [asI32_of_lt hsmall] at hanswer
      refine ⟨fun withScores ↦ ?_, hanswer, hleaves⟩
      rw [hrange withScores, he]

theorem baseMeta_twoMembers : twoMembers.baseMeta .zset [1] 2 =
    .ok (some ((BaseMetaValue.new .zset 2 1).updateVersion 1)) :=
  baseMeta_createZset _ [1] (List.cons_ne_nil _ _) 1 2

theorem enumerates_twoMembers : Enumerates twoMembers [1] 2 [⟨3, [97]⟩, ⟨4, [98]⟩] :=
  enumerates_of_scoreRows coherent_twoMembers baseMeta_twoMembers (by decide +kernel)

/-- The last of two members. -/
theorem rankRanges_last :
    Enumerates twoMembers [1] 2 [⟨3, [97]⟩, ⟨4, [98]⟩] ∧
      RankRanges twoMembers [1] [⟨3, [97]⟩, ⟨4, [98]⟩] (-1) 7 2 := by
  refine ⟨enumerates_twoMembers, (rankRanges_iff twoMembers coherent_twoMembers [1] 2 _
    baseMeta_twoMembers _ enumerates_twoMembers (by decide) (-1) 7).2 ⟨Or.inr ?_, ?_⟩⟩
  · decide
  · decide

/-- **A stop rank before the first member.** The range of ranks from the first member to before it
is empty, but `zrange` lists the first member and `zremrangebyrank` removes it. -/
theorem zrange_before_first :
    Coherent twoMembers ∧ Enumerates twoMembers [1] 2 [⟨3, [97]⟩, ⟨4, [98]⟩] ∧
      slice 0 (-100) [(⟨3, [97]⟩ : ScoreMember ℤ), ⟨4, [98]⟩] = [] ∧
      (zrange twoMembers [1] 0 (-100) false 2).toOption = some [[97]] ∧
      ((zremrangebyrank [1] 0 (-100) 2).exec twoMembers).1.toOption = some 1 :=
  ⟨coherent_twoMembers, enumerates_twoMembers, by decide, by decide +kernel, by decide +kernel⟩

/-! ### Scores -/

/-- A range of scores, either end of which may be left out. -/
structure ScoreInterval (S : Type) where
  minScore : S
  maxScore : S
  /-- The lower end is not in the range. -/
  minExclusive : Bool
  /-- The upper end is not in the range. -/
  maxExclusive : Bool

/-- The score lies in the range. -/
def ScoreInterval.contains (i : ScoreInterval S) (s : S) : Bool :=
  (if i.minExclusive then i.minScore < s else i.minScore ≤ s) &&
    (if i.maxExclusive then s < i.maxScore else s ≤ i.maxScore)

/-- The range with both of its ends. -/
def ScoreInterval.closed (minScore maxScore : S) : ScoreInterval S :=
  ⟨minScore, maxScore, false, false⟩

theorem ScoreInterval.contains_closed {minScore maxScore s : S} :
    (closed minScore maxScore).contains s = true ↔ minScore ≤ s ∧ s ≤ maxScore := by
  rw [contains, Bool.and_eq_true]
  exact and_congr decide_eq_true_iff decide_eq_true_iff

/-- The members with a score in a range. -/
def ScoreInterval.select (i : ScoreInterval S) (xs : List (ScoreMember S)) : List (ScoreMember S) :=
  xs.filter fun sm ↦ i.contains sm.score

theorem score_le_of_precedes {a b : ScoreMember S} (h : Precedes a b) : a.score ≤ b.score := by
  rcases Prod.Lex.toLex_lt_toLex.1 h with hlt | ⟨heq, -⟩
  · exact hlt.le
  · exact heq.le

/-- The score rows from the first that is not below the range to the last that is not above it are
those in the range. -/
theorem scoreRange_eq_select (h : xs.Pairwise Precedes) (minScore maxScore : S) :
    scoreRange xs minScore maxScore = (ScoreInterval.closed minScore maxScore).select xs := by
  have hskip : (xs.dropWhile fun sm ↦ sm.score < minScore) =
      xs.filter fun sm ↦ !decide (sm.score < minScore) := by
    refine SortedMap.dropWhile_eq_filter (fun a b hab hb ↦ ?_) h
    rw [decide_eq_true_eq] at hb ⊢
    exact (score_le_of_precedes hab).trans_lt hb
  have hstop : ((xs.filter fun sm ↦ !decide (sm.score < minScore)).takeWhile
      fun sm ↦ sm.score ≤ maxScore) =
        (xs.filter fun sm ↦ !decide (sm.score < minScore)).filter fun sm ↦ sm.score ≤ maxScore := by
    refine SortedMap.takeWhile_eq_filter (fun a b hab hb ↦ ?_) (h.filter _)
    rw [decide_eq_true_eq] at hb ⊢
    exact (score_le_of_precedes hab).trans hb
  rw [scoreRange, hskip, hstop, List.filter_filter]
  refine List.filter_congr fun sm _ ↦ ?_
  have hmin : (!decide (sm.score < minScore)) = decide (minScore ≤ sm.score) := by
    rw [← decide_not]
    exact decide_eq_decide.2 not_lt
  rw [hmin, Bool.and_comm]
  rfl

/-- `zrangebyscore` lists a range of scores, `zcount` counts it, and `zremrangebyscore` removes it.
The counts are `i32`. -/
structure ScoreRanges (db : Redis S) (key : Bytes) (minScore maxScore : S)
    (selected : List (ScoreMember S)) (now : ℕ) : Prop where
  /-- `zrangebyscore` lists the range, with or without scores. -/
  zrangebyscore : ∀ withScores,
    Zsets.zrangebyscore db key minScore maxScore withScores none none now =
      .ok (listing withScores selected)
  zcount : selected.length < 2 ^ 31 →
    Zsets.zcount db key minScore maxScore now = .ok (selected.length : ℤ)
  /-- `zremrangebyscore` answers the number of members in the range. -/
  answer : selected.length < 2 ^ 31 →
    ((zremrangebyscore key minScore maxScore now).exec db).1 = .ok (selected.length : ℤ)
  /-- `zremrangebyscore` removes the range. -/
  removes : Leaves (zremrangebyscore key minScore maxScore now) db key selected now

omit [Score S] in
/-- Without a limit every row is listed, as long as their number is an `i64`. -/
theorem limited_none (h : rows.length < 2 ^ 63) : limited none none rows = rows := by
  rw [limited, Option.getD_none, Option.getD_none]
  exact List.take_of_length_le (by rw [List.length_drop]; omega)

theorem length_select_le (i : ScoreInterval S) (xs : List (ScoreMember S)) :
    (i.select xs).length ≤ xs.length :=
  List.length_filter_le _ _

theorem zrangebyscore_eq (h : Coherent db) (hm : db.baseMeta .zset key now = .ok (some m))
    (hxs : Enumerates db key now xs) (hlt : xs.length < 2 ^ 63) (minScore maxScore : S)
    (withScores : Bool) :
    zrangebyscore db key minScore maxScore withScores none none now =
      .ok (listing withScores ((ScoreInterval.closed minScore maxScore).select xs)) := by
  obtain ⟨hrows, -, -⟩ := hxs.eq_scoreRows h hm
  have hle := length_select_le (.closed minScore maxScore) xs
  rw [zrangebyscore, Redis.validMeta_eq_baseMeta, hm]
  show Except.ok (listing withScores (limited none none
    (scoreRange (scoreRows db key m.version) minScore maxScore))) = _
  rw [hrows, scoreRange_eq_select hxs.sorted, limited_none (by omega)]

theorem zcount_eq (h : Coherent db) (hm : db.baseMeta .zset key now = .ok (some m))
    (hxs : Enumerates db key now xs) (minScore maxScore : S) :
    zcount db key minScore maxScore now =
      .ok (asI32 ((ScoreInterval.closed minScore maxScore).select xs).length) := by
  obtain ⟨hrows, -, -⟩ := hxs.eq_scoreRows h hm
  rw [zcount, Redis.validMeta_eq_baseMeta, hm]
  show Except.ok (asI32 (scoreRange (scoreRows db key m.version) minScore maxScore).length) = _
  rw [hrows, scoreRange_eq_select hxs.sorted]

theorem scoreRanges_of_missing (h : Coherent db) (hm : db.baseMeta .zset key now = .ok none)
    (minScore maxScore : S) : ScoreRanges db key minScore maxScore [] now := by
  obtain ⟨hanswer, hleaves⟩ := exec_zremrangeby_of_missing h hm (.score minScore maxScore)
  refine ⟨fun withScores ↦ ?_, fun _ ↦ ?_, fun _ ↦ hanswer, hleaves⟩
  · rw [zrangebyscore, Redis.validMeta_eq_baseMeta, hm]
    rfl
  · rw [zcount, Redis.validMeta_eq_baseMeta, hm]
    rfl

/-- **Scores.** For every zset in a coherent state and every pair of bounds, the range operations
are about the members with a score from the lower to the upper bound, both included. -/
theorem score_ranges (db : Redis S) (h : Coherent db) (key : Bytes) (now : ℕ)
    (found : Option BaseMetaValue) (hm : db.baseMeta .zset key now = .ok found)
    (xs : List (ScoreMember S)) (hxs : Enumerates db key now xs) (hlt : xs.length < 2 ^ 63)
    (minScore maxScore : S) :
    ScoreRanges db key minScore maxScore ((ScoreInterval.closed minScore maxScore).select xs)
      now := by
  rcases found with _ | m
  · obtain rfl := hxs.eq_nil hm
    exact scoreRanges_of_missing h hm minScore maxScore
  · obtain ⟨hrows, -, -⟩ := hxs.eq_scoreRows h hm
    have hselected : scoreRange (scoreRows db key m.version) minScore maxScore =
        (ScoreInterval.closed minScore maxScore).select xs := by
      rw [hrows]
      exact scoreRange_eq_select hxs.sorted minScore maxScore
    obtain ⟨hanswer, hleaves⟩ := exec_zremrangeby_of_select h hm
      (show (Range.score minScore maxScore).select (scoreRows db key m.version) m = .ok _ from rfl)
    rw [hselected] at hanswer hleaves
    refine ⟨zrangebyscore_eq h hm hxs hlt minScore maxScore, fun hsmall ↦ ?_, fun hsmall ↦ ?_,
      hleaves⟩
    · rw [zcount_eq h hm hxs, asI32_of_lt hsmall]
    · rw [← asI32_of_lt hsmall]
      exact hanswer

/-- A bound that is given to a command: a text for a score, after a parenthesis if the score itself
is to be left out. -/
structure ScoreBound (S : Type) where
  score : S
  text : Bytes
  exclusive : Bool

/-- The argument. -/
def ScoreBound.arg (bound : ScoreBound S) : Bytes :=
  if bound.exclusive then 0x28 :: bound.text else bound.text

/-- The range between two bounds. -/
def ScoreBound.to (min max : ScoreBound S) : ScoreInterval S :=
  ⟨min.score, max.score, min.exclusive, max.exclusive⟩

/-- `ZRANGEBYSCORE` lists a range of scores, also with the scores, `ZCOUNT` counts it, and
`ZREMRANGEBYSCORE` removes it. -/
structure ScoreCommands (db : Redis S) (key : Bytes) (min max : ScoreBound S)
    (selected : List (ScoreMember S)) (now : ℕ) : Prop where
  zrangebyscore : zrangebyscoreCmd db key min.arg max.arg [] now = .ok (listing false selected)
  withScores : zrangebyscoreCmd db key min.arg max.arg
    [[0x57, 0x49, 0x54, 0x48, 0x53, 0x43, 0x4F, 0x52, 0x45, 0x53]] now = .ok (listing true selected)
  zcount : zcountCmd db key min.arg max.arg now = .ok (selected.length : ℤ)
  answer : ((zremrangebyscoreCmd key min.arg max.arg now).exec db).1 = .ok (selected.length : ℤ)
  /-- `ZREMRANGEBYSCORE` removes the range. -/
  removes : Leaves (zremrangebyscoreCmd key min.arg max.arg now) db key selected now

section

variable {min max : ScoreBound S}

theorem zrangebyscoreCmd_eq (hmin : Score.parse (fromUtf8Lossy min.arg) = some min.score)
    (hmax : Score.parse (fromUtf8Lossy max.arg) = some max.score) (options : List Bytes) :
    zrangebyscoreCmd db key min.arg max.arg options now = (rangeOptions false none none options).bind
      fun o ↦ Zsets.zrangebyscore db key min.score max.score o.1 o.2.1 o.2.2 now := by
  rw [zrangebyscoreCmd, scoreArg, hmin, scoreArg, hmax]
  rfl

theorem zcountCmd_eq (hmin : Score.parse (fromUtf8Lossy min.arg) = some min.score)
    (hmax : Score.parse (fromUtf8Lossy max.arg) = some max.score) :
    zcountCmd db key min.arg max.arg now = Zsets.zcount db key min.score max.score now := by
  rw [zcountCmd, countArg, hmin, countArg, hmax]
  rfl

theorem exec_zremrangebyscoreCmd (hmin : Score.parse (fromUtf8Lossy min.arg) = some min.score)
    (hmax : Score.parse (fromUtf8Lossy max.arg) = some max.score) :
    (zremrangebyscoreCmd key min.arg max.arg now).exec db =
      (Zsets.zremrangebyscore key min.score max.score now).exec db := by
  rw [zremrangebyscoreCmd, scoreArg, hmin, scoreArg, hmax, Program.exec_lift_ok_bind,
    Program.exec_lift_ok_bind]

/-- A bound that does not parse is refused. -/
theorem ScoreCommands.parses {selected : List (ScoreMember S)}
    (h : ScoreCommands db key min max selected now) :
    (Score.parse (fromUtf8Lossy min.arg) : Option S).isSome ∧
      (Score.parse (fromUtf8Lossy max.arg) : Option S).isSome := by
  have hrange := h.zrangebyscore
  rw [zrangebyscoreCmd, scoreArg, scoreArg] at hrange
  rcases hmin : (Score.parse (fromUtf8Lossy min.arg) : Option S) with _ | a <;> rw [hmin] at hrange
  · cases hrange
  rcases hmax : (Score.parse (fromUtf8Lossy max.arg) : Option S) with _ | b <;> rw [hmax] at hrange
  · cases hrange
  exact ⟨rfl, rfl⟩

end

/-- **Commands with score bounds.** If no text with a parenthesis in front parses as a number, then
for every zset in a coherent state and every pair of bounds, inclusive or exclusive, the commands
are about the members between the bounds exactly when both bounds are inclusive and fewer than
`2 ^ 31` members are in the range. -/
theorem score_commands_iff
    (hparse : ∀ text, (Score.parse (fromUtf8Lossy (0x28 :: text)) : Option S) = none) (db : Redis S)
    (h : Coherent db) (key : Bytes) (now : ℕ) (found : Option BaseMetaValue)
    (hm : db.baseMeta .zset key now = .ok found) (xs : List (ScoreMember S))
    (hxs : Enumerates db key now xs) (hlt : xs.length < 2 ^ 63) (min max : ScoreBound S)
    (hmin : Score.parse (fromUtf8Lossy min.text) = some min.score)
    (hmax : Score.parse (fromUtf8Lossy max.text) = some max.score) :
    ScoreCommands db key min max ((min.to max).select xs) now ↔
      (min.exclusive = false ∧ max.exclusive = false) ∧
        ((min.to max).select xs).length < 2 ^ 31 := by
  by_cases hclosed : min.exclusive = false ∧ max.exclusive = false
  swap
  · -- the command does not parse the argument
    refine iff_of_false (fun hc ↦ hclosed ?_) fun hgood ↦ hclosed hgood.1
    obtain ⟨hmin, hmax⟩ := hc.parses
    rw [ScoreBound.arg] at hmin hmax
    split_ifs at hmin hmax
    all_goals simp_all
  rw [and_iff_right hclosed]
  have hargs : min.arg = min.text ∧ max.arg = max.text := by
    simp [ScoreBound.arg, hclosed]
  have hto : min.to max = .closed min.score max.score := by
    rw [ScoreBound.to, hclosed.1, hclosed.2]
    rfl
  rw [← hargs.1] at hmin
  rw [← hargs.2] at hmax
  rw [hto]
  have hranges := score_ranges db h key now found hm xs hxs hlt min.score max.score
  constructor
  · intro hc
    rcases found with _ | m
    · rw [hxs.eq_nil hm]
      exact Nat.two_pow_pos 31
    · have hcount := hc.zcount
      rw [zcountCmd_eq hmin hmax, zcount_eq h hm hxs] at hcount
      exact (asI32_eq_self_iff _).1 (Except.ok.inj hcount)
  · intro hsmall
    have hexec : (zremrangebyscoreCmd key min.arg max.arg now).exec db = _ :=
      exec_zremrangebyscoreCmd hmin hmax
    refine ⟨?_, ?_, ?_, ?_, ?_⟩
    · rw [zrangebyscoreCmd_eq hmin hmax]
      exact hranges.zrangebyscore false
    · rw [zrangebyscoreCmd_eq hmin hmax]
      exact hranges.zrangebyscore true
    · rw [zcountCmd_eq hmin hmax, hranges.zcount hsmall]
    · rw [hexec, hranges.answer hsmall]
    · exact ⟨fun x ↦ by rw [hexec]; exact hranges.removes.remaining x,
        by rw [hexec]; exact hranges.removes.coherent⟩

/-- A parenthesis is not a digit. -/
theorem parseI64_parenthesis (text : Bytes) : parseI64 (fromUtf8Lossy (0x28 :: text)) = none := by
  have hfold : ∀ bs : Bytes, bs.foldl (fun acc b ↦ do
      let n ← acc
      let d ← digitValue b
      return 10 * n + d) none = (none : Option ℕ) := fun bs ↦ by
    induction bs with
    | nil => rfl
    | cons b bs ih => exact ih
  show (parseDigits (0x28 :: lossyChunks text.length text)).bind _ = none
  rw [parseDigits, List.foldl_cons]
  exact congrArg (Option.bind · _) (hfold _)

/-- The one of two members whose score is at most three. -/
theorem score_commands_first :
    Enumerates twoMembers [1] 2 [⟨3, [97]⟩, ⟨4, [98]⟩] ∧
      ScoreCommands twoMembers [1] ⟨0, [0x30], false⟩ ⟨3, [0x33], false⟩ [⟨3, [97]⟩] 2 :=
  ⟨enumerates_twoMembers, (score_commands_iff parseI64_parenthesis twoMembers coherent_twoMembers [1]
    2 _ baseMeta_twoMembers _ enumerates_twoMembers (by decide) ⟨0, [0x30], false⟩ ⟨3, [0x33], false⟩
    (by decide +kernel) (by decide +kernel)).2 ⟨⟨rfl, rfl⟩, by decide⟩⟩

/-- **An exclusive bound is refused.** Above three and up to four there is one member, but the
commands answer an error, and nothing is removed; without the parenthesis they list the member with
the score three, too. -/
theorem zrangebyscore_exclusive_bound :
    Coherent twoMembers ∧ Enumerates twoMembers [1] 2 [⟨3, [97]⟩, ⟨4, [98]⟩] ∧
      (⟨3, 4, true, false⟩ : ScoreInterval ℤ).select [⟨3, [97]⟩, ⟨4, [98]⟩] = [⟨4, [98]⟩] ∧
      (zrangebyscoreCmd twoMembers [1] [0x28, 0x33] [0x34] [] 2).toOption = none ∧
      (zcountCmd twoMembers [1] [0x28, 0x33] [0x34] 2).toOption = none ∧
      ((zremrangebyscoreCmd [1] [0x28, 0x33] [0x34] 2).exec twoMembers).1.toOption = none ∧
      (zrangebyscoreCmd twoMembers [1] [0x33] [0x34] [] 2).toOption = some [[97], [98]] :=
  ⟨coherent_twoMembers, enumerates_twoMembers, by decide, by decide +kernel, by decide +kernel,
    by decide +kernel, by decide +kernel⟩

/-! ### Strings -/

/-- A bound of a range of strings. -/
inductive LexBound
  /-- Below every member. -/
  | lowest
  /-- Above every member. -/
  | highest
  /-- The string, which is in the range. -/
  | inclusive (b : Bytes)
  /-- The string, which is not in the range. -/
  | exclusive (b : Bytes)
  deriving DecidableEq

variable {min max : LexBound}

namespace LexBound

/-- The argument that stands for a bound. -/
def text : LexBound → Bytes
  | lowest => [0x2D]
  | highest => [0x2B]
  | inclusive b => 0x5B :: b
  | exclusive b => 0x28 :: b

/-- The member is not below the bound. -/
def admitsAbove : LexBound → Bytes → Bool
  | lowest, _ => true
  | highest, _ => false
  | inclusive b, x => b ≤ x
  | exclusive b, x => b < x

/-- The member is not above the bound. -/
def admitsBelow : LexBound → Bytes → Bool
  | lowest, _ => false
  | highest, _ => true
  | inclusive b, x => x ≤ b
  | exclusive b, x => x < b

/-- The bound is a bracket with nothing behind it. -/
def Bare : LexBound → Prop
  | inclusive b => b = []
  | exclusive b => b = []
  | _ => False

/-- What `parse_lex_range` makes of a bound. -/
def parsed : LexBound → Option Bytes × Bool
  | lowest => (none, false)
  | highest => (none, false)
  | inclusive b => (some b, false)
  | exclusive b => (some b, true)

variable {bound : LexBound}

theorem parseLexRange_text (h : ¬bound.Bare) : parseLexRange bound.text = .ok bound.parsed := by
  cases bound with
  | lowest => rfl
  | highest => rfl
  | inclusive b | exclusive b =>
    obtain ⟨x, xs, rfl⟩ := List.exists_cons_of_ne_nil (show b ≠ [] from h)
    rfl

theorem parseLexRange_text_of_bare (h : bound.Bare) :
    parseLexRange bound.text =
      .error (.redisErr "ERR min or max not valid string range item") := by
  cases bound with
  | lowest => exact h.elim
  | highest => exact h.elim
  | inclusive b =>
    obtain rfl : b = [] := h
    rfl
  | exclusive b =>
    obtain rfl : b = [] := h
    rfl

/-- For bounds in their places, `is_in_lex_range` tests both. -/
theorem isInLexRange_parsed (hmin : min ≠ highest) (hmax : max ≠ lowest) (x : Bytes) :
    isInLexRange min.parsed max.parsed x = (min.admitsAbove x && max.admitsBelow x) := by
  cases min with
  | highest => exact absurd rfl hmin
  | lowest | inclusive b | exclusive b =>
    cases max with
    | lowest => exact absurd rfl hmax
    | _ => rfl

theorem admits_eq_false (h : min = highest ∨ max = lowest) (x : Bytes) :
    (min.admitsAbove x && max.admitsBelow x) = false := by
  rcases h with rfl | rfl
  · rfl
  · exact Bool.and_false _

/-- The members between two bounds. -/
def select (min max : LexBound) (xs : List (ScoreMember S)) : List (ScoreMember S) :=
  xs.filter fun sm ↦ min.admitsAbove sm.member && max.admitsBelow sm.member

end LexBound

/-- `zrangebylex` lists a range of strings, `zlexcount` counts it, and `zremrangebylex` removes it.
-/
structure LexRanges (db : Redis S) (key : Bytes) (xs : List (ScoreMember S)) (min max : LexBound)
    (now : ℕ) : Prop where
  zrangebylex : Zsets.zrangebylex db key min.text max.text none none now =
    .ok ((LexBound.select min max xs).map ScoreMember.member)
  /-- The order is that of the strings. -/
  ordered : ((LexBound.select min max xs).map ScoreMember.member).Pairwise (· < ·)
  zlexcount : Zsets.zlexcount db key min.text max.text now =
    .ok ((LexBound.select min max xs).length : ℤ)
  /-- `zremrangebylex` answers the number of members in the range. -/
  answer : ((zremrangebylex key min.text max.text now).exec db).1 =
    .ok ((LexBound.select min max xs).length : ℤ)
  /-- `zremrangebylex` removes the range. -/
  removes : Leaves (zremrangebylex key min.text max.text now) db key (LexBound.select min max xs) now

section Lex

theorem pairwise_member (h : xs.Pairwise Precedes)
    (hscore : ∀ a ∈ xs, ∀ b ∈ xs, a.score = b.score) :
    xs.Pairwise fun a b ↦ a.member < b.member := by
  refine h.imp_of_mem fun {a b} ha hb hab ↦ ?_
  rcases Prod.Lex.toLex_lt_toLex.1 hab with hlt | ⟨-, hlt⟩
  · exact absurd (hscore a ha b hb) hlt.ne
  · exact hlt

omit [Score S] in
/-- Members in the order of strings: the iteration may stop at the first member above the range. -/
theorem lexRange_eq_filter (h : xs.Pairwise fun a b ↦ a.member < b.member)
    (min max : Option Bytes × Bool) :
    lexRange xs min max = xs.filter fun sm ↦ isInLexRange min max sm.member := by
  obtain ⟨_ | b, exclusive⟩ := max
  · rw [lexRange, List.takeWhile_eq_self_iff.2 fun _ _ ↦ rfl]
  · have hstop : (xs.takeWhile fun sm ↦ decide (sm.member ≤ b)) =
        xs.filter fun sm ↦ decide (sm.member ≤ b) := by
      refine SortedMap.takeWhile_eq_filter (fun a c hac hc ↦ ?_) h
      rw [decide_eq_true_eq] at hc ⊢
      exact hac.le.trans hc
    rw [lexRange]
    dsimp only
    rw [hstop, List.filter_filter]
    refine List.filter_congr fun sm _ ↦ ?_
    rw [Bool.and_eq_left_iff_imp]
    -- a member in the range is not above the bound
    intro hin
    rw [isInLexRange, Bool.and_eq_true] at hin
    have hmax := hin.2
    dsimp only at hmax
    cases exclusive with
    | false => simpa using hmax
    | true =>
      have hlt : sm.member < b := by simpa using hmax
      exact decide_eq_true hlt.le

section

variable (hm : db.baseMeta .zset key now = .ok (some m)) (min max : Bytes)

include hm

theorem zrangebylex_eq :
    zrangebylex db key min max none none now =
      ((Range.lex min max).select (scoreRows db key m.version) m).map fun rows ↦
        listing false (limited none none rows) := by
  rw [zrangebylex, Redis.validMeta_eq_baseMeta, hm, Range.select]
  rcases parseLexRange min with e | min
  · rfl
  · rcases parseLexRange max with e | max <;> rfl

theorem zlexcount_eq :
    zlexcount db key min max now =
      ((Range.lex min max).select (scoreRows db key m.version) m).map fun rows ↦
        asI32 rows.length := by
  rw [zlexcount, Redis.validMeta_eq_baseMeta, hm, Range.select]
  rcases parseLexRange min with e | min
  · rfl
  · rcases parseLexRange max with e | max <;> rfl

end

theorem select_of_not_bare (hmin : ¬min.Bare) (hmax : ¬max.Bare) :
    (Range.lex min.text max.text).select rows m = .ok (lexRange rows min.parsed max.parsed) := by
  rw [Range.select, LexBound.parseLexRange_text hmin, LexBound.parseLexRange_text hmax]
  rfl

theorem select_of_bare (rows : List (ScoreMember S)) (m : BaseMetaValue) (h : min.Bare ∨ max.Bare) :
    ∃ e, (Range.lex min.text max.text).select rows m = .error e := by
  rw [Range.select]
  by_cases hmin : min.Bare
  · rw [LexBound.parseLexRange_text_of_bare hmin]
    exact ⟨_, rfl⟩
  · rw [LexBound.parseLexRange_text hmin,
      LexBound.parseLexRange_text_of_bare (h.resolve_left hmin)]
    exact ⟨_, rfl⟩

section

omit [Score S]

theorem select_sublist (min max : LexBound) (xs : List (ScoreMember S)) :
    (LexBound.select min max xs).Sublist
      (xs.filter fun sm ↦ isInLexRange min.parsed max.parsed sm.member) := by
  refine List.monotone_filter_right xs fun sm hsm ↦ ?_
  by_cases hplaces : min = .highest ∨ max = .lowest
  · rw [LexBound.admits_eq_false hplaces] at hsm
    cases hsm
  · rw [not_or] at hplaces
    rwa [LexBound.isInLexRange_parsed hplaces.1 hplaces.2]

/-- What the parsed bounds select is what lies between the bounds, unless the highest bound is the
lower one or the lowest bound the upper one: these leave the range open on that side. -/
theorem filter_isInLexRange_eq_select_iff :
    (xs.filter fun sm ↦ isInLexRange min.parsed max.parsed sm.member) = LexBound.select min max xs ↔
      (min = .highest ∨ max = .lowest →
        ∀ sm ∈ xs, isInLexRange min.parsed max.parsed sm.member = false) := by
  by_cases hplaces : min = .highest ∨ max = .lowest
  · have hnone : LexBound.select min max xs = [] :=
      List.filter_eq_nil_iff.2 fun sm _ ↦ by rw [LexBound.admits_eq_false hplaces]; simp
    rw [hnone, List.filter_eq_nil_iff, imp_iff_right hplaces]
    simp only [Bool.not_eq_true]
  · rw [not_or] at hplaces
    refine iff_of_true (List.filter_congr fun sm _ ↦ ?_) fun h ↦ absurd h (not_or.2 hplaces)
    exact LexBound.isInLexRange_parsed hplaces.1 hplaces.2 sm.member

end

theorem lexRanges_of_missing (h : Coherent db) (hm : db.baseMeta .zset key now = .ok none)
    (min max : LexBound) : LexRanges db key [] min max now := by
  obtain ⟨hanswer, hleaves⟩ := exec_zremrangeby_of_missing h hm (.lex min.text max.text)
  refine ⟨?_, List.Pairwise.nil, ?_, hanswer, hleaves⟩
  · rw [zrangebylex, Redis.validMeta_eq_baseMeta, hm]
    rfl
  · rw [zlexcount, Redis.validMeta_eq_baseMeta, hm]
    rfl

/-- **Strings.** For a zset with one score for all members, in a coherent state, the range
operations are about the members between the bounds exactly when neither bound is a bracket alone,
when no member is within the other bound if the highest bound is the lower one or the lowest bound
the upper one, and when fewer than `2 ^ 31` members are in the range. Without a zset they always
are. -/
theorem lexRanges_iff (db : Redis S) (h : Coherent db) (key : Bytes) (now : ℕ)
    (found : Option BaseMetaValue) (hm : db.baseMeta .zset key now = .ok found)
    (xs : List (ScoreMember S)) (hxs : Enumerates db key now xs) (hlt : xs.length < 2 ^ 63)
    (hscore : ∀ a ∈ xs, ∀ b ∈ xs, a.score = b.score) (min max : LexBound) :
    LexRanges db key xs min max now ↔
      (xs = [] ∨ ¬min.Bare ∧ ¬max.Bare ∧ (min = .highest ∨ max = .lowest →
        ∀ sm ∈ xs, isInLexRange min.parsed max.parsed sm.member = false)) ∧
        (LexBound.select min max xs).length < 2 ^ 31 := by
  have hordered := pairwise_member hxs.sorted hscore
  have hselected : ((LexBound.select min max xs).map ScoreMember.member).Pairwise (· < ·) :=
    List.pairwise_map.2 (hordered.filter _)
  rcases found with _ | m
  · obtain rfl := hxs.eq_nil hm
    exact iff_of_true (lexRanges_of_missing h hm min max) ⟨Or.inl rfl, Nat.two_pow_pos 31⟩
  obtain ⟨hrows, -, hne⟩ := hxs.eq_scoreRows h hm
  rw [or_iff_right hne]
  have hrange := zrangebylex_eq hm min.text max.text
  have hcount := zlexcount_eq hm min.text max.text
  by_cases hbare : min.Bare ∨ max.Bare
  · -- the arguments are refused
    obtain ⟨e, he⟩ := select_of_bare (scoreRows db key m.version) m hbare
    rw [he] at hrange
    refine iff_of_false (fun hr ↦ ?_) fun hgood ↦ (not_or.2 ⟨hgood.1.1, hgood.1.2.1⟩) hbare
    cases hrange.symm.trans hr.zrangebylex
  rw [not_or] at hbare
  have hselect : (Range.lex min.text max.text).select (scoreRows db key m.version) m =
      .ok (xs.filter fun sm ↦ isInLexRange min.parsed max.parsed sm.member) := by
    rw [select_of_not_bare hbare.1 hbare.2, hrows, lexRange_eq_filter hordered]
  obtain ⟨hanswer, hleaves⟩ := exec_zremrangeby_of_select h hm hselect
  have hle : (xs.filter fun sm ↦ isInLexRange min.parsed max.parsed sm.member).length ≤ xs.length :=
    List.length_filter_le _ _
  rw [hselect] at hrange hcount
  replace hrange : zrangebylex db key min.text max.text none none now =
      .ok ((xs.filter fun sm ↦ isInLexRange min.parsed max.parsed sm.member).map
        ScoreMember.member) := by
    rw [hrange, ← listing_false]
    exact congrArg (fun rows ↦ Except.ok (listing false rows)) (limited_none (by omega))
  rw [← filter_isInLexRange_eq_select_iff]
  constructor
  · intro hr
    have hlist := Except.ok.inj (hrange.symm.trans hr.zrangebylex)
    have hsize := congrArg List.length hlist
    rw [List.length_map, List.length_map] at hsize
    have hsame := ((select_sublist min max xs).eq_of_length hsize.symm).symm
    have hlength := Except.ok.inj (hanswer.symm.trans hr.answer)
    rw [hsame] at hlength
    exact ⟨⟨hbare.1, hbare.2, hsame⟩, (asI32_eq_self_iff _).1 hlength⟩
  · rintro ⟨⟨-, -, hsame⟩, hsmall⟩
    rw [hsame] at hrange hcount hanswer hleaves
    rw [asI32_of_lt hsmall] at hanswer
    refine ⟨hrange, hselected, ?_, hanswer, hleaves⟩
    rw [hcount, ← asI32_of_lt hsmall]
    rfl

/-- Two members with one score. -/
def sameScores : Redis ℤ := Redis.empty.write (createZset [1] [⟨3, [97]⟩, ⟨3, [98]⟩] 1)

theorem coherent_sameScores : Coherent sameScores :=
  coherent_createZset [1] Nat.zero_lt_one (by decide) (by decide)

theorem baseMeta_sameScores : sameScores.baseMeta .zset [1] 2 =
    .ok (some ((BaseMetaValue.new .zset 2 1).updateVersion 1)) :=
  baseMeta_createZset _ [1] (List.cons_ne_nil _ _) 1 2

theorem enumerates_sameScores : Enumerates sameScores [1] 2 [⟨3, [97]⟩, ⟨3, [98]⟩] :=
  enumerates_of_scoreRows coherent_sameScores baseMeta_sameScores (by decide +kernel)

/-- The members above the first of two. -/
theorem lexRanges_second :
    Enumerates sameScores [1] 2 [⟨3, [97]⟩, ⟨3, [98]⟩] ∧
      LexRanges sameScores [1] [⟨3, [97]⟩, ⟨3, [98]⟩] (.exclusive [97]) .highest 2 := by
  refine ⟨enumerates_sameScores, (lexRanges_iff sameScores coherent_sameScores [1] 2 _
    baseMeta_sameScores _ enumerates_sameScores (by decide) (by decide) (.exclusive [97])
    .highest).2 ⟨Or.inr ⟨?_, id, ?_⟩, by decide⟩⟩
  · exact List.cons_ne_nil _ _
  · rintro (h | h) <;> cases h

/-- **The highest bound as the lower one.** Nothing is above it, but every member is listed, and all
are removed; and the empty string as a bound is refused. -/
theorem zrangebylex_above_highest :
    Coherent sameScores ∧ Enumerates sameScores [1] 2 [⟨3, [97]⟩, ⟨3, [98]⟩] ∧
      LexBound.select .highest .highest [(⟨3, [97]⟩ : ScoreMember ℤ), ⟨3, [98]⟩] = [] ∧
      (zrangebylex sameScores [1] [0x2B] [0x2B] none none 2).toOption = some [[97], [98]] ∧
      (zsetOf ((zremrangebylex [1] [0x2B] [0x2B] 2).exec sameScores).2 [1] 2).get [97] = none ∧
      LexBound.select (.inclusive []) .highest [(⟨3, [97]⟩ : ScoreMember ℤ), ⟨3, [98]⟩] =
        [⟨3, [97]⟩, ⟨3, [98]⟩] ∧
      (zrangebylex sameScores [1] [0x5B] [0x2B] none none 2).toOption = none :=
  ⟨coherent_sameScores, enumerates_sameScores, by decide, by decide +kernel, by decide +kernel,
    by decide, by decide +kernel⟩

end Lex

end Kiwi.ZsetIndex
