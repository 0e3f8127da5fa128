import Kiwi.Correctness.ZsetRanges
import Kiwi.Storage.ExactScore

/-!
# Forward and reverse views of a zset

The reverse operations iterate backwards from a seek key for plus infinity. That key is before every
row with the score plus infinity, so the members with that score are not visited: what a reverse
iteration visits is the reversed enumeration without its first members (`revScoreRows_eq_drop`).

The mirror of the index `i` is `-1 - i`, which stands for the same place counted from the other end.
`mirrors_iff` says for each of the three laws when it holds: for ranges of indexes, ranges of
scores, and ranks. Apart from the members at plus infinity, the laws for indexes fail where an index
beyond an end of the zset is moved to that end in one direction only.
-/

namespace Kiwi.ZsetIndex

open Zsets Positions

variable {S : Type} [Score S] {db : Redis S} {key : Bytes} {now : ℕ} {m : BaseMetaValue}
  {xs : List (ScoreMember S)}

/-! ### Reversed ranges -/

section Reversed

variable {α : Type*} {ys : List α} {k : ℕ} {s e : ℤ}

theorem getElem?_zero_between (lo hi : ℤ) :
    (between lo hi ys)[0]? = if (lo.toNat : ℤ) ≤ hi then ys[lo.toNat]? else none := by
  rw [between_eq_drop_take, List.getElem?_drop, List.getElem?_take, Nat.add_zero]
  split_ifs <;> first | rfl | omega

/-- When elements are skipped, a range of what is left is the range of the whole only if both are
empty. -/
theorem between_eq_nil_of_skipped (hnodup : ys.Nodup) (hk : k ≠ 0) (hpos : 0 < ys.length)
    (he : between s (max e 0) (ys.drop k) = between (min s (ys.length - 1)) e ys) :
    between (min s (ys.length - 1)) e ys = [] := by
  by_contra hne
  have hlength := List.length_pos_iff.2 hne
  rw [length_between] at hlength
  -- the two ranges would start with the same element at different places
  have hfirst := congrArg (fun l ↦ l[0]?) he
  have hright : ((min s (ys.length - 1)).toNat : ℤ) ≤ e := by omega
  rw [getElem?_zero_between, getElem?_zero_between, if_pos hright, List.getElem?_drop] at hfirst
  have hlt : (min s (ys.length - 1)).toNat < ys.length := by omega
  split_ifs at hfirst
  · have hplace := (List.getElem?_inj hlt hnodup).1 hfirst.symm
    omega
  · rw [List.getElem?_eq_getElem hlt] at hfirst
    cases hfirst

theorem between_drop_eq_iff (s e : ℤ) (hnodup : ys.Nodup) (hpos : 0 < ys.length)
    (hk : k ≤ ys.length) :
    between s (max e 0) (ys.drop k) = between (min s (ys.length - 1)) e ys ↔
      ¬(ys.length ≤ s ∧ ys.length - 1 ≤ e) ∧ (s ≤ 0 → e < 0 → k = ys.length) ∧
        (k ≠ 0 → e < s ∨ e < 0) := by
  constructor
  · intro he
    have hlength := congrArg List.length he
    rw [length_between, length_between, List.length_drop] at hlength
    by_cases hzero : k = 0
    · omega
    · have hnil := congrArg List.length (between_eq_nil_of_skipped hnodup hzero hpos he)
      rw [length_between, List.length_nil] at hnil
      omega
  · rintro ⟨hend, hstart, hskip⟩
    by_cases hempty : e < s ∨ e < 0
    · have hleft : between s (max e 0) (ys.drop k) = [] := by
        rw [← List.length_eq_zero_iff, length_between, List.length_drop]
        omega
      have hright : between (min s (ys.length - 1)) e ys = [] := by
        rw [← List.length_eq_zero_iff, length_between]
        omega
      rw [hleft, hright]
    · obtain rfl : k = 0 := by
        by_contra hzero
        exact hempty (hskip hzero)
      rw [List.drop_zero]
      have hlo : min s (ys.length - 1) = s := by omega
      have hhi : max e 0 = e := by omega
      rw [hlo, hhi]

end Reversed

/-! ### What a reverse iteration visits -/

/-- The members at plus infinity. -/
def atInfinity (xs : List (ScoreMember S)) : List (ScoreMember S) :=
  xs.filter fun sm ↦ !decide (sm.score < Score.infinity)

theorem filter_append_atInfinity (h : xs.Pairwise Precedes) :
    (xs.filter fun sm ↦ sm.score < Score.infinity) ++ atInfinity xs = xs := by
  have hbelow : ∀ a b : ScoreMember S, Precedes a b →
      decide (b.score < Score.infinity) = true → decide (a.score < Score.infinity) = true := by
    intro a b hab hb
    rw [decide_eq_true_eq] at hb ⊢
    exact (score_le_of_precedes hab).trans_lt hb
  rw [atInfinity, ← SortedMap.dropWhile_eq_filter hbelow h, ← SortedMap.takeWhile_eq_filter hbelow h,
    List.takeWhile_append_dropWhile]

variable (version : ℕ)

theorem revScoreRows_eq_drop :
    revScoreRows db key version =
      (scoreRows db key version).reverse.drop (atInfinity (scoreRows db key version)).length := by
  have hrows := filter_append_atInfinity (pairwise_scoreRows db key version)
  have hreverse := congrArg List.reverse hrows
  rw [List.reverse_append] at hreverse
  rw [← hreverse, List.drop_left' (List.length_reverse)]
  rfl

theorem atInfinity_eq_nil_iff (htop : ∀ s : S, s ≤ Score.infinity) :
    atInfinity xs = [] ↔ ∀ sm ∈ xs, sm.score ≠ Score.infinity := by
  rw [atInfinity, List.filter_eq_nil_iff]
  refine forall₂_congr fun sm _ ↦ ?_
  rw [Bool.not_eq_true', Bool.not_eq_false, decide_eq_true_eq, (htop sm.score).lt_iff_ne]

theorem length_atInfinity_eq_iff (htop : ∀ s : S, s ≤ Score.infinity) :
    (atInfinity xs).length = xs.length ↔ ∀ sm ∈ xs, sm.score = Score.infinity := by
  rw [atInfinity, List.length_filter_eq_length_iff]
  refine forall₂_congr fun sm _ ↦ ?_
  rw [Bool.not_eq_true', decide_eq_false_iff_not, (htop sm.score).lt_iff_ne, not_not]

/-! ### The laws -/

/-- `zrevrange` lists what `zrange` lists for the mirrored indexes, in reverse. -/
def RangeMirrors (db : Redis S) (key : Bytes) (start stop : ℤ) (now : ℕ) : Prop :=
  ∀ withScores, ∃ rows : List (ScoreMember S),
    zrange db key (-1 - stop) (-1 - start) withScores now = .ok (listing withScores rows) ∧
      zrevrange db key start stop withScores now = .ok (listing withScores rows.reverse)

/-- `zrevrangebyscore` lists what `zrangebyscore` lists, in reverse. -/
def ScoreMirrors (db : Redis S) (key : Bytes) (minScore maxScore : S) (now : ℕ) : Prop :=
  ∀ withScores, ∃ rows : List (ScoreMember S),
    zrangebyscore db key minScore maxScore withScores none none now =
        .ok (listing withScores rows) ∧
      zrevrangebyscore db key maxScore minScore withScores none none now =
        .ok (listing withScores rows.reverse)

/-- The two ranks of a member of a zset with `n` members add up to `n - 1`. -/
def RankMirrors (db : Redis S) (key : Bytes) (n : ℕ) (member : Bytes) (now : ℕ) : Prop :=
  ∃ i j, zrank db key member now = .ok (some i) ∧ zrevrank db key member now = .ok (some j) ∧
    i + j = n - 1

/-! ### Ranges of indexes -/

theorem fromEnd_mirror (n : ℕ) (i : ℤ) : fromEnd n (-1 - i) = n - 1 - fromEnd n i := by
  unfold fromEnd
  split_ifs <;> omega

/-- What `zrevrange` lists, by places of the reversed enumeration. -/
theorem zrevrange_eq_between (h : Coherent db) (hm : db.baseMeta .zset key now = .ok (some m))
    (hxs : Enumerates db key now xs) (hlt : xs.length < 2 ^ 63) (start stop : ℤ)
    (withScores : Bool) :
    zrevrange db key start stop withScores now = .ok (listing withScores
      (between (fromEnd xs.length start) (max (fromEnd xs.length stop) 0)
        (xs.reverse.drop (atInfinity xs).length))) := by
  obtain ⟨hrows, hcount, -⟩ := hxs.eq_scoreRows h hm
  have hle : (xs.reverse.drop (atInfinity xs).length).length ≤ m.count := by
    rw [List.length_drop, List.length_reverse]
    omega
  rw [zrevrange, Redis.validMeta_eq_baseMeta, hm]
  show Except.ok (listing withScores (rankRange (revScoreRows db key m.version) m start stop)) = _
  rw [revScoreRows_eq_drop, hrows, rankRange_eq_between hle (by omega), hcount]

omit [Score S] in
theorem reverse_mirrored (start stop : ℤ) :
    (between (fromEnd xs.length (-1 - stop)) (max (fromEnd xs.length (-1 - start)) 0) xs).reverse =
      between (min (fromEnd xs.length start) (xs.reverse.length - 1)) (fromEnd xs.length stop)
        xs.reverse := by
  rw [reverse_between, fromEnd_mirror, fromEnd_mirror, List.length_reverse]
  congr 1 <;> omega

theorem rangeMirrors_iff (h : Coherent db) (htop : ∀ s : S, s ≤ Score.infinity)
    (hm : db.baseMeta .zset key now = .ok (some m)) (hxs : Enumerates db key now xs)
    (hlt : xs.length < 2 ^ 63) (start stop : ℤ) :
    RangeMirrors db key start stop now ↔
      ¬(xs.length ≤ fromEnd xs.length start ∧ xs.length - 1 ≤ fromEnd xs.length stop) ∧
        (fromEnd xs.length start ≤ 0 → fromEnd xs.length stop < 0 →
          ∀ sm ∈ xs, sm.score = Score.infinity) ∧
        ((∃ sm ∈ xs, sm.score = Score.infinity) →
          fromEnd xs.length stop < fromEnd xs.length start ∨ fromEnd xs.length stop < 0) := by
  obtain ⟨-, -, hne⟩ := hxs.eq_scoreRows h hm
  have hpos := List.length_pos_iff.2 hne
  have hforward := zrange_eq_between h hm hxs hlt (-1 - stop) (-1 - start)
  have hbackward := zrevrange_eq_between h hm hxs hlt start stop
  have hle : (atInfinity xs).length ≤ xs.length := List.length_filter_le _ _
  have hsome : (∃ sm ∈ xs, sm.score = Score.infinity) ↔ (atInfinity xs).length ≠ 0 := by
    rw [ne_eq, List.length_eq_zero_iff, atInfinity_eq_nil_iff htop]
    push Not
    rfl
  rw [← length_atInfinity_eq_iff htop, hsome]
  have hlength : xs.reverse.length = xs.length := List.length_reverse
  constructor
  · intro hr
    obtain ⟨rows, hrange, hrev⟩ := hr false
    have hrange := Except.ok.inj ((hforward false).symm.trans hrange)
    have hrev := Except.ok.inj ((hbackward false).symm.trans hrev)
    rw [listing_false, listing_false] at hrange hrev
    -- the members that are listed are those of the mirrored range
    have hmembers := congrArg List.reverse hrange
    rw [← List.map_reverse, ← List.map_reverse, reverse_mirrored, ← hrev, map_between, map_between,
      List.map_drop] at hmembers
    have hlength' : (xs.reverse.map ScoreMember.member).length = xs.length := by
      rw [List.length_map, hlength]
    have hnodup : (xs.reverse.map ScoreMember.member).Nodup := by
      rw [List.map_reverse]
      exact List.nodup_reverse.2 hxs.nodup_members
    have hiff := between_drop_eq_iff (fromEnd xs.length start) (fromEnd xs.length stop) hnodup
      (hlength' ▸ hpos) (hlength' ▸ hle)
    rw [hlength'] at hiff
    rw [hlength] at hmembers
    exact hiff.1 hmembers.symm
  · intro hgood withScores
    have hiff := between_drop_eq_iff (fromEnd xs.length start) (fromEnd xs.length stop)
      (List.nodup_reverse.2 hxs.nodup) (hlength ▸ hpos) (hlength ▸ hle)
    rw [hlength] at hiff
    refine ⟨_, hforward withScores, ?_⟩
    rw [hbackward, reverse_mirrored, hlength, hiff.2 hgood]

/-! ### Ranges of scores -/

/-- The rows that `zrevrangebyscore` lists are those of the range, in reverse, without the members
at plus infinity. -/
theorem revRows_eq (minScore maxScore : S) :
    ((revScoreRows db key version).takeWhile fun sm ↦ minScore ≤ sm.score).filter
        (fun sm ↦ sm.score ≤ maxScore) =
      (((ScoreInterval.closed minScore maxScore).select (scoreRows db key version)).filter
        fun sm ↦ sm.score < Score.infinity).reverse := by
  have hsorted : (revScoreRows db key version).Pairwise fun a b ↦ Precedes b a :=
    List.pairwise_reverse.2 ((pairwise_scoreRows db key version).filter _)
  have hstop : ((revScoreRows db key version).takeWhile fun sm ↦ minScore ≤ sm.score) =
      (revScoreRows db key version).filter fun sm ↦ minScore ≤ sm.score := by
    refine SortedMap.takeWhile_eq_filter (fun a b hba hb ↦ ?_) hsorted
    rw [decide_eq_true_eq] at hb ⊢
    exact hb.trans (score_le_of_precedes hba)
  rw [hstop, revScoreRows, List.filter_reverse, List.filter_reverse, ScoreInterval.select,
    List.filter_filter, List.filter_filter, List.filter_filter]
  refine congrArg List.reverse (List.filter_congr fun sm _ ↦ ?_)
  rw [Bool.and_comm, Bool.and_comm (decide (sm.score ≤ maxScore))]
  rfl

theorem scoreMirrors_iff (h : Coherent db) (htop : ∀ s : S, s ≤ Score.infinity)
    (hm : db.baseMeta .zset key now = .ok (some m)) (hxs : Enumerates db key now xs)
    (hlt : xs.length < 2 ^ 63) (minScore maxScore : S) :
    ScoreMirrors db key minScore maxScore now ↔
      (maxScore = Score.infinity → ∀ sm ∈ xs, sm.score ≠ Score.infinity) := by
  obtain ⟨hrows, -, -⟩ := hxs.eq_scoreRows h hm
  have hforward := zrangebyscore_eq h hm hxs hlt minScore maxScore
  have hle := length_select_le (.closed minScore maxScore) xs
  have hbackward : ∀ withScores,
      zrevrangebyscore db key maxScore minScore withScores none none now =
        .ok (listing withScores (((ScoreInterval.closed minScore maxScore).select xs).filter
          fun sm ↦ sm.score < Score.infinity).reverse) := by
    intro withScores
    rw [zrevrangebyscore, Redis.validMeta_eq_baseMeta, hm]
    show Except.ok (listing withScores (limited none none
      (((revScoreRows db key m.version).takeWhile fun sm ↦ minScore ≤ sm.score).filter
        fun sm ↦ sm.score ≤ maxScore))) = _
    rw [revRows_eq, hrows, limited_none]
    rw [List.length_reverse]
    exact (List.length_filter_le _ _).trans_lt (by omega)
  -- the law holds if no member at plus infinity is in the range
  have hselected : ∀ sm, sm ∈ (ScoreInterval.closed minScore maxScore).select xs ↔
      sm ∈ xs ∧ minScore ≤ sm.score ∧ sm.score ≤ maxScore := by
    intro sm
    rw [ScoreInterval.select, List.mem_filter, ScoreInterval.contains_closed]
  constructor
  · rintro hr rfl sm hsm hscore
    obtain ⟨rows, hrange, hrev⟩ := hr false
    have hrange := congrArg List.length (Except.ok.inj ((hforward false).symm.trans hrange))
    have hrev := congrArg List.length (Except.ok.inj ((hbackward false).symm.trans hrev))
    simp only [listing_false, List.length_map, List.length_reverse] at hrange hrev
    have hin : sm ∈ (ScoreInterval.closed minScore Score.infinity).select xs :=
      (hselected sm).2 ⟨hsm, hscore ▸ htop minScore, htop sm.score⟩
    have hbelow := List.length_filter_eq_length_iff.1 (hrev.trans hrange.symm) sm hin
    rw [decide_eq_true_eq, hscore] at hbelow
    exact lt_irrefl _ hbelow
  · intro hgood withScores
    refine ⟨_, hforward withScores, ?_⟩
    have hall : (((ScoreInterval.closed minScore maxScore).select xs).filter
        fun sm ↦ sm.score < Score.infinity) = (ScoreInterval.closed minScore maxScore).select xs := by
      refine List.filter_eq_self.2 fun sm hsm ↦ ?_
      obtain ⟨hin, -, hmax⟩ := (hselected sm).1 hsm
      rw [decide_eq_true_eq, (htop sm.score).lt_iff_ne]
      intro he
      exact hgood (le_antisymm (htop maxScore) (he ▸ hmax)) sm hin he
    rw [hbackward, hall]

/-! ### Ranks -/

variable {sm : ScoreMember S}

variable {rows : List (ScoreMember S)}

theorem findIdx?_eq_none (h : sm ∉ rows) :
    rows.findIdx? (fun r ↦ r.score = sm.score ∧ r.member = sm.member) = none := by
  rw [List.findIdx?_eq_none_iff]
  intro r hr
  rw [decide_eq_false_iff_not]
  rintro ⟨hscore, hmember⟩
  cases r
  cases sm
  cases hscore
  cases hmember
  exact h hr

variable {before after : List (ScoreMember S)}

/-- The place of a row that is not listed before. -/
theorem rankIn_append (h : sm ∉ before) :
    rankIn (before ++ sm :: after) sm.score sm.member = some (before.length : ℤ) := by
  rw [rankIn, List.findIdx?_append, findIdx?_eq_none h, List.findIdx?_cons]
  simp

theorem rankIn_of_notMem (h : sm ∉ rows) : rankIn rows sm.score sm.member = none := by
  rw [rankIn, Option.map_eq_none_iff]
  exact findIdx?_eq_none h

section

variable (hm : db.baseMeta .zset key now = .ok (some m))
  (hget : db.zsetsDataCF.get ⟨key, m.version, sm.member⟩ = some sm.score)

include hm hget

theorem zrank_eq :
    zrank db key sm.member now =
      .ok (rankIn (scoreRows db key m.version) sm.score sm.member) := by
  rw [zrank, Redis.validMeta_eq_baseMeta, hm, Program.except_ok_bind]
  dsimp only
  rw [hget]
  rfl

theorem zrevrank_eq :
    zrevrank db key sm.member now =
      .ok (rankIn (revScoreRows db key m.version) sm.score sm.member) := by
  rw [zrevrank, Redis.validMeta_eq_baseMeta, hm, Program.except_ok_bind]
  dsimp only
  rw [hget]
  rfl

end

theorem rankIn_reverse (hbelow : sm.score < Score.infinity) (hafter : sm ∉ after) :
    rankIn ((before ++ sm :: after).filter fun r ↦ r.score < Score.infinity).reverse sm.score
        sm.member =
      some ((after.filter fun r ↦ r.score < Score.infinity).length : ℤ) := by
  rw [List.filter_append, List.filter_cons_of_pos (by simpa using hbelow), List.reverse_append,
    List.reverse_cons, List.append_assoc, List.singleton_append, rankIn_append, List.length_reverse]
  rw [List.mem_reverse, List.mem_filter, not_and_or]
  exact Or.inl hafter

theorem length_filter_after_iff (htop : ∀ s : S, s ≤ Score.infinity)
    (hsorted : (before ++ sm :: after).Pairwise Precedes) (hbelow : sm.score < Score.infinity) :
    (after.filter fun r ↦ r.score < Score.infinity).length = after.length ↔
      ∀ r ∈ before ++ sm :: after, r.score ≠ Score.infinity := by
  rw [List.length_filter_eq_length_iff]
  constructor
  · intro hafter r hr
    rw [← (htop r.score).lt_iff_ne]
    rcases List.mem_append.1 hr with hr | hr
    · -- what comes before has no higher score
      have hprecedes := (List.pairwise_append.1 hsorted).2.2 r hr sm List.mem_cons_self
      exact (score_le_of_precedes hprecedes).trans_lt hbelow
    · rcases List.mem_cons.1 hr with rfl | hr
      · exact hbelow
      · simpa using hafter r hr
  · intro hall r hr
    rw [decide_eq_true_eq, (htop r.score).lt_iff_ne]
    exact hall r (List.mem_append_right _ (List.mem_cons_of_mem _ hr))

theorem rankMirrors_iff (h : Coherent db) (htop : ∀ s : S, s ≤ Score.infinity)
    (hm : db.baseMeta .zset key now = .ok (some m)) (hxs : Enumerates db key now xs) (hsm : sm ∈ xs) :
    RankMirrors db key xs.length sm.member now ↔ ∀ r ∈ xs, r.score ≠ Score.infinity := by
  obtain ⟨hrows, -, -⟩ := hxs.eq_scoreRows h hm
  obtain ⟨-, t, ht, -⟩ := h.found_zset hm
  have hget : db.zsetsDataCF.get ⟨key, m.version, sm.member⟩ = some sm.score := by
    rw [ht.members, ← zsetOf_of_stores hm ht]
    exact (hxs.mem_iff sm).1 hsm
  have hrank := zrank_eq hm hget
  have hrevrank := zrevrank_eq hm hget
  rw [hrows] at hrank
  rw [revScoreRows, hrows] at hrevrank
  obtain ⟨before, after, rfl⟩ := List.append_of_mem hsm
  have hnodup := hxs.nodup
  rw [List.nodup_middle, List.nodup_cons, List.mem_append, not_or] at hnodup
  rw [rankIn_append hnodup.1.1] at hrank
  by_cases hscore : sm.score = Score.infinity
  · -- a member at plus infinity has no reverse rank
    refine iff_of_false ?_ fun hall ↦ hall sm hsm hscore
    rintro ⟨i, j, -, hj, -⟩
    rw [rankIn_of_notMem, hj] at hrevrank
    · cases hrevrank
    · rw [List.mem_reverse, List.mem_filter, hscore]
      simp
  have hbelow : sm.score < Score.infinity := (htop sm.score).lt_of_ne hscore
  rw [rankIn_reverse hbelow hnodup.1.2] at hrevrank
  rw [← length_filter_after_iff htop hxs.sorted hbelow, RankMirrors, hrank, hrevrank,
    List.length_append, List.length_cons]
  constructor
  · rintro ⟨i, j, hi, hj, hsum⟩
    have hi := Option.some.inj (Except.ok.inj hi)
    have hj := Option.some.inj (Except.ok.inj hj)
    push_cast at hsum
    omega
  · intro hlength
    refine ⟨_, _, rfl, rfl, ?_⟩
    push_cast
    omega

/-! ### When the views mirror each other -/

/-- **The mirror laws.** For a zset in a coherent state, where plus infinity is the greatest score:

* a range of indexes is mirrored exactly when it does not start beyond the last member and reach it;
  it does not end before the first member without starting after it, unless all members are at plus
  infinity; and it is empty if some member is at plus infinity;
* a range of scores is mirrored exactly when it does not reach up to a member at plus infinity;
* the ranks of a member are mirrored exactly when no member is at plus infinity.

Without members all of it holds. -/
theorem mirrors_iff (db : Redis S) (h : Coherent db) (htop : ∀ s : S, s ≤ Score.infinity)
    (key : Bytes) (now : ℕ) (found : Option BaseMetaValue)
    (hm : db.baseMeta .zset key now = .ok found) (xs : List (ScoreMember S))
    (hxs : Enumerates db key now xs) (hlt : xs.length < 2 ^ 63) :
    (∀ start stop, RangeMirrors db key start stop now ↔ xs = [] ∨
      ¬(xs.length ≤ fromEnd xs.length start ∧ xs.length - 1 ≤ fromEnd xs.length stop) ∧
        (fromEnd xs.length start ≤ 0 → fromEnd xs.length stop < 0 →
          ∀ sm ∈ xs, sm.score = Score.infinity) ∧
        ((∃ sm ∈ xs, sm.score = Score.infinity) →
          fromEnd xs.length stop < fromEnd xs.length start ∨ fromEnd xs.length stop < 0)) ∧
    (∀ minScore maxScore, ScoreMirrors db key minScore maxScore now ↔
      (maxScore = Score.infinity → ∀ sm ∈ xs, sm.score ≠ Score.infinity)) ∧
    ∀ sm ∈ xs, RankMirrors db key xs.length sm.member now ↔
      ∀ r ∈ xs, r.score ≠ Score.infinity := by
  rcases found with _ | m
  · obtain rfl := hxs.eq_nil hm
    refine ⟨fun start stop ↦ iff_of_true (fun withScores ↦ ⟨[], ?_, ?_⟩) (Or.inl rfl),
      fun minScore maxScore ↦ iff_of_true (fun withScores ↦ ⟨[], ?_, ?_⟩) ?_, ?_⟩
    · rw [zrange, Redis.validMeta_eq_baseMeta, hm]
      rfl
    · rw [zrevrange, Redis.validMeta_eq_baseMeta, hm]
      rfl
    · rw [zrangebyscore, Redis.validMeta_eq_baseMeta, hm]
      rfl
    · rw [zrevrangebyscore, Redis.validMeta_eq_baseMeta, hm]
      rfl
    · exact fun _ sm hsm ↦ absurd hsm List.not_mem_nil
    · exact fun sm hsm ↦ absurd hsm List.not_mem_nil
  · obtain ⟨-, -, hne⟩ := hxs.eq_scoreRows h hm
    refine ⟨fun start stop ↦ ?_, scoreMirrors_iff h htop hm hxs hlt,
      fun sm hsm ↦ rankMirrors_iff h htop hm hxs hsm⟩
    rw [or_iff_right hne]
    exact rangeMirrors_iff h htop hm hxs hlt start stop

/-- Two members, the second of them at plus infinity. -/
def oneAtInfinity : Redis ExactScore :=
  Redis.empty.write (createZset [1] [⟨.finite 1, [97]⟩, ⟨.infinity, [98]⟩] 1)

theorem coherent_oneAtInfinity : Coherent oneAtInfinity :=
  coherent_createZset [1] Nat.zero_lt_one (by decide) (by decide)

theorem baseMeta_oneAtInfinity : oneAtInfinity.baseMeta .zset [1] 2 =
    .ok (some ((BaseMetaValue.new .zset 2 1).updateVersion 1)) :=
  baseMeta_createZset _ [1] (List.cons_ne_nil _ _) 1 2

theorem enumerates_oneAtInfinity :
    Enumerates oneAtInfinity [1] 2 [⟨.finite 1, [97]⟩, ⟨.infinity, [98]⟩] :=
  enumerates_of_scoreRows coherent_oneAtInfinity baseMeta_oneAtInfinity (by decide +kernel)

/-- An empty range of indexes, and a range of scores below plus infinity. -/
theorem mirrors_below_infinity :
    RangeMirrors oneAtInfinity [1] 1 0 2 ∧
      ScoreMirrors oneAtInfinity [1] (.finite 0) (.finite 5) 2 := by
  have h := mirrors_iff oneAtInfinity coherent_oneAtInfinity ExactScore.le_infinity [1] 2 _
    baseMeta_oneAtInfinity _ enumerates_oneAtInfinity (by decide)
  refine ⟨(h.1 1 0).2 (Or.inr ⟨by decide, ?_, fun _ ↦ Or.inl (by decide)⟩), (h.2.1 _ _).2 ?_⟩
  · intro hstart
    exact absurd hstart (by decide)
  · intro he
    cases he

/-- **A member at plus infinity is not seen in reverse.** The reverse listings do not have it, and
it has no reverse rank. -/
theorem zrevrange_misses_infinity :
    Coherent oneAtInfinity ∧
      (zrange oneAtInfinity [1] 0 (-1) false 2).toOption = some [[97], [98]] ∧
      (zrevrange oneAtInfinity [1] 0 (-1) false 2).toOption = some [[97]] ∧
      (zrangebyscore oneAtInfinity [1] (.finite 0) .infinity false none none 2).toOption =
        some [[97], [98]] ∧
      (zrevrangebyscore oneAtInfinity [1] .infinity (.finite 0) false none none 2).toOption =
        some [[97]] ∧
      (zrank oneAtInfinity [1] [98] 2).toOption = some (some 1) ∧
      (zrevrank oneAtInfinity [1] [98] 2).toOption = some none :=
  ⟨coherent_oneAtInfinity, by decide +kernel, by decide +kernel, by decide +kernel,
    by decide +kernel, by decide +kernel, by decide +kernel⟩

end Kiwi.ZsetIndex
