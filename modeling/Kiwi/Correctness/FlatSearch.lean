import Kiwi.Storage.VectorSearch

/-!
# Flat search finds the best candidates

The heap has what is best of the candidates so far (`TopK.KeepsBest`), in the order of the
candidates, which is the order of the final sort. So the answer is the beginning of the ranking of
all candidates, in whatever order they are scanned.
-/

namespace Kiwi.Vectors

open Lexicographic

variable {V S : Type} [LinearOrder S]

/-- The hit of a candidate. -/
def hitOf (score : V → S) (candidate : Bytes × V) : ScoredCandidate S :=
  ⟨candidate.1, score candidate.2⟩

/-- It is ranked before: a higher score, or the same score and a smaller element. -/
def RanksBefore (a b : ScoredCandidate S) : Prop :=
  b.score < a.score ∨ a.score = b.score ∧ a.element < b.element

theorem foldlM_searchCandidate (score : V → S) (count : ℕ) (scan : List (Bytes × V))
    (heap : List (ScoredCandidate S)) :
    (scan.map Except.ok).foldlM (searchCandidate (fun v ↦ .ok (score v)) count) heap =
      .ok ((scan.map (hitOf score)).foldl (TopK.keepBest count) heap) := by
  induction scan generalizing heap with
  | nil => rfl
  | cons candidate scan ih => exact ih _

/-- The final sort is by the order of candidates. -/
theorem sort_by_eq :
    (fun left right : ScoredCandidate S ↦
      decide ((cmp right.score left.score).then (lexCompare left.element right.element) ≠ .gt)) =
    fun left right ↦ decide (left ≤ right) := by
  funext left right
  have h := (ScoredCandidate.compares_cmp left right).eq_gt
  refine decide_eq_decide.2 (Iff.trans (not_congr h) not_lt)

/-- **Flat search is exact.** Whatever the order of the scan, it returns the first `count` of all
candidates, by falling scores and, where these are equal, by elements. -/
theorem flatSearch_exact (score : V → S) (count : ℕ) (candidates : List (Bytes × V))
    (hdistinct : (candidates.map Prod.fst).Nodup) :
    ∃ ranked : List (ScoredCandidate S),
      ranked.Perm (candidates.map (hitOf score)) ∧ ranked.Pairwise RanksBefore ∧
      ∀ scan : List (Bytes × V), scan.Perm candidates →
        flatSearch (fun v ↦ .ok (score v)) count (scan.map .ok) =
          .ok (ranked.take (min count candidates.length)) := by
  obtain ⟨ranked, hperm, hsorted⟩ : ∃ ranked : List (ScoredCandidate S),
      ranked.Perm (candidates.map (hitOf score)) ∧ ranked.Pairwise (· ≤ ·) :=
    ⟨_, List.mergeSort_perm _ _, List.pairwise_mergeSort' (· ≤ ·) _⟩
  have hnodup : ranked.Nodup := by
    refine hperm.nodup_iff.2 (List.Nodup.of_map ScoredCandidate.element ?_)
    rw [List.map_map]
    exact hdistinct
  refine ⟨ranked, hperm, ?_, fun scan hscan ↦ ?_⟩
  · exact (hsorted.and hnodup).imp fun ⟨hle, hne⟩ ↦ ScoredCandidate.lt_iff.1 (lt_of_le_of_ne hle hne)
  have hkept := TopK.keepsBest_foldl (scan.map (hitOf score))
    (⟨[], List.Perm.refl [], (Nat.min_zero count).symm, fun x hx ↦ by cases hx⟩ :
      TopK.KeepsBest count ([] : List (ScoredCandidate S)) [])
  rw [List.append_nil] at hkept
  have htake := TopK.eq_take_of_keepsBest hkept (List.mergeSort_perm _ _)
    (List.pairwise_mergeSort' (· ≤ ·) _)
    (hperm.trans ((hscan.map _).symm.trans (List.reverse_perm _).symm)) hsorted
  have hmin : ranked.take count = ranked.take (min count candidates.length) := by
    rw [List.take_eq_take_iff, hperm.length_eq, List.length_map]
    omega
  rw [flatSearch, foldlM_searchCandidate, sort_by_eq]
  exact congrArg Except.ok (htake.trans hmin)

/-- Three candidates with two scores, and room for two. -/
theorem flatSearch_exact_ties :
    ∃ ranked : List (ScoredCandidate ℕ),
      ranked.Perm ([([2], 7), ([1], 7), ([3], 4)].map (hitOf id)) ∧ ranked.Pairwise RanksBefore ∧
      ∀ scan : List (Bytes × ℕ), scan.Perm [([2], 7), ([1], 7), ([3], 4)] →
        flatSearch (fun v ↦ .ok (id v)) 2 (scan.map .ok) = .ok (ranked.take (min 2 3)) :=
  flatSearch_exact id 2 [([2], 7), ([1], 7), ([3], 4)] (by decide)

end Kiwi.Vectors
