import Mathlib.Algebra.Order.Ring.Int
import Mathlib.Data.List.Basic
import Mathlib.Tactic.Common

/-!
# Ranges of positions

The part of a list between two positions. Positions are integers: a range may start before the list
or end after it, and a negative position may stand for one that is counted from the end (`fromEnd`).
`between lo hi xs` lists the elements at the positions from `lo` to `hi`, both included, and
`slice start stop xs` does so for positions that may be counted from the end.

A range is a `drop` of a `take` (`between_eq_drop_take`), which is how programs compute it, and a
range of the reversed list is the reverse of the mirrored range (`reverse_between`).
-/

namespace Positions

variable {α β : Type*}

/-- The elements at the positions from `lo` to `hi`. -/
def between (lo hi : ℤ) (xs : List α) : List α :=
  (xs.zipIdx.filter fun p ↦ lo ≤ p.2 ∧ (p.2 : ℤ) ≤ hi).map Prod.fst

/-- A position of a list of `n` elements that is counted from the end when it is negative. -/
def fromEnd (n : ℕ) (i : ℤ) : ℤ := if i < 0 then i + n else i

/-- The elements at the positions from `start` to `stop`, each counted from the end when it is
negative, that the list has. -/
def slice (start stop : ℤ) (xs : List α) : List α :=
  between (max 0 (fromEnd xs.length start)) (min (xs.length - 1) (fromEnd xs.length stop)) xs

variable (lo hi : ℤ)

theorem map_filter_zipIdx (xs : List α) (k : ℕ) :
    ((xs.zipIdx k).filter fun p ↦ lo ≤ p.2 ∧ (p.2 : ℤ) ≤ hi).map Prod.fst =
      (xs.take (hi + 1 - k).toNat).drop (lo - k).toNat := by
  induction xs generalizing k with
  | nil => simp
  | cons x xs ih =>
    have ih := ih (k + 1)
    rw [List.zipIdx_cons]
    by_cases hhi : hi < k
    · -- the range ends before the list
      have hzero : (hi + 1 - k).toNat = 0 := by omega
      have hzero' : (hi + 1 - (k + 1 : ℕ)).toNat = 0 := by omega
      rw [hzero'] at ih
      rw [List.filter_cons_of_neg (by simp; omega), ih, hzero]
      simp
    · obtain ⟨n, hn⟩ : ∃ n, (hi + 1 - k).toNat = n + 1 := ⟨(hi - k).toNat, by omega⟩
      have hn' : (hi + 1 - (k + 1 : ℕ)).toNat = n := by omega
      rw [hn'] at ih
      rw [hn, List.take_succ_cons]
      by_cases hlo : lo ≤ k
      · have hzero : (lo - k).toNat = 0 := by omega
        have hzero' : (lo - (k + 1 : ℕ)).toNat = 0 := by omega
        rw [hzero'] at ih
        rw [List.filter_cons_of_pos (by simp; omega), List.map_cons, ih, hzero]
        simp
      · obtain ⟨j, hj⟩ : ∃ j, (lo - k).toNat = j + 1 := ⟨(lo - k - 1).toNat, by omega⟩
        have hj' : (lo - (k + 1 : ℕ)).toNat = j := by omega
        rw [hj'] at ih
        rw [List.filter_cons_of_neg (by simp; omega), ih, hj, List.drop_succ_cons]

variable {xs : List α}

theorem between_eq_drop_take : between lo hi xs = (xs.take (hi + 1).toNat).drop lo.toNat := by
  have h := map_filter_zipIdx lo hi xs 0
  rw [Int.natCast_zero, Int.sub_zero, Int.sub_zero] at h
  exact h

theorem filterMap_getElem?_range (n : ℕ) :
    (List.range n).filterMap (fun i ↦ xs[i]?) = xs.take n := by
  induction n with
  | zero => rfl
  | succ n ih =>
    rw [List.range_succ, List.filterMap_append, ih, List.take_add_one, List.filterMap_cons,
      List.filterMap_nil]
    rcases xs[n]? with _ | x <;> rfl

theorem length_between : (between lo hi xs).length = min (hi + 1).toNat xs.length - lo.toNat := by
  rw [between_eq_drop_take, List.length_drop, List.length_take]

theorem between_eq_nil {lo hi : ℤ} (h : hi < lo ∨ hi < 0 ∨ xs.length ≤ lo) :
    between lo hi xs = [] := by
  rw [← List.length_eq_zero_iff, length_between]
  omega

theorem between_congr {lo hi lo' hi' : ℤ} (hlo : lo.toNat = lo'.toNat)
    (hhi : min (hi + 1).toNat xs.length = min (hi' + 1).toNat xs.length) :
    between lo hi xs = between lo' hi' xs := by
  have htake : xs.take (hi + 1).toNat = xs.take (hi' + 1).toNat := List.take_eq_take_iff.2 hhi
  rw [between_eq_drop_take, between_eq_drop_take, hlo, htake]

theorem slice_eq_between (start stop : ℤ) :
    slice start stop xs = between (fromEnd xs.length start) (fromEnd xs.length stop) xs := by
  refine between_congr ?_ ?_ <;> omega

theorem map_between (f : α → β) (lo hi : ℤ) :
    (between lo hi xs).map f = between lo hi (xs.map f) := by
  rw [between_eq_drop_take, between_eq_drop_take, List.map_drop, List.map_take]

theorem reverse_between :
    (between lo hi xs).reverse =
      between (xs.length - 1 - hi) (xs.length - 1 - lo) xs.reverse := by
  rw [between_eq_drop_take, between_eq_drop_take, List.reverse_drop, List.reverse_take,
    List.length_take, List.drop_take]
  have hdrop : xs.length - (hi + 1).toNat = (xs.length - 1 - hi).toNat ∨ hi < 0 := by omega
  rcases hdrop with hdrop | hneg
  · rw [hdrop]
    refine List.take_eq_take_iff.2 ?_
    rw [List.length_drop, List.length_reverse]
    omega
  · -- the range ends before the list
    rw [List.take_eq_nil_iff.2 (by left; omega), List.drop_eq_nil_of_le, List.take_nil]
    rw [List.length_reverse]
    omega

end Positions
