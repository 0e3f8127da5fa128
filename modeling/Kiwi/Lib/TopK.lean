import Mathlib.Data.List.Sort
import Mathlib.Order.MinMax

/-!
# The best elements of a stream

`keepBest count` keeps the `count` least elements of those it was given, by throwing out the
greatest one of what it keeps when a smaller one comes. Whatever the order of the stream, what is
kept at the end are the first `count` elements of the sorted stream (`eq_take_of_keepsBest`).

The invariant splits what was given in what is kept and the rest, with nothing in the rest below
something that is kept (`KeepsBest`).
-/

namespace TopK

variable {α : Type*} [LinearOrder α] {count : ℕ} {kept given : List α}

/-- One element of the stream, for a bounded heap with the greatest element on top. -/
def keepBest (count : ℕ) (kept : List α) (x : α) : List α :=
  if kept.length < count then x :: kept
  else
    match kept.max? with
    | none => kept
    | some worst => if x < worst then x :: kept.erase worst else kept

/-- The kept elements are the best ones of those that were given. -/
def KeepsBest (count : ℕ) (kept given : List α) : Prop :=
  ∃ rest, (kept ++ rest).Perm given ∧ kept.length = min count given.length ∧
    ∀ x ∈ kept, ∀ y ∈ rest, x ≤ y

/-- **One element.** -/
theorem KeepsBest.step (h : KeepsBest count kept given) (x : α) :
    KeepsBest count (keepBest count kept x) (x :: given) := by
  obtain ⟨rest, hperm, hlength, hle⟩ := h
  have hsum := hperm.length_eq
  rw [List.length_append] at hsum
  rw [keepBest]
  split_ifs with hroom
  · -- there is room as long as everything is kept
    have hrest : rest = [] := List.eq_nil_of_length_eq_zero (by omega)
    refine ⟨rest, hperm.cons x, ?_, fun y _ z hz ↦ ?_⟩
    · rw [List.length_cons, List.length_cons]
      omega
    · rw [hrest] at hz
      cases hz
  have hkept : (kept ++ x :: rest).Perm (x :: given) := List.perm_middle.trans (hperm.cons x)
  cases hmax : kept.max? with
  | none =>
    obtain rfl := List.max?_eq_none_iff.1 hmax
    refine ⟨x :: rest, hkept, ?_, fun y hy ↦ by cases hy⟩
    rw [List.length_cons]
    simp only [List.length_nil] at hlength hroom ⊢
    omega
  | some worst =>
    obtain ⟨hworst, hall⟩ := List.max?_eq_some_iff.1 hmax
    dsimp only
    split_ifs with hlt
    · have hpos := List.length_pos_of_mem hworst
      refine ⟨worst :: rest, ?_, ?_, fun y hy z hz ↦ ?_⟩
      · have hback : (kept.erase worst ++ worst :: rest).Perm (kept ++ rest) :=
          List.perm_middle.trans ((List.perm_cons_erase hworst).symm.append_right rest)
        exact (hback.trans hperm).cons x
      · rw [List.length_cons, List.length_cons, List.length_erase_of_mem hworst]
        omega
      · have hy' : y ≤ worst := by
          rcases List.mem_cons.1 hy with rfl | hy
          · exact hlt.le
          · exact hall y (List.mem_of_mem_erase hy)
        rcases List.mem_cons.1 hz with rfl | hz
        · exact hy'
        · exact hy'.trans (hle worst hworst z hz)
    · refine ⟨x :: rest, hkept, ?_, fun y hy z hz ↦ ?_⟩
      · rw [List.length_cons]
        omega
      · rcases List.mem_cons.1 hz with rfl | hz
        · exact (hall y hy).trans (not_lt.1 hlt)
        · exact hle y hy z hz

/-- **A whole stream.** -/
theorem keepsBest_foldl (stream : List α) (h : KeepsBest count kept given) :
    KeepsBest count (stream.foldl (keepBest count) kept) (stream.reverse ++ given) := by
  induction stream generalizing kept given with
  | nil => exact h
  | cons x stream ih =>
    rw [List.foldl_cons, List.reverse_cons, List.append_assoc]
    exact ih (h.step x)

/-- **What is kept is the beginning of the sorted stream.** -/
theorem eq_take_of_keepsBest (h : KeepsBest count kept given) {best sorted : List α}
    (hbest : best.Perm kept) (hbest' : best.Pairwise (· ≤ ·)) (hsorted : sorted.Perm given)
    (hsorted' : sorted.Pairwise (· ≤ ·)) : best = sorted.take count := by
  obtain ⟨rest, hperm, hlength, hle⟩ := h
  have hrest : (rest.mergeSort (· ≤ ·)).Pairwise (· ≤ ·) := List.pairwise_mergeSort' (· ≤ ·) rest
  have hall : sorted = best ++ rest.mergeSort (· ≤ ·) := by
    refine List.Perm.eq_of_pairwise' hsorted' ?_ (hsorted.trans (hperm.symm.trans
      (hbest.symm.append (List.mergeSort_perm rest _).symm)))
    refine List.pairwise_append.2 ⟨hbest', hrest, fun x hx y hy ↦ ?_⟩
    exact hle x (hbest.subset hx) y ((List.mergeSort_perm rest _).subset hy)
  have hcount : best.length = min count sorted.length := by
    rw [hbest.length_eq, hlength, hsorted.length_eq]
  rw [hall, List.length_append] at hcount
  rw [hall]
  rcases Nat.lt_or_ge best.length count with hlt | hle
  · have hnil : rest.mergeSort (· ≤ ·) = [] := List.eq_nil_of_length_eq_zero (by omega)
    rw [hnil, List.append_nil, List.take_of_length_le hlt.le]
  · rw [List.take_append_of_le_length hle, List.take_of_length_le (by omega)]

end TopK
