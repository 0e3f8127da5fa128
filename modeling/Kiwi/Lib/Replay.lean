import Kiwi.Lib.Database

/-!
# Replaying a log of write batches

A database is built by applying the batches of a log in order. A process that loses track of how far
it got resumes from an earlier position and applies some batches again, on contents that are already
newer. In between the contents are no prefix of the log, but every location holds the value of
*some* prefix that is at least as long as the position says (`Replayed`). Applying the next batch
keeps that, going back to an earlier position keeps it, and at the end of the log only one prefix is
left, so the contents are those of the whole log (`Replayed.eq_upTo`).
-/

namespace Database

variable {C K V : Type*} [DecidableEq C] [LinearOrder K]

/-- The contents after the first `i` batches, each applied once. -/
def upTo (batches : List (List (WriteOp C K V))) (i : ℕ) : Database C K V :=
  empty.write (batches.take i).flatten

variable {batch : List (WriteOp C K V)}

theorem upTo_succ {batches : List (List (WriteOp C K V))} {i : ℕ}
    (h : batches[i]? = some batch) : upTo batches (i + 1) = (upTo batches i).write batch := by
  rw [upTo, upTo, List.take_add_one, h, List.flatten_append, write_append]
  simp

theorem upTo_length (batches : List (List (WriteOp C K V))) :
    upTo batches batches.length = empty.write batches.flatten := by
  rw [upTo, List.take_length]

/-- Every location holds the value of a prefix of the log that reaches position `p`. -/
def Replayed (batches : List (List (WriteOp C K V))) (p : ℕ) (db : Database C K V) : Prop :=
  ∀ cf key, ∃ i, p ≤ i ∧ i ≤ batches.length ∧ (db cf).get key = (upTo batches i cf).get key

namespace Replayed

variable {batches : List (List (WriteOp C K V))} {p : ℕ} {db : Database C K V}

theorem empty (batches : List (List (WriteOp C K V))) :
    Replayed batches 0 (Database.empty : Database C K V) :=
  fun _ _ ↦ ⟨0, le_rfl, Nat.zero_le _, rfl⟩

theorem mono (h : Replayed batches p db) {q : ℕ} (hq : q ≤ p) : Replayed batches q db := by
  intro cf key
  obtain ⟨i, hp, hi, hget⟩ := h cf key
  exact ⟨i, hq.trans hp, hi, hget⟩

/-- **One batch.** Applying the batch at the position advances it, whether or not the batch was
applied before. -/
theorem write (h : Replayed batches p db)
    (hbatch : batches[p]? = some batch) : Replayed batches (p + 1) (db.write batch) := by
  have hp : p < batches.length := (List.getElem?_eq_some_iff.1 hbatch).1
  intro cf key
  by_cases huntouched : Untouched batch cf key
  · obtain ⟨i, hpi, hi, hget⟩ := h cf key
    rw [get_write_of_untouched huntouched, hget]
    rcases hpi.eq_or_lt with rfl | hlt
    · refine ⟨p + 1, le_rfl, hp, ?_⟩
      rw [upTo_succ hbatch, get_write_of_untouched huntouched]
    · exact ⟨i, hlt, hi, rfl⟩
  · refine ⟨p + 1, le_rfl, hp, ?_⟩
    rw [upTo_succ hbatch]
    exact get_write_congr _ _ huntouched

/-- **Convergence.** At the end of the log the contents are those of the whole log. -/
theorem eq_upTo (h : Replayed batches batches.length db) : db = upTo batches batches.length := by
  refine ext_get fun cf key ↦ ?_
  obtain ⟨i, hpi, hi, hget⟩ := h cf key
  rw [hget, le_antisymm hi hpi]

end Replayed

end Database
