import Kiwi.Lib.Lexicographic
import Kiwi.Lib.TopK
import Kiwi.Storage.Redis

/-!
# Vector search

`VectorSearchEngine::flat_search` scores every candidate and keeps the best ones in a heap, whose
order has the candidate with the lowest score on top. Similarity is any function with scores in a
linear order, as `total_cmp` gives one. A heap is the list of its elements in some order: `peek`
returns the greatest one and `pop` takes it out, and at the end all are sorted.
-/

namespace Kiwi.Vectors

open Lexicographic

variable {V S : Type}

/-- `ScoredCandidate`, and `VectorHit`, which has the same fields. -/
@[ext]
structure ScoredCandidate (S : Type) where
  element : Bytes
  score : S
  deriving DecidableEq, Repr

/-- `ScoredCandidate::cmp`: lower scores are greater. -/
def scoredCandidateCmp [LinearOrder S] (a b : ScoredCandidate S) : Ordering :=
  (cmp b.score a.score).then (lexCompare a.element b.element)

namespace ScoredCandidate

/-- What the order of candidates compares. -/
def toProd (a : ScoredCandidate S) : Sᵒᵈ ×ₗ Bytes := toLex (OrderDual.toDual a.score, a.element)

theorem toProd_injective : Function.Injective (toProd (S := S)) := by
  intro a b h
  obtain ⟨hscore, helement⟩ := Prod.mk.inj (toLex_inj.1 h)
  exact ScoredCandidate.ext helement (OrderDual.toDual_inj.1 hscore)

variable [LinearOrder S]

instance : LinearOrder (ScoredCandidate S) := LinearOrder.lift' toProd toProd_injective

theorem lt_iff {a b : ScoredCandidate S} :
    a < b ↔ b.score < a.score ∨ a.score = b.score ∧ a.element < b.element := by
  show toProd a < toProd b ↔ _
  rw [toProd, toProd, Prod.Lex.toLex_lt_toLex, OrderDual.toDual_lt_toDual, OrderDual.toDual_inj]

/-- The order is the comparison of the source. -/
theorem compares_cmp (a b : ScoredCandidate S) :
    (scoredCandidateCmp a b).Compares (toProd a) (toProd b) := by
  have hscore : (cmp b.score a.score).Compares (OrderDual.toDual a.score)
      (OrderDual.toDual b.score) := cmp_compares (OrderDual.toDual a.score) _
  exact compares_then hscore (lexCompare_compares a.element b.element)

end ScoredCandidate

variable [LinearOrder S]

/-- The loop of `flat_search` for one candidate. -/
def searchCandidate (score : V → Except Error S) (count : ℕ) (heap : List (ScoredCandidate S))
    (candidate : Except Error (Bytes × V)) : Except Error (List (ScoredCandidate S)) := do
  let (element, vector) ← candidate
  let score ← score vector
  return TopK.keepBest count heap ⟨element, score⟩

def flatSearch (score : V → Except Error S) (count : ℕ)
    (candidates : List (Except Error (Bytes × V))) : Except Error (List (ScoredCandidate S)) := do
  let heap ← candidates.foldlM (searchCandidate score count) []
  return heap.mergeSort fun left right ↦
    (cmp right.score left.score).then (lexCompare left.element right.element) ≠ .gt

end Kiwi.Vectors
