import Kiwi.Storage.Redis
import Mathlib.Algebra.Group.Action.Defs
import Mathlib.Algebra.Order.Ring.Rat

/-!
# Exact scores

Scores with exact arithmetic: the rational numbers, and the two infinities below and above them. The
infinities are the ends of the order, as they are for `f64`. Sums and products with an infinity are
not modelled beyond that: they are the infinity.
-/

namespace Kiwi

/-- A rational number or an infinity. -/
inductive ExactScore
  | negInfinity
  | finite (q : ℚ)
  | infinity
  deriving DecidableEq

namespace ExactScore

/-- The place of a score in the order: the infinities are on either side of all numbers. -/
def toProd : ExactScore → ℤ ×ₗ ℚ
  | negInfinity => toLex (-1, 0)
  | finite q => toLex (0, q)
  | infinity => toLex (1, 0)

theorem toProd_injective : Function.Injective toProd := by
  rintro (_ | a | _) (_ | b | _) h <;> simp_all [toProd]

instance : LinearOrder ExactScore := LinearOrder.lift' toProd toProd_injective

theorem le_def {a b : ExactScore} : a ≤ b ↔ toProd a ≤ toProd b := Iff.rfl

variable {a b : ℚ}

@[simp] theorem finite_le_finite : finite a ≤ finite b ↔ a ≤ b := by
  simp [le_def, toProd, Prod.Lex.toLex_le_toLex]

theorem le_infinity (a : ExactScore) : a ≤ infinity := by
  rcases a with _ | q | _ <;> simp [le_def, toProd, Prod.Lex.toLex_le_toLex]

theorem negInfinity_le (a : ExactScore) : negInfinity ≤ a := by
  rcases a with _ | q | _ <;> simp [le_def, toProd, Prod.Lex.toLex_le_toLex]

/-- The sum, exact for numbers. -/
def add : ExactScore → ExactScore → ExactScore
  | finite a, finite b => finite (a + b)
  | finite _, b => b
  | a, _ => a

/-- Numbers are added to scores. -/
instance : AddAction ℚ ExactScore where
  vadd q s := s.add (finite q)
  zero_vadd s := by
    rcases s with _ | a | _
    · rfl
    · exact congrArg finite (add_zero a)
    · rfl
  add_vadd p q s := by
    rcases s with _ | a | _
    · rfl
    · show finite (a + (p + q)) = finite (a + q + p)
      rw [add_comm p q, add_assoc]
    · rfl

/-- The product, exact for numbers. -/
def mul : ExactScore → ExactScore → ExactScore
  | finite a, finite b => finite (a * b)
  | finite _, b => b
  | a, _ => a

/-- The text of a score: an integer, or a fraction. -/
def format : ExactScore → Bytes
  | negInfinity => [0x2D, 0x69, 0x6E, 0x66]
  | finite q => formatI64 q.num ++ if q.den = 1 then [] else 0x2F :: formatI64 q.den
  | infinity => [0x69, 0x6E, 0x66]

instance : Score ExactScore where
  add := add
  mul := mul
  zero := finite 0
  one := finite 1
  infinity := infinity
  negInfinity := negInfinity
  isNan _ := false
  isInfinite a := a == negInfinity || a == infinity
  near a b := a == b
  parse text := (parseI64 text).map fun n ↦ finite n
  format := format

theorem min_finite : min (finite a) (finite b) = finite (min a b) := by
  rcases le_total a b with h | h
  · rw [min_eq_left (finite_le_finite.2 h), min_eq_left h]
  · rw [min_eq_right (finite_le_finite.2 h), min_eq_right h]

theorem max_finite : max (finite a) (finite b) = finite (max a b) := by
  rcases le_total a b with h | h
  · rw [max_eq_right (finite_le_finite.2 h), max_eq_right h]
  · rw [max_eq_left (finite_le_finite.2 h), max_eq_left h]

end ExactScore

end Kiwi
