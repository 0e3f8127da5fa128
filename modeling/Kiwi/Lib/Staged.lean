import Mathlib.Data.Set.Basic
import Mathlib.Order.Compare
import Mathlib.Tactic.Common

/-!
# Comparing in stages

A comparator that looks at one part of its keys after the other, and compares the whole keys as soon
as one of them has no such part. The order of the whole keys need not be the order of their parts,
so such a comparator can go round in a circle.

`transitive_iff` says exactly when: a key that is compared as a whole lies between two keys whose
parts are in the other order. Nothing is assumed about how the two orders are related.
-/

/-- A part of a key, in an order of its own, that not every key has. -/
structure Stage (K : Type) where
  /-- What the part is. -/
  {Part : Type}
  [order : LinearOrder Part]
  /-- The part of a key. -/
  part : K → Option Part

namespace Stage

attribute [instance] Stage.order

variable {K : Type} [LinearOrder K] (ss : List (Stage K)) {a b c p q w : K}

/-- The comparison by the parts. -/
def compare : List (Stage K) → K → K → Ordering
  | [], _, _ => .eq
  | s :: ss, a, b =>
    match s.part a, s.part b with
    | some x, some y => (cmp x y).then (compare ss a b)
    | _, _ => cmp a b

/-- The keys are compared as a whole: they have the same parts up to one that one of them lacks. -/
def FallsBack : List (Stage K) → K → K → Prop
  | [], _, _ => False
  | s :: ss, a, b =>
    match s.part a, s.part b with
    | some x, some y => x = y ∧ FallsBack ss a b
    | _, _ => True

theorem compare_nil (a b : K) : compare [] a b = .eq := rfl

theorem compare_cons (s : Stage K) (a b : K) :
    compare (s :: ss) a b =
      match s.part a, s.part b with
      | some x, some y => (cmp x y).then (compare ss a b)
      | _, _ => cmp a b := rfl

theorem swap_compare (a b : K) : (compare ss a b).swap = compare ss b a := by
  induction ss with
  | nil => rfl
  | cons s ss ih =>
    rw [compare_cons, compare_cons]
    cases s.part a with
    | none => cases s.part b <;> exact cmp_swap a b
    | some x =>
      cases s.part b with
      | none => exact cmp_swap a b
      | some y =>
        show ((cmp x y).then (compare ss a b)).swap = (cmp y x).then (compare ss b a)
        rw [Ordering.swap_then, cmp_swap, ih]

variable {ss}

theorem compare_of_fallsBack (h : FallsBack ss a b) : compare ss a b = cmp a b := by
  induction ss with
  | nil => exact h.elim
  | cons s ss ih =>
    rw [FallsBack] at h
    rw [compare_cons]
    cases ha : s.part a with
    | none => rfl
    | some x =>
      cases hb : s.part b with
      | none => rfl
      | some y =>
        rw [ha, hb] at h
        obtain ⟨rfl, h⟩ := h
        show (cmp x x).then _ = _
        rw [cmp_self_eq_eq, Ordering.eq_then, ih h]

theorem compare_ne_gt_iff_of_fallsBack (h : FallsBack ss a b) :
    compare ss a b ≠ .gt ↔ a ≤ b := by
  rw [compare_of_fallsBack h, Ne, cmp_eq_gt_iff, not_lt]

theorem compare_eq_gt_iff_of_fallsBack (h : FallsBack ss a b) :
    compare ss a b = .gt ↔ b < a := by
  rw [compare_of_fallsBack h, cmp_eq_gt_iff]

/-! ### A part that the keys of a kind lack -/

section Partial

variable {V : Type} [LinearOrder V] (lacks : K → Prop) [DecidablePred lacks] (f : K → V)

/-- The stage of a part that some keys lack. -/
def ofPart : Stage K := ⟨fun a ↦ if lacks a then none else some (f a)⟩

theorem compare_cons_ofPart (a b : K) :
    compare (ofPart lacks f :: ss) a b =
      if lacks a ∨ lacks b then cmp a b else (cmp (f a) (f b)).then (compare ss a b) := by
  have hpart (x : K) : (ofPart lacks f).part x = if lacks x then none else some (f x) := rfl
  rw [compare_cons, hpart, hpart]
  by_cases ha : lacks a
  · rw [if_pos (Or.inl ha : lacks a ∨ lacks b), if_pos ha]
  · by_cases hb : lacks b
    · rw [if_pos (Or.inr hb : lacks a ∨ lacks b), if_neg ha, if_pos hb]
    · rw [if_neg (not_or.2 ⟨ha, hb⟩), if_neg ha, if_neg hb]
      rfl

omit [LinearOrder K] in
theorem fallsBack_cons_ofPart (a b : K) :
    FallsBack (ofPart lacks f :: ss) a b ↔
      lacks a ∨ lacks b ∨ f a = f b ∧ FallsBack ss a b := by
  rw [FallsBack, ofPart]
  by_cases ha : lacks a
  · simp [ha]
  · by_cases hb : lacks b <;> simp [ha, hb]

end Partial

/-! ### Circles -/

/-- The key `w` is compared as a whole with `p` and `q`, and lies between them against their parts.
-/
structure Circle (ss : List (Stage K)) (p q w : K) : Prop where
  parts : ¬FallsBack ss p q
  left : FallsBack ss q w
  right : FallsBack ss w p
  atMost : compare ss p q ≠ .gt
  lt_cut : q < w
  cut_lt : w < p

section

variable {s : Stage K}

omit [LinearOrder K] in
theorem fallsBack_of_none (h : s.part a = none) : FallsBack (s :: ss) a b := by
  rw [FallsBack, h]
  trivial

omit [LinearOrder K] in
theorem fallsBack_of_none_right (h : s.part b = none) : FallsBack (s :: ss) a b := by
  rw [FallsBack, h]
  cases s.part a <;> trivial

theorem compare_cons_of_some {x y : s.Part} (ha : s.part a = some x) (hb : s.part b = some y) :
    compare (s :: ss) a b = (cmp x y).then (compare ss a b) := by
  rw [compare_cons, ha, hb]

omit [LinearOrder K] in
theorem fallsBack_cons_of_some {x : s.Part} (ha : s.part a = some x) (hb : s.part b = some x) :
    FallsBack (s :: ss) a b ↔ FallsBack ss a b := by
  rw [FallsBack, ha, hb]
  exact and_iff_right rfl

theorem Circle.cons {x : s.Part} (hp : s.part p = some x) (hq : s.part q = some x)
    (hw : s.part w = some x) (h : Circle ss p q w) : Circle (s :: ss) p q w where
  parts := (fallsBack_cons_of_some hp hq).not.2 h.parts
  left := (fallsBack_cons_of_some hq hw).2 h.left
  right := (fallsBack_cons_of_some hw hp).2 h.right
  atMost := by
    rw [compare_cons_of_some hp hq, cmp_self_eq_eq, Ordering.eq_then]
    exact h.atMost
  lt_cut := h.lt_cut
  cut_lt := h.cut_lt

end

theorem le_of_then_ne_gt {V : Type} [LinearOrder V] {x y : V} {o : Ordering}
    (h : (cmp x y).then o ≠ .gt) : x ≤ y := by
  by_contra hlt
  rw [(cmp_eq_gt_iff x y).2 (not_le.1 hlt)] at h
  exact h rfl

/-- Three keys that are not compared transitively: one of them is compared as a whole with the two
others, and lies between them. The three circles are the places the cut key can have. -/
theorem circle_of_not_transitive (hab : compare ss a b ≠ .gt) (hbc : compare ss b c ≠ .gt)
    (hac : compare ss a c = .gt) :
    Circle ss a b c ∨ Circle ss b c a ∨ Circle ss c a b := by
  induction ss with
  | nil =>
    exact Ordering.noConfusion hac
  | cons s ss ih =>
    -- two keys that lack the part, or the one that does, are compared as a whole with all others
    have hne : ∀ {x y : K}, s.part x = none → s.part y ≠ none → x ≠ y := by
      rintro x y hx hy rfl
      exact hy hx
    by_cases ha : s.part a = none
    · have hab' := (compare_ne_gt_iff_of_fallsBack (fallsBack_of_none ha)).1 hab
      have hca := (compare_eq_gt_iff_of_fallsBack (fallsBack_of_none ha)).1 hac
      have hbc' : ¬FallsBack (s :: ss) b c := fun h ↦
        absurd ((compare_ne_gt_iff_of_fallsBack h).1 hbc) (not_le.2 (hca.trans_le hab'))
      have hb : s.part b ≠ none := fun h ↦ hbc' (fallsBack_of_none h)
      exact .inr (.inl ⟨hbc', fallsBack_of_none_right ha, fallsBack_of_none ha, hbc, hca,
        lt_of_le_of_ne hab' (hne ha hb)⟩)
    by_cases hb : s.part b = none
    · have hab' := (compare_ne_gt_iff_of_fallsBack (fallsBack_of_none_right hb)).1 hab
      have hbc' := (compare_ne_gt_iff_of_fallsBack (fallsBack_of_none hb)).1 hbc
      have hca : ¬FallsBack (s :: ss) c a := by
        intro h
        have hlt : compare (s :: ss) c a = .lt := by rw [← swap_compare, hac, Ordering.swap_gt]
        rw [compare_of_fallsBack h, cmp_eq_lt_iff] at hlt
        exact absurd (hab'.trans hbc') (not_le.2 hlt)
      have hc : s.part c ≠ none := fun h ↦ hca (fallsBack_of_none h)
      refine .inr (.inr ⟨hca, fallsBack_of_none_right hb, fallsBack_of_none hb, ?_,
        lt_of_le_of_ne hab' (hne hb ha).symm, lt_of_le_of_ne hbc' (hne hb hc)⟩)
      rw [← swap_compare, hac, Ordering.swap_gt]
      exact Ordering.noConfusion
    by_cases hc : s.part c = none
    · have hbc' := (compare_ne_gt_iff_of_fallsBack (fallsBack_of_none_right hc)).1 hbc
      have hca := (compare_eq_gt_iff_of_fallsBack (fallsBack_of_none_right hc)).1 hac
      have hab' : ¬FallsBack (s :: ss) a b := fun h ↦
        absurd ((compare_ne_gt_iff_of_fallsBack h).1 hab) (not_le.2 (hbc'.trans_lt hca))
      exact .inl ⟨hab', fallsBack_of_none_right hc, fallsBack_of_none hc, hab,
        lt_of_le_of_ne hbc' (hne hc hb).symm, hca⟩
    -- all have the part: it is the same in all three, or decides
    obtain ⟨x, ha⟩ := Option.ne_none_iff_exists'.1 ha
    obtain ⟨y, hb⟩ := Option.ne_none_iff_exists'.1 hb
    obtain ⟨z, hc⟩ := Option.ne_none_iff_exists'.1 hc
    rw [compare_cons_of_some ha hb] at hab
    rw [compare_cons_of_some hb hc] at hbc
    rw [compare_cons_of_some ha hc] at hac
    have hxy : x ≤ y := le_of_then_ne_gt hab
    have hyz : y ≤ z := le_of_then_ne_gt hbc
    have hzx : z ≤ x := by
      by_contra hlt
      rw [(cmp_eq_lt_iff x z).2 (not_le.1 hlt)] at hac
      exact Ordering.noConfusion hac
    obtain rfl : x = y := le_antisymm hxy (hyz.trans hzx)
    obtain rfl : x = z := le_antisymm hyz hzx
    rw [cmp_self_eq_eq, Ordering.eq_then] at hab hbc hac
    exact (ih hab hbc hac).imp (.cons ha hb hc) (.imp (.cons hb hc ha) (.cons hc ha hb))

/-- **A comparison in stages is transitive exactly without circles**, on any set of keys. -/
theorem transitive_iff (S : Set K) :
    (∀ a ∈ S, ∀ b ∈ S, ∀ c ∈ S, compare ss a b ≠ .gt → compare ss b c ≠ .gt →
      compare ss a c ≠ .gt) ↔ ∀ p ∈ S, ∀ q ∈ S, ∀ w ∈ S, ¬Circle ss p q w := by
  constructor
  · rintro htrans p hp q hq w hw ⟨-, hleft, hright, hpq, hlt, hcut⟩
    refine htrans p hp q hq w hw hpq ((compare_ne_gt_iff_of_fallsBack hleft).2 hlt.le) ?_
    rw [← swap_compare, compare_of_fallsBack hright, (cmp_eq_lt_iff w p).2 hcut, Ordering.swap_lt]
  · intro hnone a ha b hb c hc hab hbc hac
    rcases circle_of_not_transitive hab hbc hac with h | h | h
    · exact hnone a ha b hb c hc h
    · exact hnone b hb c hc a ha h
    · exact hnone c hc a ha b hb h

end Stage
