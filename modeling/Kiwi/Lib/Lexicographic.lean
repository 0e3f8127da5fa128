import Mathlib.Data.List.Lex
import Mathlib.Data.Prod.Lex
import Mathlib.Order.Compare
import Mathlib.Order.WithBot
import Mathlib.Tactic.Common

/-!
# Comparing strings field by field

`lexCompare` compares strings over a linear order, and decides their lexicographic order
(`lexCompare_compares`). A string that is made of fields is compared field by field if no value of a
field begins another one (`lexCompare_append`): a field of fixed length, or one in a code in which
no codeword begins another. Filling up with the least symbol does not change a comparison
(`lexCompare_append_replicate`).
-/

namespace Lexicographic

variable {α β : Type*} [LinearOrder α] {u v x y : List α} {n : ℕ}

/-- The lexicographic comparison of two strings. -/
def lexCompare : List α → List α → Ordering
  | [], [] => .eq
  | [], _ :: _ => .lt
  | _ :: _, [] => .gt
  | a :: x, b :: y => (cmp a b).then (lexCompare x y)

theorem lexCompare_cons (a b : α) :
    lexCompare (a :: x) (b :: y) = (cmp a b).then (lexCompare x y) := rfl

theorem lexCompare_nil_cons (b : α) : lexCompare [] (b :: y) = .lt := rfl

theorem compares_then [LinearOrder β] {o₁ o₂ : Ordering} {a c : α} {b d : β} (h₁ : o₁.Compares a c)
    (h₂ : o₂.Compares b d) : (o₁.then o₂).Compares (toLex (a, b)) (toLex (c, d)) := by
  cases o₁ with
  | lt | gt => exact Prod.Lex.toLex_lt_toLex.2 (.inl h₁)
  | eq =>
    obtain rfl : a = c := h₁
    cases o₂ with
    | lt | gt => exact Prod.Lex.toLex_lt_toLex.2 (.inr ⟨rfl, h₂⟩)
    | eq =>
      obtain rfl : b = d := h₂
      rfl

theorem compares_withTop {o : Ordering} {a c : α} (h : o.Compares a c) :
    o.Compares (a : WithTop α) (c : WithTop α) := by
  cases o with
  | lt | gt => exact WithTop.coe_lt_coe.2 h
  | eq => exact congrArg WithTop.some h

theorem lexCompare_compares (x y : List α) : (lexCompare x y).Compares x y := by
  induction x generalizing y with
  | nil =>
    cases y with
    | nil => rfl
    | cons b y => exact List.nil_lt_cons b y
  | cons a x ih =>
    cases y with
    | nil => exact List.nil_lt_cons a x
    | cons b y =>
      rw [lexCompare_cons]
      have hhead := cmp_compares a b
      have htail := ih y
      cases hab : cmp a b with
      | lt | gt =>
        rw [hab] at hhead
        exact List.cons_lt_cons_iff.2 (.inl hhead)
      | eq =>
        obtain rfl : a = b := (cmp_eq_eq_iff a b).1 hab
        rw [Ordering.eq_then]
        cases hxy : lexCompare x y with
        | lt | gt =>
          rw [hxy] at htail
          exact List.cons_lt_cons_iff.2 (.inr ⟨rfl, htail⟩)
        | eq =>
          rw [hxy] at htail
          exact congrArg (a :: ·) htail

@[simp]
theorem lexCompare_self (x : List α) : lexCompare x x = .eq :=
  (lexCompare_compares x x).inj rfl

theorem lexCompare_eq_lt_iff : lexCompare x y = .lt ↔ x < y := (lexCompare_compares x y).eq_lt

theorem lexCompare_eq_eq_iff : lexCompare x y = .eq ↔ x = y := (lexCompare_compares x y).eq_eq

theorem swap_lexCompare : (lexCompare x y).swap = lexCompare y x :=
  (Ordering.compares_swap.2 (lexCompare_compares x y)).inj (lexCompare_compares y x)

/-! ### Fields -/

theorem lexCompare_append_left : lexCompare (u ++ x) (u ++ y) = lexCompare x y := by
  induction u with
  | nil => rfl
  | cons a u ih => rw [List.cons_append, List.cons_append, lexCompare_cons, cmp_self_eq_eq, ih]; rfl

/-- **Field by field.** If neither of two values of a field begins the other one, unless they are
equal, the strings that begin with them are compared by them first. -/
theorem lexCompare_append (huv : u <+: v → u = v) (hvu : v <+: u → v = u) (x y : List α) :
    lexCompare (u ++ x) (v ++ y) = (lexCompare u v).then (lexCompare x y) := by
  induction u generalizing v with
  | nil =>
    obtain rfl := huv List.nil_prefix
    rfl
  | cons a u ih =>
    cases v with
    | nil => exact absurd (hvu List.nil_prefix) (List.cons_ne_nil a u).symm
    | cons b v =>
      rw [List.cons_append, List.cons_append, lexCompare_cons, lexCompare_cons, Ordering.then_assoc]
      cases hab : cmp a b with
      | lt => rfl
      | gt => rfl
      | eq =>
        obtain rfl : a = b := (cmp_eq_eq_iff a b).1 hab
        rw [Ordering.eq_then, Ordering.eq_then]
        refine ih (fun h ↦ ?_) fun h ↦ ?_
        · exact (List.cons.inj (huv (List.cons_prefix_cons.2 ⟨rfl, h⟩))).2
        · exact (List.cons.inj (hvu (List.cons_prefix_cons.2 ⟨rfl, h⟩))).2

/-- What follows after the length of the other string does not matter. -/
theorem lexCompare_take_right (h : x.length < n) : lexCompare x (y.take n) = lexCompare x y := by
  induction x generalizing y n with
  | nil =>
    obtain ⟨n, rfl⟩ : ∃ m, n = m + 1 := ⟨n - 1, by omega⟩
    cases y <;> rfl
  | cons a x ih =>
    obtain ⟨n, rfl⟩ : ∃ m, n = m + 1 := ⟨n - 1, by omega⟩
    cases y with
    | nil => rfl
    | cons b y =>
      rw [List.take_succ_cons, lexCompare_cons, lexCompare_cons, ih (by simpa using h)]

/-! ### Filling up -/

section Bottom

variable {bot : α} (hbot : ∀ a, bot ≤ a)

include hbot

theorem replicate_lt_append (n : ℕ) (hy : y ≠ []) :
    List.replicate n bot < y ++ List.replicate n bot := by
  induction n generalizing y with
  | zero =>
    obtain ⟨b, y, rfl⟩ := List.exists_cons_of_ne_nil hy
    exact List.nil_lt_cons _ _
  | succ n ih =>
    obtain ⟨b, y, rfl⟩ := List.exists_cons_of_ne_nil hy
    rw [List.replicate_succ, List.cons_append, List.cons_lt_cons_iff]
    rcases (hbot b).eq_or_lt with rfl | hb
    · refine Or.inr ⟨rfl, ?_⟩
      rw [List.append_cons]
      exact ih (by simp)
    · exact Or.inl hb

theorem lexCompare_append_replicate (n : ℕ) (x y : List α) :
    lexCompare (x ++ List.replicate n bot) (y ++ List.replicate n bot) = lexCompare x y := by
  induction x generalizing y with
  | nil =>
    cases y with
    | nil => exact lexCompare_self _
    | cons b y => exact lexCompare_eq_lt_iff.2 (replicate_lt_append hbot n (List.cons_ne_nil b y))
  | cons a x ih =>
    cases y with
    | nil =>
      have hlt := lexCompare_eq_lt_iff.2 (replicate_lt_append hbot n (List.cons_ne_nil a x))
      rw [← swap_lexCompare, List.nil_append, hlt]
      rfl
    | cons b y => rw [List.cons_append, List.cons_append, lexCompare_cons, lexCompare_cons, ih]

theorem lexCompare_replicate_ne_gt (n : ℕ) (x : List α) :
    lexCompare x (List.replicate n bot) ≠ .gt ↔ ∃ k ≤ n, x = List.replicate k bot := by
  induction n generalizing x with
  | zero =>
    cases x with
    | nil => exact iff_of_true nofun ⟨0, le_rfl, rfl⟩
    | cons a x =>
      refine iff_of_false (fun h ↦ h rfl) ?_
      rintro ⟨k, hk, heq⟩
      obtain rfl := Nat.le_zero.1 hk
      exact nomatch heq
  | succ n ih =>
    cases x with
    | nil => exact iff_of_true nofun ⟨0, Nat.zero_le _, rfl⟩
    | cons a x =>
      rw [List.replicate_succ, lexCompare_cons]
      rcases (hbot a).eq_or_lt with rfl | hlt
      · rw [cmp_self_eq_eq, Ordering.eq_then, ih]
        constructor
        · rintro ⟨k, hk, rfl⟩
          exact ⟨k + 1, Nat.succ_le_succ hk, rfl⟩
        · rintro ⟨_ | k, hk, heq⟩
          · exact nomatch heq
          · exact ⟨k, Nat.le_of_succ_le_succ hk, (List.cons.inj heq).2⟩
      · rw [(cmp_eq_gt_iff a bot).2 hlt]
        refine iff_of_false (fun h ↦ h rfl) ?_
        rintro ⟨_ | k, hk, heq⟩
        · exact nomatch heq
        · exact hlt.ne' (List.cons.inj heq).1

/-- What is not behind a string that is filled up is not behind the string, or is the string with
some of the filling. -/
theorem lexCompare_append_replicate_ne_gt (n : ℕ) (x y : List α) :
    lexCompare x (y ++ List.replicate n bot) ≠ .gt ↔
      lexCompare x y ≠ .gt ∨ ∃ k, 1 ≤ k ∧ k ≤ n ∧ x = y ++ List.replicate k bot := by
  induction y generalizing x with
  | nil =>
    rw [List.nil_append, lexCompare_replicate_ne_gt hbot]
    constructor
    · rintro ⟨_ | k, hk, rfl⟩
      · exact .inl nofun
      · exact .inr ⟨k + 1, Nat.succ_pos k, hk, rfl⟩
    · rintro (h | ⟨k, -, hk, rfl⟩)
      · cases x with
        | nil => exact ⟨0, Nat.zero_le _, rfl⟩
        | cons a x => exact absurd rfl h
      · exact ⟨k, hk, rfl⟩
  | cons b y ih =>
    cases x with
    | nil => exact iff_of_true nofun (.inl nofun)
    | cons a x =>
      rw [List.cons_append, lexCompare_cons, lexCompare_cons]
      cases hab : cmp a b with
      | lt => exact iff_of_true nofun (.inl nofun)
      | gt =>
        refine iff_of_false (fun h ↦ h rfl) ?_
        rintro (h | ⟨k, -, -, heq⟩)
        · exact h rfl
        · rw [(List.cons.inj heq).1, cmp_self_eq_eq] at hab
          exact nomatch hab
      | eq =>
        obtain rfl : a = b := (cmp_eq_eq_iff a b).1 hab
        simp only [Ordering.eq_then, ih, List.cons_append, List.cons.injEq, true_and]

end Bottom

end Lexicographic
