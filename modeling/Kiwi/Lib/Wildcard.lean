import Mathlib.Data.List.Infix
import Mathlib.Tactic.Common

/-!
# Patterns with stars

A pattern is read one token at a time: a star stands for any run of symbols, every other token for
one symbol that passes its test. How the first token is read off a pattern, `uncons`, is a
parameter.

`Accepts` is the meaning by recursion on the pattern, which tries every run for every star. A
matcher that backtracks to its last star only is right because of `Consumes.star_covers`: once a
pattern with single tokens has been consumed up to the next star, that star reaches everything an
earlier start would reach.
-/

namespace Wildcard

/-- A token of a pattern over symbols in `α`. -/
inductive Token (α : Type*)
  /-- Any run of symbols. -/
  | star
  | one (ok : α → Bool)

variable {P α : Type*} (uncons : P → Option (Token α × P))

/-- The pattern accepts the text. -/
inductive Accepts : P → List α → Prop
  /-- Nothing is left of either. -/
  | nil {p : P} (h : uncons p = none) : Accepts p []
  /-- The star stands for the empty run. -/
  | skip {p q : P} {t : List α} (h : uncons p = some (.star, q)) (hq : Accepts q t) : Accepts p t
  /-- The star takes one more symbol. -/
  | take {p q : P} {c : α} {t : List α} (h : uncons p = some (.star, q)) (hp : Accepts p t) :
      Accepts p (c :: t)
  /-- A single token takes its symbol. -/
  | one {p q : P} {ok : α → Bool} {c : α} {t : List α} (h : uncons p = some (.one ok, q))
      (hc : ok c = true) (hq : Accepts q t) : Accepts p (c :: t)

/-- The pattern up to the rest `q` is `k` single tokens. -/
inductive Consumes : ℕ → P → P → Prop
  | refl (p : P) : Consumes 0 p p
  | one {k : ℕ} {p q r : P} {ok : α → Bool} (hpq : Consumes k p q)
      (h : uncons q = some (.one ok, r)) : Consumes (k + 1) p r

variable {uncons} {p q : P} {s t : List α} {ok : α → Bool} {c : α} {k : ℕ}

/-! ### By the first token -/

theorem accepts_of_none (h : uncons p = none) : Accepts uncons p t ↔ t = [] := by
  constructor
  · intro hp
    cases hp with
    | nil _ => rfl
    | skip h' _ | take h' _ | one h' _ _ => exact absurd (h.symm.trans h') nofun
  · rintro rfl
    exact .nil h

theorem Accepts.star_append (h : uncons p = some (.star, q)) (hp : Accepts uncons p t) :
    ∀ run : List α, Accepts uncons p (run ++ t)
  | [] => hp
  | _ :: run => .take h (hp.star_append h run)

theorem Accepts.star_suffix (h : uncons p = some (.star, q)) (hp : Accepts uncons p s)
    (hst : s <:+ t) : Accepts uncons p t := by
  obtain ⟨run, rfl⟩ := hst
  exact hp.star_append h run

theorem accepts_of_star (h : uncons p = some (.star, q)) :
    Accepts uncons p t ↔ ∃ s, s <:+ t ∧ Accepts uncons q s := by
  constructor
  · intro hp
    induction hp with
    | nil h' => exact absurd (h.symm.trans h') nofun
    | @skip p _ t h' hq =>
      obtain rfl : q = _ := by simpa using h.symm.trans h'
      exact ⟨t, List.suffix_rfl, hq⟩
    | take _ _ ih =>
      obtain ⟨s, hs, hq⟩ := ih h
      exact ⟨s, hs.trans (List.suffix_cons _ _), hq⟩
    | one h' _ _ => exact absurd (h.symm.trans h') (by simp)
  · rintro ⟨s, hs, hq⟩
    exact (Accepts.skip h hq).star_suffix h hs

section

variable (h : uncons p = some (.one ok, q))

include h

theorem accepts_of_one :
    Accepts uncons p t ↔ ∃ c s, t = c :: s ∧ ok c = true ∧ Accepts uncons q s := by
  constructor
  · intro hp
    cases hp with
    | nil h' => exact absurd (h.symm.trans h') nofun
    | skip h' _ | take h' _ => exact absurd (h.symm.trans h') (by simp)
    | @one _ _ _ c t h' hc hq =>
      obtain ⟨rfl, rfl⟩ : ok = _ ∧ q = _ := by simpa using h.symm.trans h'
      exact ⟨c, t, rfl, hc, hq⟩
  · rintro ⟨c, s, rfl, hc, hq⟩
    exact .one h hc hq

theorem accepts_one_cons : Accepts uncons p (c :: t) ↔ ok c = true ∧ Accepts uncons q t := by
  rw [accepts_of_one h]
  constructor
  · rintro ⟨_, _, heq, hc, hq⟩
    obtain ⟨rfl, rfl⟩ := List.cons.inj heq
    exact ⟨hc, hq⟩
  · rintro ⟨hc, hq⟩
    exact ⟨c, t, rfl, hc, hq⟩

theorem not_accepts_one_nil : ¬Accepts uncons p [] := by
  rw [accepts_of_one h]
  rintro ⟨_, _, heq, -⟩
  exact nomatch heq

end

/-! ### Single tokens -/

/-- What a pattern of `k` single tokens accepts has `k` symbols for them. -/
theorem Consumes.accepts_drop (h : Consumes uncons k p q) :
    Accepts uncons p t → k ≤ t.length ∧ Accepts uncons q (t.drop k) := by
  induction h with
  | refl p => exact fun hp ↦ ⟨t.length.zero_le, hp⟩
  | @one k p q r ok _ hone ih =>
    intro hp
    obtain ⟨hk, hq⟩ := ih hp
    obtain ⟨c, s, hdrop, _, hr⟩ := (accepts_of_one hone).1 hq
    have hlength : k + 1 ≤ t.length := by
      have h := congrArg List.length hdrop
      simp only [List.length_drop, List.length_cons] at h
      omega
    have hs : t.drop (k + 1) = s := by rw [← List.drop_drop, hdrop, List.drop_one, List.tail_cons]
    exact ⟨hlength, hs ▸ hr⟩

/-- **The last star is enough.** If single tokens lead from `p` to a star at `q`, then whatever `p`
accepts of a text, started anywhere in it, the star accepts as well after the first `k` symbols. -/
theorem Consumes.star_covers (h : Consumes uncons k p q) {r : P} (hq : uncons q = some (.star, r))
    (hst : s <:+ t) (hp : Accepts uncons p s) : Accepts uncons q (t.drop k) := by
  obtain ⟨_, hq'⟩ := h.accepts_drop hp
  obtain ⟨run, rfl⟩ := hst
  refine hq'.star_suffix hq ?_
  -- the first `k` symbols of the whole end before the first `k` symbols after the run do
  rw [List.drop_append]
  refine ⟨run.drop k ++ (s.drop (k - run.length)).take (k - (k - run.length)), ?_⟩
  rw [List.append_assoc]
  congr 1
  have hk : s.drop k = (s.drop (k - run.length)).drop (k - (k - run.length)) := by
    rw [List.drop_drop]
    congr 1
    omega
  rw [hk, List.take_append_drop]

end Wildcard
