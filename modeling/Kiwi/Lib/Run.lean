import Mathlib.Tactic.Common

/-!
# Guarded runs

A deterministic system takes one action after another. `Run.final` is where a list of actions
leads, and `Run.Allowed ok` says that every action of the list satisfies the guard `ok` *in the
state in which it is taken* — a guard may look at the state, so that it can say things such as "the
clock has advanced since the last action".

Two rules carry every induction over runs:

* `Run.invariant` — what one allowed action preserves holds at the end of every allowed run;
* `Run.Allowed.strengthen` — if, under an invariant, every allowed action also satisfies `ok'`, then
  every action of an allowed run does. With `ok'` a statement about the answer of the action, this
  is how a property of single answers becomes one of whole runs.

`Run.tick` makes a clock part of the state: actions carry the time they are taken at, and
`Run.Advances` is the guard that the clock has advanced since the last one.
-/

namespace Run

variable {σ A : Type*}

/-- The state after a list of actions. -/
def final (step : σ → A → σ) (s : σ) (as : List A) : σ := as.foldl step s

@[simp] theorem final_nil (step : σ → A → σ) (s : σ) : final step s [] = s := rfl

@[simp] theorem final_cons (step : σ → A → σ) (s : σ) (a : A) (as : List A) :
    final step s (a :: as) = final step (step s a) as := rfl

/-- Every action satisfies the guard in the state in which it is taken. -/
def Allowed (step : σ → A → σ) (ok : σ → A → Prop) : σ → List A → Prop
  | _, [] => True
  | s, a :: as => ok s a ∧ Allowed step ok (step s a) as

instance Allowed.decidable (step : σ → A → σ) (ok : σ → A → Prop) [∀ s a, Decidable (ok s a)] :
    ∀ s as, Decidable (Allowed step ok s as)
  | _, [] => inferInstanceAs (Decidable True)
  | s, a :: as =>
    have := Allowed.decidable step ok (step s a) as
    inferInstanceAs (Decidable (ok s a ∧ Allowed step ok (step s a) as))

variable {step : σ → A → σ} {ok ok' : σ → A → Prop} {I : σ → Prop}

/-- **Invariants.** What every allowed action preserves holds after every allowed run. -/
theorem invariant (hstep : ∀ s a, I s → ok s a → I (step s a)) {s : σ} {as : List A} (hs : I s)
    (h : Allowed step ok s as) : I (final step s as) := by
  induction as generalizing s with
  | nil => exact hs
  | cons a as ih => exact ih (hstep s a hs h.1) h.2

theorem invariant_final (hstep : ∀ s a, I s → I (step s a)) {s : σ} (hs : I s) (as : List A) :
    I (final step s as) := by
  induction as generalizing s with
  | nil => exact hs
  | cons a as ih => exact ih (hstep s a hs)

/-- **Answers.** What the invariant and the guard say about one action holds of every action of an
allowed run. -/
theorem Allowed.strengthen (hstep : ∀ s a, I s → ok s a → I (step s a))
    (hok : ∀ s a, I s → ok s a → ok' s a) {s : σ} {as : List A} (hs : I s)
    (h : Allowed step ok s as) : Allowed step ok' s as := by
  induction as generalizing s with
  | nil => trivial
  | cons a as ih => exact ⟨hok s a hs h.1, ih (hstep s a hs h.1) h.2⟩

/-- A step with a clock: the state remembers the time of the last action. -/
def tick {σ A : Type*} (step : σ → ℕ → A → σ) (s : ℕ × σ) (a : ℕ × A) : ℕ × σ :=
  (a.1, step s.2 a.1 a.2)

/-- The clock has advanced since the last action. -/
def Advances (s : ℕ × σ) (a : ℕ × A) : Prop := s.1 < a.1

instance (s : ℕ × σ) (a : ℕ × A) : Decidable (Advances s a) := inferInstanceAs (Decidable (_ < _))

end Run
