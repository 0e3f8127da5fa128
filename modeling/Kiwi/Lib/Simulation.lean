import Kiwi.Lib.Run

/-!
# Simulation of machines that answer

A machine takes an action and gives an answer and the next state. Two machines with the same actions
and answers are compared along runs: if a relation between their states is kept by every allowed
action, and related states answer alike, then both machines give the same answers along every
allowed run and end in related states (`Run.simulation`). The guard looks at the state of the
second machine, which is the one a specification describes.

`Run.timed` makes a clock part of the state, as `Run.tick` does for machines without answers.

`Run.related_final` is the rule for machines without answers, where the second may see less of an
action than the first.
-/

namespace Run

variable {σ τ A B : Type*}

/-- The state an action leads to. -/
def next (step : σ → A → B × σ) (s : σ) (a : A) : σ := (step s a).2

/-- The answers along a run. -/
def answers (step : σ → A → B × σ) : σ → List A → List B
  | _, [] => []
  | s, a :: as => (step s a).1 :: answers step (next step s a) as

variable {s : σ}

variable {as : List A}

@[simp] theorem answers_cons (step : σ → A → B × σ) (a : A) :
    answers step s (a :: as) = (step s a).1 :: answers step (next step s a) as := rfl

/-- A step with a clock: the state remembers the time of the last action. -/
def timed (step : σ → ℕ → A → B × σ) (s : ℕ × σ) (a : ℕ × A) : B × (ℕ × σ) :=
  ((step s.2 a.1 a.2).1, (a.1, (step s.2 a.1 a.2).2))

variable {step : σ → A → B × σ} {step' : τ → A → B × τ} {R : σ → τ → Prop} {ok : τ → A → Prop}

/-- **Simulation.** Related states that answer alike, and stay related, do so along every allowed
run. -/
theorem simulation (hstep : ∀ s t a, R s t → ok t a →
      (step s a).1 = (step' t a).1 ∧ R (next step s a) (next step' t a)) {t : τ} (hst : R s t)
    (h : Allowed (next step') ok t as) :
    answers step s as = answers step' t as ∧
      R (final (next step) s as) (final (next step') t as) := by
  induction as generalizing s t with
  | nil => exact ⟨rfl, hst⟩
  | cons a as ih =>
    obtain ⟨hanswer, hnext⟩ := hstep s t a hst h.1
    obtain ⟨hanswers, hfinal⟩ := ih hnext h.2
    exact ⟨by rw [answers_cons, answers_cons, hanswer, hanswers], hfinal⟩

/-- **Refinement.** A relation that is kept by every action that is allowed, and by what the second
machine sees of it, is kept by runs. -/
theorem related_final {C : Type*} {step : σ → A → σ} (step' : τ → C → τ) (R : σ → τ → Prop)
    {ok : A → Prop} (see : A → C) (hstep : ∀ s t a, R s t → ok a → R (step s a) (step' t (see a)))
    {t : τ} (hst : R s t) (h : ∀ a ∈ as, ok a) :
    R (final step s as) (final step' t (as.map see)) := by
  induction as generalizing s t with
  | nil => exact hst
  | cons a as ih =>
    exact ih (hstep s t a hst (h a List.mem_cons_self)) fun b hb ↦ h b (List.mem_cons_of_mem _ hb)

end Run
