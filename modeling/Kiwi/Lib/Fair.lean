import Mathlib.Data.Fintype.Basic
import Mathlib.Data.Finset.Lattice.Fold
import Mathlib.Tactic.Common

/-!
# Fair executions

An execution is an infinite sequence of states in which every state comes from the one before by an
action. An action that is not possible in a state is expected to leave it as it is, so a scheduler
that picks some action at every moment is an execution, and an action is treated fairly if it is
picked again and again (`Execution.Fair`).

What must happen in a fair execution is shown in stages. `Execution.eventually_of_ensures` is one
stage: a condition that holds until its goal is reached, and whose goal one fair action reaches.
`Execution.eventually_zero` is the rule for a number that never grows, and
`Execution.eventually_forall` joins finitely many goals that stay reached. A proof by contradiction
looks at the execution from some moment on, `Execution.tail`.
-/

/-- An infinite execution. -/
structure Execution {σ A : Type*} (step : σ → A → σ) where
  states : ℕ → σ
  actions : ℕ → A
  /-- Every state comes from the one before. -/
  next : ∀ n, states (n + 1) = step (states n) (actions n)

namespace Execution

variable {σ A : Type*} {step : σ → A → σ} (r : Execution step)

/-- The execution in which a sequence of actions is done from a state. -/
def ofActions (step : σ → A → σ) (init : σ) (actions : ℕ → A) : Execution step where
  states n := n.rec init fun n s ↦ step s (actions n)
  actions := actions
  next _ := rfl

/-- The action is picked again and again. -/
def Fair (a : A) : Prop := ∀ n, ∃ m ≥ n, r.actions m = a

/-- The execution from a moment on. -/
def tail (n : ℕ) : Execution step where
  states m := r.states (n + m)
  actions m := r.actions (n + m)
  next m := r.next (n + m)

variable {r}

theorem Fair.tail {a : A} (h : r.Fair a) (n : ℕ) : (r.tail n).Fair a := by
  intro m
  obtain ⟨k, hk, ha⟩ := h (n + m)
  refine ⟨k - n, by omega, ?_⟩
  show r.actions (n + (k - n)) = a
  rwa [Nat.add_sub_cancel' (by omega)]

theorem always {I : σ → Prop} (hinit : I (r.states 0)) (hstep : ∀ s a, I s → I (step s a)) (n : ℕ) :
    I (r.states n) := by
  induction n with
  | zero => exact hinit
  | succ n ih =>
    rw [r.next]
    exact hstep _ _ ih

variable {P : ℕ → Prop}

theorem of_le (hstep : ∀ n, P n → P (n + 1)) {n m : ℕ} (hnm : n ≤ m) (hn : P n) : P m := by
  induction m, hnm using Nat.le_induction with
  | base => exact hn
  | succ m _ ih => exact hstep m ih

/-- **Ensures.** A condition that holds until the goal is reached, and with which a fair action
reaches the goal. -/
theorem eventually_of_ensures {a : A} (hfair : r.Fair a) {P Q : σ → Prop}
    (hstay : ∀ n, P (r.states n) → P (r.states (n + 1)) ∨ Q (r.states (n + 1)))
    (hgo : ∀ n, P (r.states n) → r.actions n = a → Q (r.states (n + 1))) {n : ℕ}
    (hn : P (r.states n)) : ∃ m ≥ n, Q (r.states m) := by
  by_contra hnever
  rw [not_exists] at hnever
  have hP : ∀ m ≥ n, P (r.states m) := fun m hm ↦
    of_le (P := fun m ↦ n ≤ m ∧ P (r.states m)) (fun k hk ↦ ⟨by omega, (hstay k hk.2).resolve_right
      fun hq ↦ hnever (k + 1) ⟨by omega, hq⟩⟩) hm ⟨le_rfl, hn⟩ |>.2
  obtain ⟨m, hm, ha⟩ := hfair n
  exact hnever (m + 1) ⟨by omega, hgo m (hP m hm) ha⟩

theorem eventually_zero {f : σ → ℕ}
    (h : ∀ n, 0 < f (r.states n) → ∃ m ≥ n, f (r.states m) < f (r.states n)) (n : ℕ) :
    ∃ m ≥ n, f (r.states m) = 0 := by
  induction hk : f (r.states n) using Nat.strong_induction_on generalizing n with
  | _ k ih =>
    rcases Nat.eq_zero_or_pos k with rfl | hpos
    · exact ⟨n, le_rfl, hk⟩
    · obtain ⟨m, hm, hlt⟩ := h n (hk ▸ hpos)
      obtain ⟨m', hm', hzero⟩ := ih _ (hk ▸ hlt) m rfl
      exact ⟨m', hm.trans hm', hzero⟩

theorem eventually_forall {ι : Type*} [Fintype ι] {P : ι → ℕ → Prop}
    (hstay : ∀ i n, P i n → P i (n + 1)) (h : ∀ i, ∃ n, P i n) : ∃ n, ∀ i, P i n := by
  choose f hf using h
  exact ⟨Finset.univ.sup f, fun i ↦ of_le (hstay i) (Finset.le_sup (Finset.mem_univ i)) (hf i)⟩

theorem exists_step_of_not {n m : ℕ} (hnm : n ≤ m) (hn : P n) (hm : ¬P m) :
    ∃ k ≥ n, P k ∧ ¬P (k + 1) := by
  by_contra hnone
  push Not at hnone
  exact hm (of_le (P := fun k ↦ n ≤ k ∧ P k)
    (fun k hk ↦ ⟨by omega, hnone k hk.1 hk.2⟩) hnm ⟨le_rfl, hn⟩).2

end Execution
