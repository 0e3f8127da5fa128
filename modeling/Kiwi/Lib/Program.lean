import Mathlib.Tactic.Common

/-!
# Fallible stateful programs

A program over a state `σ` that may fail with an `ε` — and that keeps, when it fails, whatever it
had already done to the state. That last point is why this is `ExceptT` over `StateM` and not the
other way round: rolling back is something a program may or may not achieve, never something the
monad does for it.

`Program.exec` runs a program, and the `exec_…` lemmas evaluate a `do` block step by step, so that
a proof about a program follows the text of the program.

**Failing clean.** `FailsCleanAt s p` says that if `p` fails when started in `s`, the state is `s`
again. The rules below have the shape of a program whose checks come before its effects: reading
and failing are free (`failsCleanAt_get_bind`, `failsCleanAt_lift_bind`), and an effect followed by
a plain return cannot fail any more (`failsCleanAt_modify_bind_pure`).
-/

/-- A program over the state `σ`, failing with `ε` or returning an `α`. -/
abbrev Program (σ ε α : Type) := ExceptT ε (StateM σ) α

namespace Program

variable {σ ε α β : Type}

/-- The outcome of a program, and the state it leaves behind in either case. -/
def exec (p : Program σ ε α) (s : σ) : Except ε α × σ := StateT.run (ExceptT.run p) s

/-! ### Evaluation -/

variable (a : α) (s : σ)

@[simp] theorem exec_pure : (pure a : Program σ ε α).exec s = (.ok a, s) := rfl

@[simp] theorem exec_throw (e : ε) (s : σ) : (throw e : Program σ ε α).exec s = (.error e, s) := rfl

variable (g : σ → σ)

@[simp] theorem exec_modify (s : σ) : (modify g : Program σ ε PUnit).exec s = (.ok ⟨⟩, g s) := rfl

@[simp] theorem exec_lift (x : Except ε α) (s : σ) : (liftM x : Program σ ε α).exec s = (x, s) := by
  cases x <;> rfl

variable {f : α → Program σ ε β} (p : Program σ ε α)

theorem exec_bind :
    (p >>= f).exec s =
      match p.exec s with
      | (.ok a, s') => (f a).exec s'
      | (.error e, s') => (.error e, s') := by
  unfold exec
  rw [ExceptT.run_bind, StateT.run_bind]
  show (StateT.run _ _ : Id _) = _
  rcases StateT.run (ExceptT.run p) s with ⟨_ | a, s'⟩ <;> rfl

@[simp] theorem exec_get_bind (f : σ → Program σ ε β) (s : σ) :
    ((get : Program σ ε σ) >>= f).exec s = (f s).exec s := rfl

@[simp] theorem exec_lift_ok_bind :
    ((liftM (Except.ok a : Except ε α) : Program σ ε α) >>= f).exec s = (f a).exec s := rfl

@[simp] theorem exec_lift_error_bind (e : ε) (s : σ) :
    ((liftM (Except.error e : Except ε α) : Program σ ε α) >>= f).exec s = (.error e, s) := rfl

theorem except_ok_bind (f : α → Except ε β) : (Except.ok a >>= f) = f a := rfl

@[simp] theorem exec_ite (c : Prop) [Decidable c] (p q : Program σ ε α) (s : σ) :
    (if c then p else q).exec s = if c then p.exec s else q.exec s := by
  split_ifs <;> rfl

/-- A program that only reworks the answer of another. -/
theorem exec_bind_pure (f : α → β) (s : σ) :
    (p >>= fun a ↦ pure (f a)).exec s = ((p.exec s).1.map f, (p.exec s).2) := by
  rw [exec_bind]
  rcases p.exec s with ⟨_ | a, s'⟩ <;> rfl

/-! ### Failing clean -/

/-- If `p`, started in `s`, fails, it leaves `s` as it was. -/
def FailsCleanAt (s : σ) (p : Program σ ε α) : Prop :=
  ∀ e, (p.exec s).1 = .error e → (p.exec s).2 = s

variable {s : σ}

theorem failsCleanAt_pure : FailsCleanAt s (pure a : Program σ ε α) := fun _ _ ↦ rfl

theorem failsCleanAt_get_bind {f : σ → Program σ ε β} (h : FailsCleanAt s (f s)) :
    FailsCleanAt s ((get : Program σ ε σ) >>= f) := h

theorem failsCleanAt_lift_bind {x : Except ε α} (h : ∀ a, x = .ok a → FailsCleanAt s (f a)) :
    FailsCleanAt s ((liftM x : Program σ ε α) >>= f) := by
  cases x with
  | error e => exact fun _ _ ↦ rfl
  | ok a => exact h a rfl

theorem failsCleanAt_modify_bind_pure (a : β) :
    FailsCleanAt s ((modify g : Program σ ε PUnit) >>= fun _ ↦ pure a) := by
  intro e h
  cases h

end Program
