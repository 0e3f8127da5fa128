import Kiwi.Lib.Program

/-!
# Two runs of programs

`Agree Q s t p q` compares the run of `p` from `s` with the run of `q` from `t`: both give the same
outcome, and the states they leave are related by `Q`. The rules follow the text of a program, so
that a proof that two runs agree goes through the two programs side by side: where both read the
state, what they read has to be compared; where both change it, `Q` has to hold of the results.
-/

namespace Program

variable {σ ε α β : Type} {Q R : σ → σ → Prop} {s t : σ}

/-- The two runs have the same outcome, and leave related states. -/
def Agree (Q : σ → σ → Prop) (s t : σ) (p q : Program σ ε α) : Prop :=
  (p.exec s).1 = (q.exec t).1 ∧ Q (p.exec s).2 (q.exec t).2

theorem agree_pure (h : Q s t) (a : α) : Agree Q s t (pure a : Program σ ε α) (pure a) := ⟨rfl, h⟩

theorem agree_throw (h : Q s t) (e : ε) : Agree Q s t (throw e : Program σ ε α) (throw e) :=
  ⟨rfl, h⟩

theorem agree_get_bind {f g : σ → Program σ ε β} (h : Agree Q s t (f s) (g t)) :
    Agree Q s t ((get : Program σ ε σ) >>= f) (get >>= g) := h

variable {f g : α → Program σ ε β}

theorem agree_lift_bind (h : Q s t) {x y : Except ε α} (hxy : x = y)
    (hfg : ∀ a, x = .ok a → Agree Q s t (f a) (g a)) :
    Agree Q s t ((liftM x : Program σ ε α) >>= f) (liftM y >>= g) := by
  subst hxy
  cases x with
  | error e => exact ⟨rfl, h⟩
  | ok a => exact hfg a rfl

theorem agree_modify_bind {g g' : σ → σ} {f f' : PUnit → Program σ ε β}
    (h : Agree Q (g s) (g' t) (f ⟨⟩) (f' ⟨⟩)) :
    Agree Q s t ((modify g : Program σ ε PUnit) >>= f) (modify g' >>= f') := h

/-- **Sequencing.** -/
theorem agree_bind {p q : Program σ ε α} (hpq : Agree R s t p q)
    (herror : ∀ s' t', R s' t' → Q s' t')
    (hfg : ∀ a s' t', p.exec s = (.ok a, s') → R s' t' → Agree Q s' t' (f a) (g a)) :
    Agree Q s t (p >>= f) (q >>= g) := by
  obtain ⟨hanswer, hstate⟩ := hpq
  unfold Agree
  rw [exec_bind, exec_bind]
  rcases hp : p.exec s with ⟨x, s'⟩
  rcases hq : q.exec t with ⟨y, t'⟩
  rw [hp, hq] at hanswer hstate
  obtain rfl : x = y := hanswer
  cases x with
  | error e => exact ⟨rfl, herror s' t' hstate⟩
  | ok a => exact hfg a s' t' hp hstate

end Program
