import Kiwi.Lib.Relational
import Kiwi.Lib.Script

/-!
# Programs that commit at most once

`Commits write Q s t p q` compares the run of `p` from `s` with the run of `q` from `t`: both leave
the state as it was and end in the same way, or both write the same batch and succeed with the same
answer, and `Q` holds of the answer and the batch. The rules follow the text of a program, side by
side where the two read the state.

This is said once for a program, and the rest is read off it. With one state on both sides: a run
that fails changes nothing (`Commits.failsCleanAt`), whatever holds of the state and is kept by the
batches holds afterwards (`Commits.leaves`), and the program is a script (`scripted_of_commits`).
With two related states: the runs agree (`Commits.agree`).
-/

namespace Program

variable {σ B ε α β : Type}

/-- How two runs from `s` and from `t` end. -/
inductive Ends (write : σ → B → σ) (Q : α → B → Prop) (s t : σ) :
    Except ε α × σ → Except ε α × σ → Prop
  | unchanged (r : Except ε α) : Ends write Q s t (r, s) (r, t)
  | committed (a : α) (b : B) (h : Q a b) :
      Ends write Q s t (.ok a, write s b) (.ok a, write t b)

/-- The two runs do the same, and commit at most once. -/
def Commits (write : σ → B → σ) (Q : α → B → Prop) (s t : σ) (p q : Program σ ε α) : Prop :=
  Ends write Q s t (p.exec s) (q.exec t)

variable {write : σ → B → σ} {Q : α → B → Prop} {Q' : β → B → Prop} {s t : σ}

/-! ### Rules -/

theorem commits_lift {x y : Except ε α} (h : x = y) :
    Commits write Q s t (liftM x : Program σ ε α) (liftM y) := by
  subst h
  rw [Commits, exec_lift, exec_lift]
  exact .unchanged x

theorem commits_pure (a : α) : Commits write Q s t (pure a : Program σ ε α) (pure a) :=
  .unchanged (.ok a)

theorem commits_throw (e : ε) : Commits write Q s t (throw e : Program σ ε α) (throw e) :=
  .unchanged (.error e)

theorem commits_get_bind {f g : σ → Program σ ε α} (h : Commits write Q s t (f s) (g t)) :
    Commits write Q s t ((get : Program σ ε σ) >>= f) (get >>= g) := h

theorem commits_lift_bind {x y : Except ε β} {f g : β → Program σ ε α} (hxy : x = y)
    (h : ∀ b, x = .ok b → Commits write Q s t (f b) (g b)) :
    Commits write Q s t ((liftM x : Program σ ε β) >>= f) (liftM y >>= g) := by
  subst hxy
  cases x with
  | error e => exact .unchanged (.error e)
  | ok b => exact h b rfl

theorem commits_ite {c : Prop} [Decidable c] {p p' q q' : Program σ ε α}
    (hpos : c → Commits write Q s t p q) (hneg : ¬c → Commits write Q s t p' q') :
    Commits write Q s t (if c then p else p') (if c then q else q') := by
  split_ifs with hc
  · exact hpos hc
  · exact hneg hc

theorem commits_write {Q : PUnit.{1} → B → Prop} {b : B} (h : Q ⟨⟩ b) :
    Commits write Q s t (modify fun s ↦ write s b : Program σ ε PUnit)
      (modify fun s ↦ write s b) := by
  rw [Commits, exec_modify, exec_modify]
  exact .committed PUnit.unit b h

theorem commits_write_pure {a : α} {b : B} (h : Q a b) :
    Commits write Q s t ((modify fun s ↦ write s b : Program σ ε PUnit) >>= fun _ ↦ pure a)
      ((modify fun s ↦ write s b : Program σ ε PUnit) >>= fun _ ↦ pure a) := .committed a b h

variable {p q : Program σ ε α}

/-- What comes after a commit only reworks the answer. -/
theorem Commits.bind {f g : α → Program σ ε β}
    (h : Commits write Q s t p q) (hunchanged : ∀ a, Commits write Q' s t (f a) (g a))
    (hcommitted : ∀ a b, Q a b → ∃ x, f a = pure x ∧ g a = pure x ∧ Q' x b) :
    Commits write Q' s t (p >>= f) (q >>= g) := by
  unfold Commits at h ⊢
  rw [exec_bind, exec_bind]
  generalize p.exec s = u at h
  generalize q.exec t = v at h
  cases h with
  | unchanged r =>
    cases r with
    | error e => exact .unchanged (.error e)
    | ok a => exact hunchanged a
  | committed a b hab =>
    obtain ⟨x, hf, hg, hx⟩ := hcommitted a b hab
    dsimp only
    rw [hf, hg]
    exact .committed x b hx

variable {P : B → Prop}

theorem Commits.bind_pure (h : Commits write (fun _ ↦ P) s t p q) (f : α → β) :
    Commits write (fun _ ↦ P) s t (p >>= fun a ↦ pure (f a)) (q >>= fun a ↦ pure (f a)) :=
  h.bind (fun a ↦ commits_pure (f a)) fun a _ hb ↦ ⟨f a, rfl, rfl, hb⟩

theorem Commits.mono {Q' : α → B → Prop} (h : Commits write Q s t p q)
    (hQ : ∀ a b, Q a b → Q' a b) : Commits write Q' s t p q := by
  unfold Commits at h ⊢
  generalize p.exec s = u at h
  generalize q.exec t = v at h
  cases h with
  | unchanged r => exact .unchanged r
  | committed a b hab => exact .committed a b (hQ a b hab)

/-! ### What is read off -/

section

variable (h : Commits write Q s t p q)

include h

theorem Commits.failsCleanAt : FailsCleanAt s p := by
  intro e he
  unfold Commits at h
  generalize p.exec s = u at h he
  generalize q.exec t = v at h
  cases h with
  | unchanged r => rfl
  | committed a b hab => cases he

theorem Commits.leaves {I : σ → Prop}
    (hs : I s) (hwrite : ∀ a b, Q a b → I (write s b)) : I (p.exec s).2 := by
  unfold Commits at h
  generalize p.exec s = u at h
  generalize q.exec t = v at h
  cases h with
  | unchanged r => exact hs
  | committed a b hab => exact hwrite a b hab

theorem Commits.agree {R : σ → σ → Prop}
    (hsame : R s t) (hwrite : ∀ a b, Q a b → R (write s b) (write t b)) : Agree R s t p q := by
  unfold Commits at h
  unfold Agree
  generalize p.exec s = u at h
  generalize q.exec t = v at h
  cases h with
  | unchanged r => exact ⟨rfl, hsame⟩
  | committed a b hab => exact ⟨rfl, hwrite a b hab⟩

end

theorem scripted_of_commits (h : ∀ s, Commits write (fun _ ↦ P) s s p p) : Scripted write P p := by
  have hscript : ∀ s, ∃ sc : Script σ B ε α,
      (sc.denote write).exec s = p.exec s ∧ sc.All P := by
    intro s
    have hs := h s
    unfold Commits at hs
    generalize p.exec s = u at hs ⊢
    cases hs with
    | unchanged r => exact ⟨.done r, exec_lift r s, trivial⟩
    | committed a b hb => exact ⟨.commit b (.done (.ok a)), rfl, hb, trivial⟩
  choose g hg hall using hscript
  exact ⟨.look g, funext fun s ↦ hg s, hall⟩

end Program
