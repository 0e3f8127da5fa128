import Mathlib.Tactic.Common

/-!
# A reader among writers

A reading makes one access after the other, and what it looks at next may depend on what it has
found. Each access is atomic, but others write between the accesses. `Reading.alone` is the answer
of a reading to which nothing happens, and `Reading.Among` says how it can end when others write,
with the states that were current in the meantime.

The answer is one that the reading alone would have given on some of these states if the writes do
not separate what is left of the reading from the whole of it (`Among.explained`). A reading that
has made its first access, `Among.first`, is followed from there.
-/

/-- A reading with accesses `A` and answers in `α`. -/
inductive Reading (A : Type → Type) (α : Type) : Type 1
  | done (answer : α) : Reading A α
  /-- It makes an access and goes on with what it finds. -/
  | access {β : Type} (what : A β) (next : β → Reading A α) : Reading A α

namespace Reading

variable {A : Type → Type} {σ W α : Type} (look : {β : Type} → A β → σ → β) (write : σ → W → σ)

/-- The answer on one state. -/
def alone (s : σ) : Reading A α → α
  | done answer => answer
  | access what next => alone s (next (look what s))

/-- The reading, started in a state, ends with an answer while others make writes that are all `ok`.
The list has the states that were current. -/
inductive Among (ok : Reading A α → σ → W → Prop) : σ → Reading A α → List σ → α → Prop
  | done (s : σ) (answer : α) : Among ok s (.done answer) [s] answer
  | write {s : σ} {r : Reading A α} {w : W} {seen : List σ} {answer : α} (hok : ok r s w)
      (h : Among ok (write s w) r seen answer) : Among ok s r (s :: seen) answer
  | access {s : σ} {β : Type} {what : A β} {next : β → Reading A α} {seen : List σ} {answer : α}
      (h : Among ok s (next (look what s)) seen answer) : Among ok s (.access what next) seen answer

variable {look write} {ok : Reading A α → σ → W → Prop} {s : σ} {r : Reading A α} {seen : List σ}
  {answer : α}

theorem Among.mem_start (h : Among look write ok s r seen answer) : s ∈ seen := by
  induction h with
  | done s answer => exact List.mem_singleton_self s
  | write hok h ih => exact List.mem_cons_self
  | access h ih => exact ih

variable {P : Reading A α → Prop}

/-- **Explained answers.** If the whole reading answers on a state that was current what the rest of
the reading would answer now, and writes keep that so or make it so for the state they leave, then
the whole reading answers on some current state what is answered in the end. `P` says what can be
left of the reading. -/
theorem Among.explained (whole : σ → α)
    (hnext : ∀ {β : Type} (what : A β) next x, P (.access what next) → P (next x))
    (hok : ∀ r s w, P r → ok r s w → r.alone look (write s w) = r.alone look s ∨
      whole (write s w) = r.alone look (write s w))
    (h : Among look write ok s r seen answer) (hr : P r) {c : σ} (hc : whole c = r.alone look s) :
    ∃ c' ∈ c :: seen, whole c' = answer := by
  induction h generalizing c with
  | done s answer => exact ⟨c, List.mem_cons_self, hc⟩
  | @write s r w seen answer hw h ih =>
    rcases hok r s w hr hw with hsame | hnew
    · obtain ⟨c', hc', heq⟩ := ih hr (hc.trans hsame.symm)
      refine ⟨c', ?_, heq⟩
      rcases List.mem_cons.1 hc' with rfl | hin
      · exact List.mem_cons_self
      · exact List.mem_cons_of_mem _ (List.mem_cons_of_mem _ hin)
    · obtain ⟨c', hc', heq⟩ := ih hr hnew
      refine ⟨c', List.mem_cons_of_mem _ (List.mem_cons_of_mem _ ?_), heq⟩
      rcases List.mem_cons.1 hc' with rfl | hin
      · exact h.mem_start
      · exact hin
  | access h ih => exact ih (hnext _ _ _ hr) hc

theorem Among.first {β : Type} {what : A β} {next : β → Reading A α}
    (h : Among look write ok s (.access what next) seen answer) :
    ∃ s' seen', Among look write ok s' (next (look what s')) seen' answer ∧ seen' ⊆ seen := by
  generalize hr : Reading.access what next = r at h
  induction h with
  | done s answer => cases hr
  | write hok h ih =>
    obtain ⟨s', seen', h', hsub⟩ := ih hr
    exact ⟨s', seen', h', fun c hc ↦ List.mem_cons_of_mem _ (hsub hc)⟩
  | access h ih =>
    cases hr
    exact ⟨_, _, h, List.Subset.refl _⟩

/-- **One state.** Until its first access nothing matters to a reading. If after it writes do not
separate what is left of the reading from the whole of it, the answer is that of the reading alone
on some current state. -/
theorem Among.exists_alone {β : Type} {what : A β} {next : β → Reading A α} (hP : ∀ x, P (next x))
    (hnext : ∀ {β : Type} (what : A β) next x, P (.access what next) → P (next x))
    (hok : ∀ r s w, P r → ok r s w → r.alone look (write s w) = r.alone look s ∨
      (Reading.access what next).alone look (write s w) = r.alone look (write s w))
    (h : Among look write ok s (.access what next) seen answer) :
    ∃ c ∈ seen, (Reading.access what next).alone look c = answer := by
  obtain ⟨s', seen', hrest, hsub⟩ := h.first
  obtain ⟨c, hc, heq⟩ := hrest.explained
    (fun c ↦ (Reading.access what next).alone look c) hnext hok (hP _) (c := s') rfl
  refine ⟨c, hsub ?_, heq⟩
  rcases List.mem_cons.1 hc with rfl | hin
  · exact hrest.mem_start
  · exact hin

end Reading
