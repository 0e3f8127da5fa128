import Mathlib.Logic.Relation
import Mathlib.Order.WellFoundedSet
import Kiwi.Lib.Run

/-!
# Lock orders and deadlocks

Processes acquire and release locks that are not reentrant: a lock that is held, also by the process
itself, cannot be acquired. `LockOrder.step` lets one process take its next action, if it can, and a
run interleaves the processes in any order. A `Deadlock` is a nonempty set of processes each of
which waits for a lock that the set holds.

A process *nests* `b` in `a` if it acquires `b` while it holds `a`. What the processes of a state
still nest, they nested at the start (`nested_step`), and around a deadlock the nested pairs close a
cycle. So if nesting is acyclic at the start, no run reaches a deadlock (`deadlock_free`). Acquiring
the locks in the order of their numbers (`acyclic_of_lt`) is one way to make it so.
-/

namespace LockOrder

variable {L : Type}

/-- What a process does with locks. -/
inductive LockAction (L : Type) where
  | acquire (lock : L)
  | release (lock : L)
deriving DecidableEq

/-- A process: the locks that it holds and what it still does. -/
structure Process (L : Type) where
  held : List L
  rest : List (LockAction L)
deriving DecidableEq

/-- The process waits for a lock, or is about to take it. -/
def Process.Wants (p : Process L) (lock : L) : Prop :=
  p.rest.head? = some (.acquire lock)

/-- Some process holds the lock. -/
def IsHeld (s : List (Process L)) (lock : L) : Prop :=
  ∃ p ∈ s, lock ∈ p.held

/-- A set of processes each of which waits for a lock that one of them holds. -/
structure Deadlock (s : List (Process L)) (d : Set ℕ) : Prop where
  nonempty : d.Nonempty
  /-- Each waits for another, or for itself. -/
  waits : ∀ i ∈ d, ∃ p lock, s[i]? = some p ∧ p.Wants lock ∧
    ∃ j ∈ d, ∃ q, s[j]? = some q ∧ lock ∈ q.held

/-- No lock is below itself. -/
def Acyclic (r : L → L → Prop) : Prop :=
  ∀ a, ¬Relation.TransGen r a a

theorem Acyclic.mono {r r' : L → L → Prop} (h : Acyclic r') (hr : ∀ a b, r a b → r' a b) :
    Acyclic r :=
  fun a ha ↦ h a (Relation.TransGen.mono hr _ _ ha)

variable {r : L → L → Prop}

theorem acyclic_of_lt (f : L → ℕ) (h : ∀ a b, r a b → f a < f b) : Acyclic r := by
  have hlt : ∀ a b, Relation.TransGen r a b → f a < f b := by
    intro a b hab
    induction hab with
    | single hab => exact h _ _ hab
    | tail _ hbc ih => exact ih.trans (h _ _ hbc)
  exact fun a ha ↦ lt_irrefl _ (hlt a a ha)

theorem Acyclic.exists_last (h : Acyclic r) {s : Set L} (hfinite : s.Finite)
    (hs : s.Nonempty) : ∃ a ∈ s, ∀ b ∈ s, ¬r a b := by
  have : IsStrictOrder L fun a b ↦ Relation.TransGen r b a :=
    { irrefl := h
      trans := fun _ _ _ hab hbc ↦ hbc.trans hab }
  have hwf : s.WellFoundedOn fun a b ↦ Relation.TransGen r b a := hfinite.wellFoundedOn
  obtain ⟨a, ha⟩ := hs
  obtain ⟨m, -, hmin⟩ := hwf.has_min Set.univ ⟨⟨a, ha⟩, trivial⟩
  exact ⟨m, m.2, fun b hb hmb ↦ hmin ⟨b, hb⟩ trivial (Relation.TransGen.single hmb)⟩

variable [DecidableEq L]

instance (s : List (Process L)) (lock : L) : Decidable (IsHeld s lock) :=
  inferInstanceAs (Decidable (∃ p ∈ s, lock ∈ p.held))

/-- One process takes its next action, unless it has to wait. -/
def step (s : List (Process L)) (i : ℕ) : List (Process L) :=
  match s[i]? with
  | none => s
  | some p =>
    match p.rest with
    | [] => s
    | .acquire lock :: rest =>
      if IsHeld s lock then s else s.set i ⟨lock :: p.held, rest⟩
    | .release lock :: rest => s.set i ⟨p.held.erase lock, rest⟩

/-! ### Nesting -/

/-- The process that holds `held` and does `rest` acquires `b` while it holds `a`. -/
def NestedIn : List L → List (LockAction L) → L → L → Prop
  | _, [], _, _ => False
  | held, .acquire lock :: rest, a, b => a ∈ held ∧ b = lock ∨ NestedIn (lock :: held) rest a b
  | held, .release lock :: rest, a, b => NestedIn (held.erase lock) rest a b

/-- Some process acquires `b` while it holds `a`. -/
def Nested (s : List (Process L)) (a b : L) : Prop :=
  ∃ p ∈ s, NestedIn p.held p.rest a b

variable {s : List (Process L)} {a b : L}

theorem nestedIn_of_wants {p : Process L} (ha : a ∈ p.held) (hb : p.Wants b) :
    NestedIn p.held p.rest a b := by
  rcases hrest : p.rest with _ | ⟨action, rest⟩
  · rw [Process.Wants, hrest] at hb
    cases hb
  · rw [Process.Wants, hrest] at hb
    obtain rfl := Option.some.inj hb
    exact Or.inl ⟨ha, rfl⟩

/-- Nothing is nested later that was not nested before. -/
theorem nested_set {i : ℕ} {p q : Process L} (hp : s[i]? = some p)
    (hq : NestedIn q.held q.rest a b → NestedIn p.held p.rest a b)
    (h : Nested (s.set i q) a b) : Nested s a b := by
  obtain ⟨p', hmem, hnested⟩ := h
  rcases List.mem_or_eq_of_mem_set hmem with hmem | rfl
  · exact ⟨p', hmem, hnested⟩
  · exact ⟨p, List.mem_of_getElem? hp, hq hnested⟩

/-- **One step** adds no nesting. -/
theorem nested_step (s : List (Process L)) (i : ℕ) (h : Nested (step s i) a b) : Nested s a b := by
  unfold step at h
  split at h
  · exact h
  · rename_i p hp
    split at h
    · exact h
    · rename_i lock rest hrest
      split_ifs at h
      · exact h
      · refine nested_set hp (fun hnested ↦ ?_) h
        rw [hrest]
        exact Or.inr hnested
    · rename_i lock rest hrest
      refine nested_set hp (fun hnested ↦ ?_) h
      rw [hrest]
      exact hnested

/-! ### Deadlocks -/

/-- **A deadlock closes a cycle** of nested locks. -/
theorem not_deadlock (h : Acyclic (Nested s)) (d : Set ℕ) : ¬Deadlock s d := by
  intro hdead
  -- the locks that the processes of the set wait for
  let wanted : Set L := {lock | ∃ i ∈ d, ∃ p, s[i]? = some p ∧ p.Wants lock}
  have hfinite : wanted.Finite := by
    refine (List.finite_toSet (s.filterMap fun p ↦ p.rest.head?.bind fun
      | .acquire lock => some lock
      | .release _ => none)).subset ?_
    rintro lock ⟨i, -, p, hp, hwants⟩
    refine List.mem_filterMap.2 ⟨p, List.mem_of_getElem? hp, ?_⟩
    rw [hwants]
    rfl
  have hnonempty : wanted.Nonempty := by
    obtain ⟨i, hi⟩ := hdead.nonempty
    obtain ⟨p, lock, hp, hwants, -⟩ := hdead.waits i hi
    exact ⟨lock, i, hi, p, hp, hwants⟩
  obtain ⟨lock, ⟨i, hi, p, hp, hwants⟩, hlast⟩ := h.exists_last hfinite hnonempty
  obtain ⟨p', lock', hp', hwants', j, hj, q, hq, hheld⟩ := hdead.waits i hi
  obtain rfl : p' = p := Option.some.inj (hp'.symm.trans hp)
  obtain rfl : lock' = lock := by
    rw [Process.Wants] at hwants hwants'
    rw [hwants'] at hwants
    exact LockAction.acquire.inj (Option.some.inj hwants)
  -- the holder waits for another lock, which it nests in this one
  obtain ⟨q', next, hq', hnext, -⟩ := hdead.waits j hj
  obtain rfl : q' = q := Option.some.inj (hq'.symm.trans hq)
  exact hlast next ⟨j, hj, q', hq', hnext⟩
    ⟨q', List.mem_of_getElem? hq', nestedIn_of_wants hheld hnext⟩

/-- **No run reaches a deadlock**, if nesting is acyclic at the start. -/
theorem deadlock_free (h : Acyclic (Nested s)) (schedule : List ℕ) (d : Set ℕ) :
    ¬Deadlock (Run.final step s schedule) d := by
  have hacyclic : Acyclic (Nested (Run.final step s schedule)) :=
    Run.invariant_final (I := fun s ↦ Acyclic (Nested s))
      (fun s i hs ↦ hs.mono fun _ _ ↦ nested_step s i) h schedule
  exact not_deadlock hacyclic d

end LockOrder
