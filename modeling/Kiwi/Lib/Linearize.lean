import Mathlib.Data.List.Nodup
import Mathlib.Logic.Function.Basic
import Mathlib.Tactic.Common

/-!
# Commands under a gate and key locks

Concurrent commands work on one store. A command is a task: a sequence of point reads, commits and
lock steps that ends with a reply. Every command passes a gate first, which an exclusive command
passes only alone. A lock is taken only when nobody holds it. `Step` is one step of one command, so
a run is an interleaving.

**When the replies have a sequential explanation.** A shared task is `Shared` if it looks at one key
at most once without a lock, or locks its key and then reads that key and ends with at most one
commit on it. Exclusive tasks are arbitrary. Then every complete run has a sequential order with the
same replies and the same store, and a command that was answered before another was called comes
before it (`linearizable`).

An exclusive command takes effect when it passes the gate, and its remaining task, run alone, then
leads from the store to the store of the order. A shared command takes effect at its last access:
until then the value under its key is what it has read, since whoever commits on that key holds the
same lock. The order is that of these moments (`Linearized`), and `linearized_step` says that a step
appends at most one command to it.

A gate that serves its callers in some fair order only has fewer runs.
-/

namespace Linearize

variable {σ ι K V W L α : Type}

/-- What a command does after the gate. -/
inductive Task (K V W L α : Type)
  | done (a : α)
  | lock (l : L) (next : Task K V W L α)
  | unlock (l : L) (next : Task K V W L α)
  | read (k : K) (next : V → Task K V W L α)
  | commit (w : W) (next : Task K V W L α)

/-- A store with point reads and commits. -/
structure Store (σ K V W : Type) where
  look : σ → K → V
  write : σ → W → σ
  Touches : W → K → Prop
  /-- A commit leaves the other keys alone. -/
  look_write : ∀ {w k}, ¬Touches w k → ∀ s, look (write s w) k = look s k

/-- A command. -/
structure Command (K V W L α : Type) where
  /-- Whether it takes the gate for itself. -/
  exclusive : Bool
  task : Task K V W L α

/-- How far a command is. -/
inductive Phase (K V W L α : Type)
  /-- Not yet called. -/
  | idle
  /-- Called, before the gate. -/
  | waiting
  /-- Behind the gate, with the locks it holds and what is left to do. -/
  | running (held : List L) (rest : Task K V W L α)
  | done (a : α)

/-- The store, and how far each command is. -/
structure State (σ ι K V W L α : Type) where
  store : σ
  phase : ι → Phase K V W L α

variable (st : Store σ K V W)

/-- A task with nobody else around: its reply, and the store it leaves. -/
def Task.alone : Task K V W L α → σ → α × σ
  | done a, s => (a, s)
  | lock _ next, s | unlock _ next, s => next.alone s
  | read k next, s => (next (st.look s k)).alone s
  | commit w next, s => next.alone (st.write s w)

/-- Commands one after the other: their replies, and the store they leave. -/
def serial (cmds : ι → Command K V W L α) : List ι → σ → List (ι × α) × σ
  | [], s => ([], s)
  | i :: order, s =>
    let first := (cmds i).task.alone st s
    let others := serial cmds order first.2
    ((i, first.1) :: others.1, others.2)

/-- `i` comes before `j` in an order. -/
def Precedes (order : List ι) (i j : ι) : Prop :=
  ∃ before after, order = before ++ after ∧ i ∈ before ∧ j ∈ after

/-- Nobody has been called. -/
def initial (s : σ) : State σ ι K V W L α := ⟨s, fun _ ↦ .idle⟩

section

variable [DecidableEq ι] [DecidableEq L]

/-- A command goes to another phase. -/
def State.goto (s : State σ ι K V W L α) (i : ι) (p : Phase K V W L α) : State σ ι K V W L α :=
  { s with phase := Function.update s.phase i p }

/-- A step of the command `i`. -/
inductive Step (cmds : ι → Command K V W L α) (i : ι) (s : State σ ι K V W L α) :
    State σ ι K V W L α → Prop
  | call (hi : s.phase i = .idle) : Step cmds i s (s.goto i .waiting)
  /-- It passes the gate: alone if it is exclusive, and next to shared commands otherwise. -/
  | enter (hi : s.phase i = .waiting)
      (hgate : ∀ j held rest, s.phase j = .running held rest →
        (cmds i).exclusive = false ∧ (cmds j).exclusive = false) :
      Step cmds i s (s.goto i (.running [] (cmds i).task))
  /-- It takes a lock that nobody holds. -/
  | lock {held : List L} {l : L} {rest : Task K V W L α}
      (hi : s.phase i = .running held (.lock l rest))
      (hfree : ∀ j held' rest', s.phase j = .running held' rest' → l ∉ held') :
      Step cmds i s (s.goto i (.running (l :: held) rest))
  | unlock {held : List L} {l : L} {rest : Task K V W L α}
      (hi : s.phase i = .running held (.unlock l rest)) :
      Step cmds i s (s.goto i (.running (held.erase l) rest))
  | read {held : List L} {k : K} {next : V → Task K V W L α}
      (hi : s.phase i = .running held (.read k next)) :
      Step cmds i s (s.goto i (.running held (next (st.look s.store k))))
  | commit {held : List L} {w : W} {rest : Task K V W L α}
      (hi : s.phase i = .running held (.commit w rest)) :
      Step cmds i s { s.goto i (.running held rest) with store := st.write s.store w }
  /-- It leaves the gate and replies. -/
  | reply {held : List L} {a : α} (hi : s.phase i = .running held (.done a)) :
      Step cmds i s (s.goto i (.done a))

/-- The first `n` steps of an interleaving, which starts in the store `start`. -/
structure Interleaving (cmds : ι → Command K V W L α) (start : σ)
    (run : ℕ → State σ ι K V W L α) (n : ℕ) : Prop where
  /-- At first nobody has been called. -/
  zero : run 0 = initial start
  /-- Each step is one of some command. -/
  step : ∀ m < n, ∃ i, Step st cmds i (run m) (run (m + 1))

end

/-! ### Shared tasks -/

/-- Only locks are left to give back before the reply `a`. -/
inductive Ends (a : α) : Task K V W L α → Prop
  | done : Ends a (.done a)
  | unlock {l : L} {rest : Task K V W L α} : Ends a rest → Ends a (.unlock l rest)

/-- A task under the lock of the key `k`: reads of `k`, and at most one commit, on `k` and at the
end. -/
inductive Guarded (k : K) : Task K V W L α → Prop
  | ends {a : α} {t : Task K V W L α} : Ends a t → Guarded k t
  | read {next : V → Task K V W L α} : (∀ v, Guarded k (next v)) → Guarded k (.read k next)
  | commit {w : W} {a : α} {rest : Task K V W L α} :
      (∀ k', st.Touches w k' → k' = k) → Ends a rest → Guarded k (.commit w rest)

/-- A task that may run next to others. -/
inductive Shared (lockOf : K → L) : Task K V W L α → Prop
  | ends {a : α} {t : Task K V W L α} : Ends a t → Shared lockOf t
  /-- It has one point read, without a lock. -/
  | peek {k : K} {next : V → Task K V W L α} : (∀ v, ∃ a, Ends a (next v)) →
      Shared lockOf (.read k next)
  | guarded {k : K} {rest : Task K V W L α} : Guarded st k rest →
      Shared lockOf (.lock (lockOf k) rest)

/-- What a task does when every read finds `v`: its reply, and its commit if it has one. -/
def Task.plan (v : V) : Task K V W L α → α × Option W
  | done a => (a, none)
  | lock _ next | unlock _ next => next.plan v
  | read _ next => (next v).plan v
  | commit w next => ((next.plan v).1, some w)

/-- The store after an optional commit. -/
def Store.after (s : σ) (w : Option W) : σ := w.elim s (st.write s)

variable {st} {a : α} {k : K} {t : Task K V W L α} {s : σ}

theorem Ends.plan (h : Ends a t) (v : V) : t.plan v = (a, none) := by
  induction h with
  | done => rfl
  | unlock _ ih => exact ih

theorem Ends.alone (h : Ends a t) (s : σ) : t.alone st s = (a, s) := by
  induction h with
  | done => rfl
  | unlock _ ih => exact ih

/-- A guarded task depends on the value under its key only. -/
theorem Guarded.alone (h : Guarded st k t) (s : σ) :
    t.alone st s = ((t.plan (st.look s k)).1, st.after s (t.plan (st.look s k)).2) := by
  induction h with
  | ends h => rw [h.alone, h.plan]; rfl
  | read _ ih => exact ih (st.look s k)
  | commit _ h =>
    rw [Task.alone, h.alone, Task.plan, h.plan]
    rfl

/-! ### Sequential runs -/

variable (cmds : ι → Command K V W L α) (order : List ι)

theorem serial_append (i : ι) :
    serial st cmds (order ++ [i]) s =
      ((serial st cmds order s).1 ++
          [(i, ((cmds i).task.alone st (serial st cmds order s).2).1)],
        ((cmds i).task.alone st (serial st cmds order s).2).2) := by
  induction order generalizing s with
  | nil => rfl
  | cons j order ih => simp only [List.cons_append, serial, ih]

theorem map_fst_serial : (serial st cmds order s).1.map Prod.fst = order := by
  induction order generalizing s with
  | nil => rfl
  | cons j order ih => rw [serial, List.map_cons, ih]

/-! ### Exclusion -/

section

variable [DecidableEq ι] {cmds : ι → Command K V W L α} {i : ι} {x y : State σ ι K V W L α}
  {p : Phase K V W L α}

@[simp] theorem goto_phase_self (x : State σ ι K V W L α) (i : ι) (p : Phase K V W L α) :
    (x.goto i p).phase i = p := Function.update_self ..

theorem goto_phase_of_ne {j : ι} (h : j ≠ i) (x : State σ ι K V W L α) (p : Phase K V W L α) :
    (x.goto i p).phase j = x.phase j := Function.update_of_ne h ..

/-- Two commands behind the gate are shared and hold no lock together. -/
def Compatible (cmds : ι → Command K V W L α) (phase : ι → Phase K V W L α) : Prop :=
  ∀ i j, i ≠ j → ∀ held rest held' rest', phase i = .running held rest →
    phase j = .running held' rest' →
      (cmds i).exclusive = false ∧ (cmds j).exclusive = false ∧ held.Disjoint held'

section

variable (h : Compatible cmds x.phase)

include h

theorem Compatible.goto (hp : ∀ held rest, p = .running held rest → ∀ j, j ≠ i → ∀ held' rest',
      x.phase j = .running held' rest' →
        (cmds i).exclusive = false ∧ (cmds j).exclusive = false ∧ held.Disjoint held') :
    Compatible cmds (x.goto i p).phase := by
  intro j j' hne held rest held' rest' hj hj'
  by_cases hji : j = i
  · subst hji
    rw [goto_phase_self] at hj
    rw [goto_phase_of_ne hne.symm] at hj'
    exact hp held rest hj j' hne.symm held' rest' hj'
  · rw [goto_phase_of_ne hji] at hj
    by_cases hji' : j' = i
    · subst hji'
      rw [goto_phase_self] at hj'
      obtain ⟨h₁, h₂, h₃⟩ := hp held' rest' hj' j hji held rest hj
      exact ⟨h₂, h₁, fun l hl hl' ↦ h₃ hl' hl⟩
    · rw [goto_phase_of_ne hji'] at hj'
      exact h j j' hne held rest held' rest' hj hj'

theorem Compatible.goto_running {held held' : List L}
    {rest rest' : Task K V W L α} (hi : x.phase i = .running held rest) (hsub : held' ⊆ held) :
    Compatible cmds (x.goto i (.running held' rest')).phase := by
  refine h.goto fun held₁ rest₁ hp j hne held₂ rest₂ hj ↦ ?_
  obtain ⟨rfl, rfl⟩ : held' = held₁ ∧ rest' = rest₁ := by simpa using hp
  obtain ⟨h₁, h₂, h₃⟩ := h i j hne.symm _ _ _ _ hi hj
  exact ⟨h₁, h₂, fun l hl ↦ h₃ (hsub hl)⟩

theorem Compatible.step [DecidableEq L] (hstep : Step st cmds i x y) : Compatible cmds y.phase := by
  cases hstep with
  | call _ | reply _ => exact h.goto fun _ _ hp ↦ nomatch hp
  | enter _ hgate =>
    refine h.goto fun held rest hp j _ held' rest' hj ↦ ?_
    obtain ⟨rfl, rfl⟩ : [] = held ∧ (cmds i).task = rest := by simpa using hp
    obtain ⟨h₁, h₂⟩ := hgate j held' rest' hj
    exact ⟨h₁, h₂, List.disjoint_nil_left _⟩
  | @lock held l rest hi hfree =>
    refine h.goto fun held₁ rest₁ hp j hne held₂ rest₂ hj ↦ ?_
    obtain ⟨rfl, rfl⟩ : l :: held = held₁ ∧ rest = rest₁ := by simpa using hp
    obtain ⟨h₁, h₂, h₃⟩ := h i j hne.symm _ _ _ _ hi hj
    exact ⟨h₁, h₂, List.disjoint_cons_left.2 ⟨hfree j held₂ rest₂ hj, h₃⟩⟩
  | unlock hi => exact h.goto_running hi (List.erase_subset)
  | read hi | commit hi => exact h.goto_running hi fun _ hl ↦ hl

end

end

/-! ### The order of effects -/

section

variable {cmds : ι → Command K V W L α} {lockOf : K → L} {start store : σ} {order : List ι}
  {i : ι} {x y : State σ ι K V W L α} {p : Phase K V W L α} {held : List L}

/-- A shared task before it takes effect: it has done nothing yet, or it holds the lock of its key,
has read what is there now, and has something left to do. -/
structure Pending (st : Store σ K V W) (lockOf : K → L) (whole : Task K V W L α) (store : σ)
    (held : List L) (rest : Task K V W L α) : Prop where
  /-- Its last access is still to come. -/
  not_ends : ∀ a, ¬Ends a rest
  progress : rest = whole ∨ ∃ k locked, whole = .lock (lockOf k) locked ∧ Guarded st k locked ∧
    Guarded st k rest ∧ lockOf k ∈ held ∧
      rest.plan (st.look store k) = locked.plan (st.look store k)

/-- What an order says about a command, by its phase: called commands are in it once they have taken
effect, with the reply they are going to give. -/
def Fits (st : Store σ K V W) (cmds : ι → Command K V W L α) (lockOf : K → L) (order : List ι)
    (replies : List (ι × α)) (store abs : σ) (j : ι) : Phase K V W L α → Prop
  | .idle | .waiting => j ∉ order
  | .done a => (j, a) ∈ replies
  | .running held rest =>
    if (cmds j).exclusive then ∃ a, (j, a) ∈ replies ∧ rest.alone st store = (a, abs)
    else (j ∉ order ∧ Pending st lockOf (cmds j).task store held rest) ∨
      ∃ a, (j, a) ∈ replies ∧ Ends a rest

/-- The order in which commands have taken effect explains a state. -/
structure Linearized (st : Store σ K V W) (cmds : ι → Command K V W L α) (lockOf : K → L)
    (start : σ) (order : List ι) (x : State σ ι K V W L α) : Prop where
  nodup : order.Nodup
  /-- Who is behind the gate together. -/
  compatible : Compatible cmds x.phase
  /-- Each command is where the order says. -/
  fits : ∀ j, Fits st cmds lockOf order (serial st cmds order start).1 x.store
    (serial st cmds order start).2 j (x.phase j)
  /-- Unless an exclusive command is at work, the store is that of the order. -/
  agree : (∀ j held rest, x.phase j = .running held rest → (cmds j).exclusive = false) →
    x.store = (serial st cmds order start).2

theorem linearized_initial : Linearized (ι := ι) (L := L) (α := α) st cmds lockOf start []
    (initial start) where
  nodup := List.nodup_nil
  compatible := fun _ _ _ _ _ _ _ h ↦ nomatch h
  fits := fun _ ↦ List.not_mem_nil
  agree := fun _ ↦ rfl

theorem mem_order_of_mem_replies (h : (i, a) ∈ (serial st cmds order start).1) : i ∈ order := by
  have hmem : i ∈ (serial st cmds order start).1.map Prod.fst := List.mem_map_of_mem h
  rwa [map_fst_serial] at hmem

variable {rest : Task K V W L α}

theorem Linearized.store_eq (h : Linearized st cmds lockOf start order x)
    (hi : (cmds i).exclusive = false) (hx : x.phase i = .running held rest) :
    x.store = (serial st cmds order start).2 := by
  refine h.agree fun j held' rest' hj ↦ ?_
  rcases eq_or_ne j i with rfl | hji
  · exact hi
  · exact (h.compatible j i hji _ _ _ _ hj hx).1

variable {w : Option W}

/-- A shared command that has not taken effect is not disturbed by a commit on a key whose lock
somebody else holds. -/
theorem Pending.write {whole rest : Task K V W L α} (h : Pending st lockOf whole store held rest)
    (hw : ∀ w', w = some w' → ∀ k', st.Touches w' k' → lockOf k' ∉ held) :
    Pending st lockOf whole (st.after store w) held rest := by
  refine ⟨h.not_ends, h.progress.imp_right ?_⟩
  rintro ⟨k, locked, hwhole, hlocked, hrest, hheld, hplan⟩
  have hlook : st.look (st.after store w) k = st.look store k := by
    cases w with
    | none => rfl
    | some w => exact st.look_write (fun hk ↦ hw w rfl k hk hheld) store
  refine ⟨k, locked, hwhole, hlocked, hrest, hheld, ?_⟩
  rw [hlook]
  exact hplan

section

variable (h : Linearized st cmds lockOf start order x)

include h

theorem Linearized.pending_or_ends (hi : (cmds i).exclusive = false)
    (hx : x.phase i = .running held rest) :
    (i ∉ order ∧ Pending st lockOf (cmds i).task x.store held rest) ∨
      ∃ a, (i, a) ∈ (serial st cmds order start).1 ∧ Ends a rest := by
  have hfit := h.fits i
  rw [hx, Fits, hi, if_neg Bool.false_ne_true] at hfit
  exact hfit

theorem Linearized.alone_eq (hi : (cmds i).exclusive = true) (hx : x.phase i = .running held rest) :
    ∃ a, (i, a) ∈ (serial st cmds order start).1 ∧
      rest.alone st x.store = (a, (serial st cmds order start).2) := by
  have hfit := h.fits i
  rw [hx, Fits, hi, if_pos rfl] at hfit
  exact hfit

end

theorem Compatible.shared (h : Compatible cmds x.phase) (hi : (cmds i).exclusive = false)
    (hx : x.phase i = .running held rest) (j : ι) (held' : List L)
    (rest' : Task K V W L α) (hj : x.phase j = .running held' rest') :
    (cmds j).exclusive = false := by
  rcases eq_or_ne j i with rfl | hji
  · exact hi
  · exact (h j i hji _ _ _ _ hj hx).1

/-- A command that does not run fits a longer order as it did before, if it is not appended. -/
theorem Fits.append {j : ι} (h : Fits st cmds lockOf order (serial st cmds order start).1 store
      (serial st cmds order start).2 j p) (hj : j ≠ i) (hp : ∀ held rest, p ≠ .running held rest)
    {replies : List (ι × α)} {store' abs : σ} :
    Fits st cmds lockOf (order ++ [i]) ((serial st cmds order start).1 ++ replies) store' abs j
      p := by
  have hmem : j ∉ order → j ∉ order ++ [i] := fun hn ↦ by simp [hn, hj]
  cases p with
  | idle | waiting => exact hmem h
  | done b => exact List.mem_append_left _ h
  | running held rest => exact absurd rfl (hp held rest)

variable [DecidableEq ι]

/-- **A step without effect on the order or the store.** -/
theorem Linearized.goto (h : Linearized st cmds lockOf start order x)
    (hcompat : Compatible cmds (x.goto i p).phase)
    (hp : Fits st cmds lockOf order (serial st cmds order start).1 x.store
      (serial st cmds order start).2 i p)
    (hagree : (∀ j held rest, (x.goto i p).phase j = .running held rest →
      (cmds j).exclusive = false) → x.store = (serial st cmds order start).2) :
    Linearized st cmds lockOf start order (x.goto i p) where
  nodup := h.nodup
  compatible := hcompat
  fits := by
    intro j
    by_cases hj : j = i
    · subst hj
      rw [goto_phase_self]
      exact hp
    · rw [goto_phase_of_ne hj]
      exact h.fits j
  agree := hagree

variable {held' : List L}

section

variable (h : Linearized st cmds lockOf start order x)

include h

theorem Linearized.goto_running {rest rest' : Task K V W L α} (hi : x.phase i = .running held rest)
    (hcompat : Compatible cmds (x.goto i (.running held' rest')).phase)
    (hp : Fits st cmds lockOf order (serial st cmds order start).1 x.store
      (serial st cmds order start).2 i (.running held' rest')) :
    Linearized st cmds lockOf start order (x.goto i (.running held' rest')) := by
  refine h.goto hcompat hp fun hnone ↦ ?_
  exact h.store_eq (hnone i held' rest' (goto_phase_self ..)) hi

section

variable {rest' : Task K V W L α} (hi : (cmds i).exclusive = false) (hnew : i ∉ order)
  (hstore : x.store = (serial st cmds order start).2)
  (hshared : ∀ j held rest, x.phase j = .running held rest → (cmds j).exclusive = false)
  (hcompat : Compatible cmds (x.goto i (.running held' rest')).phase)

include hi hnew hstore hshared hcompat

/-- **A shared command takes effect.** What its whole task does alone in the present store is what
it does now. -/
theorem Linearized.take_effect {a : α}
    (hends : Ends a rest') (halone : (cmds i).task.alone st x.store = (a, st.after x.store w))
    (hw : ∀ j held rest, j ≠ i → x.phase j = .running held rest →
      ∀ w', w = some w' → ∀ k', st.Touches w' k' → lockOf k' ∉ held) :
    Linearized st cmds lockOf start (order ++ [i])
      { x.goto i (.running held' rest') with store := st.after x.store w } := by
  have hserial : serial st cmds (order ++ [i]) start =
      ((serial st cmds order start).1 ++ [(i, a)], st.after x.store w) := by
    rw [serial_append, ← hstore, halone]
  refine ⟨?_, hcompat, fun j ↦ ?_, fun _ ↦ by rw [hserial]⟩
  · rw [← List.concat_eq_append]
    exact h.nodup.concat hnew
  · rw [hserial]
    by_cases hj : j = i
    · subst hj
      show Fits _ _ _ _ _ _ _ j ((x.goto j _).phase j)
      rw [goto_phase_self, Fits, hi, if_neg Bool.false_ne_true]
      exact .inr ⟨a, by simp, hends⟩
    · have hfit := h.fits j
      show Fits _ _ _ _ _ _ _ j ((x.goto i _).phase j)
      rw [goto_phase_of_ne hj]
      by_cases hrunning : ∃ held rest, x.phase j = .running held rest
      · obtain ⟨held, rest, hphase⟩ := hrunning
        rw [hphase, Fits, hshared j held rest hphase, if_neg Bool.false_ne_true] at hfit ⊢
        refine hfit.imp ?_ ?_
        · rintro ⟨hn, hpending⟩
          exact ⟨by simp [hn, hj], hpending.write (hw j held rest hj hphase)⟩
        · rintro ⟨b, hb, hends⟩
          exact ⟨b, List.mem_append_left _ hb, hends⟩
      · exact hfit.append hj fun held rest hphase ↦ hrunning ⟨held, rest, hphase⟩

/-- **A shared command goes on without a commit.** It takes effect if nothing but locks is left. -/
theorem Linearized.advance
    (hends : ∀ a, Ends a rest' → (cmds i).task.alone st x.store = (a, x.store))
    (hpending : (∀ a, ¬Ends a rest') → Pending st lockOf (cmds i).task x.store held' rest') :
    ∃ more, Linearized st cmds lockOf start (order ++ more)
      (x.goto i (.running held' rest')) := by
  by_cases hdone : ∃ a, Ends a rest'
  · obtain ⟨a, ha⟩ := hdone
    exact ⟨[i], h.take_effect (w := none) hi hnew hstore hshared hcompat ha (hends a ha)
      fun _ _ _ _ _ _ hw ↦ nomatch hw⟩
  · refine ⟨[], ?_⟩
    rw [List.append_nil]
    refine h.goto hcompat ?_ fun _ ↦ hstore
    rw [Fits, hi, if_neg Bool.false_ne_true]
    exact .inl ⟨hnew, hpending (not_exists.1 hdone)⟩

end

/-- **An exclusive command takes effect** when it passes the gate. -/
theorem Linearized.enter_exclusive (hi : (cmds i).exclusive = true) (hx : x.phase i = .waiting)
    (hgate : ∀ j held rest, x.phase j = .running held rest →
      (cmds i).exclusive = false ∧ (cmds j).exclusive = false)
    (hcompat : Compatible cmds (x.goto i (.running [] (cmds i).task)).phase) :
    Linearized st cmds lockOf start (order ++ [i])
      (x.goto i (.running [] (cmds i).task)) := by
  have hnobody : ∀ j held rest, x.phase j ≠ .running held rest := by
    intro j held rest hj
    have hshared := (hgate j held rest hj).1
    rw [hi] at hshared
    exact Bool.noConfusion hshared
  have hstore := h.agree fun j held rest hj ↦ absurd hj (hnobody j held rest)
  have hnew : i ∉ order := by
    have hfit := h.fits i
    rw [hx] at hfit
    exact hfit
  refine ⟨?_, hcompat, fun j ↦ ?_, fun hnone ↦ ?_⟩
  · rw [← List.concat_eq_append]
    exact h.nodup.concat hnew
  · rw [serial_append, ← hstore]
    by_cases hj : j = i
    · subst hj
      rw [goto_phase_self, Fits, if_pos hi]
      exact ⟨((cmds j).task.alone st x.store).1, by simp, rfl⟩
    · have hfit := h.fits j
      rw [goto_phase_of_ne hj]
      exact hfit.append hj (hnobody j)
  · have hshared := hnone i _ _ (goto_phase_self ..)
    rw [hi] at hshared
    exact Bool.noConfusion hshared

/-- **An exclusive command goes on.** Nobody else is behind the gate, so its remaining task still
leads to the store of the order. -/
theorem Linearized.advance_exclusive (hi : (cmds i).exclusive = true) {rest rest' : Task K V W L α}
    (hx : x.phase i = .running held rest) {store : σ}
    (hcompat : Compatible cmds (x.goto i (.running held' rest')).phase)
    (halone : rest.alone st x.store = rest'.alone st store) :
    Linearized st cmds lockOf start order
      { x.goto i (.running held' rest') with store := store } := by
  refine ⟨h.nodup, hcompat, fun j ↦ ?_, fun hnone ↦ ?_⟩
  · by_cases hj : j = i
    · subst hj
      show Fits _ _ _ _ _ _ _ j ((x.goto j _).phase j)
      rw [goto_phase_self, Fits, if_pos hi, ← halone]
      exact h.alone_eq hi hx
    · have hfit := h.fits j
      show Fits _ _ _ _ _ _ _ j ((x.goto i _).phase j)
      rw [goto_phase_of_ne hj]
      cases hphase : x.phase j with
      | idle | waiting | done b => rw [hphase] at hfit; exact hfit
      | running held' rest' =>
        have hshared := (h.compatible i j (Ne.symm hj) _ _ _ _ hx hphase).1
        rw [hi] at hshared
        exact Bool.noConfusion hshared
  · have hshared := hnone i _ _ (goto_phase_self ..)
    rw [hi] at hshared
    exact Bool.noConfusion hshared

end

/-! ### Steps -/

variable (hcmds : ∀ i, (cmds i).exclusive = false → Shared st lockOf (cmds i).task)

include hcmds

section

variable (h : Linearized st cmds lockOf start order x)

include h

theorem Linearized.step_lock {l : L} (hx : x.phase i = .running held (.lock l rest))
    (hcompat : Compatible cmds (x.goto i (.running (l :: held) rest)).phase) :
    ∃ more, Linearized st cmds lockOf start (order ++ more)
      (x.goto i (.running (l :: held) rest)) := by
  cases hi : (cmds i).exclusive with
  | true => exact ⟨[], by rw [List.append_nil]; exact h.advance_exclusive hi hx hcompat rfl⟩
  | false =>
    rcases h.pending_or_ends hi hx with ⟨hnew, hpending⟩ | ⟨a, -, hends⟩
    · rcases hpending.progress with hwhole | ⟨k, locked, -, -, hguarded, -, -⟩
      · have hshared := hcmds i hi
        rw [← hwhole] at hshared
        cases hshared with
        | ends hends => exact nomatch hends
        | @guarded k _ hguarded =>
          refine h.advance hi hnew (h.store_eq hi hx) (h.compatible.shared hi hx) hcompat
            (fun a ha ↦ ?_) fun hne ↦ ⟨hne, .inr ⟨k, rest, hwhole.symm, hguarded, hguarded,
              List.mem_cons_self, rfl⟩⟩
          rw [← hwhole, Task.alone, ha.alone]
      · cases hguarded with
        | ends hends => exact nomatch hends
    · exact nomatch hends

theorem Linearized.step_unlock [DecidableEq L] {l : L}
    (hx : x.phase i = .running held (.unlock l rest))
    (hcompat : Compatible cmds (x.goto i (.running (held.erase l) rest)).phase) :
    Linearized st cmds lockOf start order (x.goto i (.running (held.erase l) rest)) := by
  cases hi : (cmds i).exclusive with
  | true => exact h.advance_exclusive hi hx hcompat rfl
  | false =>
    rcases h.pending_or_ends hi hx with ⟨-, hpending⟩ | ⟨a, ha, hends⟩
    · -- a task that starts to give locks back has had its last access
      rcases hpending.progress with hwhole | ⟨k, locked, -, -, hguarded, -, -⟩
      · have hshared := hcmds i hi
        rw [← hwhole] at hshared
        cases hshared with
        | ends hends => exact absurd hends (hpending.not_ends _)
      · cases hguarded with
        | ends hends => exact absurd hends (hpending.not_ends _)
    · refine h.goto_running hx hcompat ?_
      rw [Fits, hi, if_neg Bool.false_ne_true]
      cases hends with
      | unlock hends => exact .inr ⟨a, ha, hends⟩

theorem Linearized.step_read {k : K}
    {next : V → Task K V W L α} (hx : x.phase i = .running held (.read k next))
    (hcompat : Compatible cmds (x.goto i (.running held (next (st.look x.store k)))).phase) :
    ∃ more, Linearized st cmds lockOf start (order ++ more)
      (x.goto i (.running held (next (st.look x.store k)))) := by
  cases hi : (cmds i).exclusive with
  | true => exact ⟨[], by rw [List.append_nil]; exact h.advance_exclusive hi hx hcompat rfl⟩
  | false =>
    rcases h.pending_or_ends hi hx with ⟨hnew, hpending⟩ | ⟨a, -, hends⟩
    · rcases hpending.progress with hwhole | ⟨k', locked, hwhole, hlocked, hguarded, hheld, hplan⟩
      · have hshared := hcmds i hi
        rw [← hwhole] at hshared
        cases hshared with
        | ends hends => exact nomatch hends
        | peek hpeek =>
          refine h.advance hi hnew (h.store_eq hi hx) (h.compatible.shared hi hx) hcompat
            (fun a ha ↦ ?_) fun hne ↦ ?_
          · rw [← hwhole, Task.alone, ha.alone]
          · obtain ⟨a, ha⟩ := hpeek (st.look x.store k)
            exact absurd ha (hne a)
      · cases hguarded with
        | ends hends => exact nomatch hends
        | read hnext =>
          refine h.advance hi hnew (h.store_eq hi hx) (h.compatible.shared hi hx) hcompat
            (fun a ha ↦ ?_) fun hne ↦ ⟨hne, .inr ⟨k, locked, hwhole, hlocked, hnext _, hheld,
              hplan⟩⟩
          rw [hwhole, Task.alone, hlocked.alone, ← hplan, Task.plan, ha.plan]
          rfl
    · exact nomatch hends

theorem Linearized.step_commit {w : W} (hx : x.phase i = .running held (.commit w rest))
    (hcompat : Compatible cmds (x.goto i (.running held rest)).phase) :
    ∃ more, Linearized st cmds lockOf start (order ++ more)
      { x.goto i (.running held rest) with store := st.write x.store w } := by
  cases hi : (cmds i).exclusive with
  | true => exact ⟨[], by rw [List.append_nil]; exact h.advance_exclusive hi hx hcompat rfl⟩
  | false =>
    rcases h.pending_or_ends hi hx with ⟨hnew, hpending⟩ | ⟨a, -, hends⟩
    · rcases hpending.progress with hwhole | ⟨k, locked, hwhole, hlocked, hguarded, hheld, hplan⟩
      · have hshared := hcmds i hi
        rw [← hwhole] at hshared
        cases hshared with
        | ends hends => exact nomatch hends
      · cases hguarded with
        | ends hends => exact nomatch hends
        | @commit _ a _ htouches hends =>
          refine ⟨[i], h.take_effect (w := some w) hi hnew (h.store_eq hi hx)
            (h.compatible.shared hi hx) hcompat hends ?_ fun j held' rest' hj hphase w' hw' k' hk' ↦
              ?_⟩
          · rw [hwhole, Task.alone, hlocked.alone, ← hplan, Task.plan, hends.plan]
          · -- whoever else commits on the key of the commit would hold its lock
            obtain rfl := Option.some.inj hw'
            rw [htouches k' hk']
            exact (h.compatible i j hj.symm _ _ _ _ hx hphase).2.2 hheld
    · exact nomatch hends

end

variable [DecidableEq L]

/-- **One step.** It appends at most one command to the order. -/
theorem linearized_step (h : Linearized st cmds lockOf start order x) (hstep : Step st cmds i x y) :
    ∃ more, Linearized st cmds lockOf start (order ++ more) y := by
  have hcompat := h.compatible.step hstep
  cases hstep with
  | call hx =>
    refine ⟨[], ?_⟩
    rw [List.append_nil]
    have hfit := h.fits i
    rw [hx] at hfit
    refine h.goto hcompat hfit fun hnone ↦ h.agree fun j held rest hj ↦ hnone j held rest ?_
    rw [goto_phase_of_ne, hj]
    rintro rfl
    exact nomatch hx.symm.trans hj
  | enter hx hgate =>
    cases hi : (cmds i).exclusive with
    | true => exact ⟨[i], h.enter_exclusive hi hx hgate hcompat⟩
    | false =>
      have hfit := h.fits i
      rw [hx] at hfit
      have hshared := fun j held rest hj ↦ (hgate j held rest hj).2
      exact h.advance hi hfit (h.agree hshared) hshared hcompat (fun a ha ↦ ha.alone _)
        fun hne ↦ ⟨hne, .inl rfl⟩
  | lock hx _ => exact h.step_lock hcmds hx hcompat
  | unlock hx => exact ⟨[], by rw [List.append_nil]; exact h.step_unlock hcmds hx hcompat⟩
  | read hx => exact h.step_read hcmds hx hcompat
  | commit hx => exact h.step_commit hcmds hx hcompat
  | @reply _ a hx =>
    refine ⟨[], ?_⟩
    rw [List.append_nil]
    cases hi : (cmds i).exclusive with
    | true =>
      obtain ⟨b, hb, halone⟩ := h.alone_eq hi hx
      obtain ⟨rfl, hstore⟩ := Prod.mk.inj halone
      exact h.goto hcompat hb fun _ ↦ hstore
    | false =>
      refine h.goto hcompat ?_ fun _ ↦ h.store_eq hi hx
      rcases h.pending_or_ends hi hx with ⟨-, hpending⟩ | ⟨b, hb, hends⟩
      · exact absurd Ends.done (hpending.not_ends a)
      · cases hends with
        | done => exact hb

section

variable {run : ℕ → State σ ι K V W L α} {n : ℕ} (hrun : Interleaving st cmds start run n)

include hrun

/-- **A whole run.** The order at an earlier moment is a part of the order at the end, which holds
the commands answered until then and none that were not yet called. -/
theorem linearized_run :
    ∃ order, Linearized st cmds lockOf start order (run n) ∧
      ∀ m ≤ n, ∃ before after, order = before ++ after ∧
        (∀ i a, (run m).phase i = .done a → i ∈ before) ∧
          ∀ j, (run m).phase j = .idle → j ∉ before := by
  have hnow : ∀ {order x}, Linearized st cmds lockOf start order x →
      (∀ i a, x.phase i = .done a → i ∈ order) ∧ ∀ j, x.phase j = .idle → j ∉ order := by
    intro order x h
    refine ⟨fun i a hi ↦ ?_, fun j hj ↦ ?_⟩
    · have hfit := h.fits i
      rw [hi] at hfit
      exact mem_order_of_mem_replies hfit
    · have hfit := h.fits j
      rw [hj] at hfit
      exact hfit
  induction n with
  | zero =>
    have h : Linearized st cmds lockOf start [] (run 0) := hrun.zero ▸ linearized_initial
    refine ⟨[], h, fun m hm ↦ ⟨[], [], rfl, ?_⟩⟩
    rw [Nat.le_zero.1 hm]
    exact hnow h
  | succ n ih =>
    obtain ⟨order, h, hpast⟩ := ih ⟨hrun.zero, fun m hm ↦ hrun.step m (Nat.lt_succ_of_lt hm)⟩
    obtain ⟨i, hstep⟩ := hrun.step n (Nat.lt_succ_self n)
    obtain ⟨more, h'⟩ := linearized_step hcmds h hstep
    refine ⟨order ++ more, h', fun m hm ↦ ?_⟩
    rcases Nat.le_succ_iff.1 hm with hm | rfl
    · obtain ⟨before, after, rfl, hm⟩ := hpast m hm
      exact ⟨before, after ++ more, List.append_assoc .., hm⟩
    · exact ⟨order ++ more, [], (List.append_nil _).symm, hnow h'⟩

/-- **Linearizability.** A run after which every command that was called is answered has a
sequential order of these commands with the same replies and the same store, in which a command that
was answered before another was called comes first. -/
theorem linearizable (hend : ∀ i, (run n).phase i = .idle ∨ ∃ a, (run n).phase i = .done a) :
    ∃ order : List ι, order.Nodup ∧ (∀ i, i ∈ order ↔ (run n).phase i ≠ .idle) ∧
      (∀ i a, (run n).phase i = .done a ↔ (i, a) ∈ (serial st cmds order start).1) ∧
        (run n).store = (serial st cmds order start).2 ∧
          ∀ m ≤ n, ∀ i j a, (run m).phase i = .done a → (run m).phase j = .idle →
            j ∈ order → Precedes order i j := by
  obtain ⟨order, h, hpast⟩ := linearized_run hcmds hrun
  have hreply : ∀ i a, (run n).phase i = .done a → (i, a) ∈ (serial st cmds order start).1 := by
    intro i a hi
    have hfit := h.fits i
    rw [hi] at hfit
    exact hfit
  have hidle : ∀ i, (run n).phase i = .idle → i ∉ order := by
    intro i hi
    have hfit := h.fits i
    rw [hi] at hfit
    exact hfit
  have hkeys : ((serial st cmds order start).1.map Prod.fst).Nodup := by
    rw [map_fst_serial]
    exact h.nodup
  refine ⟨order, h.nodup, fun i ↦ ⟨fun hi hne ↦ hidle i hne hi, fun hi ↦ ?_⟩,
    fun i a ↦ ⟨hreply i a, fun ha ↦ ?_⟩, ?_, ?_⟩
  · obtain ⟨a, ha⟩ := (hend i).resolve_left hi
    exact mem_order_of_mem_replies (hreply i a ha)
  · rcases hend i with hi | ⟨b, hb⟩
    · exact absurd (mem_order_of_mem_replies ha) (hidle i hi)
    · rw [hb]
      have hpair := List.inj_on_of_nodup_map hkeys (hreply i b hb) ha rfl
      rw [(Prod.mk.inj hpair).2]
  · refine h.agree fun j held rest hj ↦ ?_
    rcases hend j with hj' | ⟨b, hj'⟩ <;> exact nomatch hj.symm.trans hj'
  · intro m hm i j a hi hj hmem
    obtain ⟨before, after, rfl, hdone, hcalled⟩ := hpast m hm
    exact ⟨before, after, rfl, hdone i a hi,
      (List.mem_append.1 hmem).resolve_left (hcalled j hj)⟩

end

end

end Linearize
