import Kiwi.Lib.Fair
import Kiwi.Runtime.StorageAccessGate
import Mathlib.Algebra.Order.BigOperators.Group.Finset

/-!
# The storage access gate excludes and wakes

`Sound` holds in every state. The counter is the number of tasks that are counted, so when the
pauser reads zero nobody has a permit, and a task that counts itself in later sees the flag. Whoever
waits without having been notified waits for a notification that is still to come: the pauser for
the last task that counts itself out, and a task for the resumption.

From these two and fairness, `gate_excludes_and_wakes` follows in stages. While the gate is being
paused, the distance of a task from the outside (`drainRank`) never grows, so from some moment on
nobody is counted and nobody is about to notify; the pauser has been notified by then and reads
zero. After the last resumption a task that waits is notified and its next attempt is not undone.
-/

namespace Kiwi.Runtime.AccessGate

variable {ι : Type} [DecidableEq ι] {g : AccessGate ι}

/-! ### Phases -/

/-- Whether a task is counted in `active`. -/
def weight : TaskPhase → ℕ
  | .confirm | .undo | .holding => 1
  | _ => 0

/-- The task was the last one out and has not notified yet. -/
def Notifies (phase : TaskPhase) : Prop := phase = .undoNotify ∨ phase = .dropNotify

/-- The flag is set. -/
def isPausing : PauserPhase → Bool
  | .register | .load _ | .waiting _ | .paused => true
  | .idle | .resumeNotify => false

variable (phase : TaskPhase)

@[simp] theorem weight_notify : weight phase.notify = weight phase := by
  cases phase <;> rfl

@[simp] theorem isPausing_notify (phase : PauserPhase) :
    isPausing phase.notify = isPausing phase := by
  cases phase <;> rfl

theorem notify_ne_waiting : phase.notify ≠ .waiting false := by
  cases phase <;> simp [TaskPhase.notify]

variable {phase : TaskPhase}

theorem notify_eq_holding_iff : phase.notify = .holding ↔ phase = .holding := by
  cases phase <;> simp [TaskPhase.notify]

/-! ### The invariant -/

variable [Fintype ι]

/-- What holds in every state. -/
structure Sound (g : AccessGate ι) : Prop where
  active : g.active = ∑ i, weight (g.tasks i)
  /-- The flag is set while the pauser is at work. -/
  flag : g.paused = isPausing g.pauser
  /-- Nobody has a permit while the gate is paused. -/
  excluded : g.pauser = .paused → ∀ i, g.tasks i ≠ .holding
  /-- The pauser waits for somebody. -/
  drained : g.pauser = .waiting false → 0 < g.active ∨ ∃ i, Notifies (g.tasks i)
  /-- A task waits for the resumption. -/
  heard : ∀ i, g.tasks i = .waiting false → g.paused = true ∨ g.pauser = .resumeNotify

omit [DecidableEq ι] in
theorem sound_init : Sound ({} : AccessGate ι) where
  active := by simp [weight]
  flag := rfl
  excluded h := by cases h
  drained h := by cases h
  heard i h := by cases h

theorem sum_weight_update (tasks : ι → TaskPhase) (i : ι) (phase : TaskPhase) :
    (∑ j, weight (Function.update tasks i phase j)) + weight (tasks i) =
      (∑ j, weight (tasks j)) + weight phase := by
  have hrest : ∑ j ∈ Finset.univ.erase i, weight (Function.update tasks i phase j) =
      ∑ j ∈ Finset.univ.erase i, weight (tasks j) :=
    Finset.sum_congr rfl fun j hj ↦ by rw [Function.update_of_ne (Finset.ne_of_mem_erase hj)]
  rw [← Finset.add_sum_erase _ _ (Finset.mem_univ i), hrest, Function.update_self,
    ← Finset.add_sum_erase Finset.univ (fun j ↦ weight (tasks j)) (Finset.mem_univ i)]
  omega

variable {i : ι}

omit [DecidableEq ι] in
theorem Sound.active_pos (h : Sound g) (hi : weight (g.tasks i) = 1) : 0 < g.active := by
  have hle : weight (g.tasks i) ≤ ∑ j, weight (g.tasks j) :=
    Finset.single_le_sum (f := fun j ↦ weight (g.tasks j)) (fun _ _ ↦ Nat.zero_le _)
      (Finset.mem_univ i)
  rw [h.active]
  omega

/-- **One task moves** and the counter with it. -/
theorem Sound.move (h : Sound g) {active : ℕ}
    (hactive : active + weight (g.tasks i) = g.active + weight phase)
    (hholding : phase = .holding → g.paused = false)
    (hdrained : 0 < g.active ∨ Notifies (g.tasks i) → g.pauser = .waiting false →
      0 < active ∨ Notifies phase)
    (hheard : phase = .waiting false → g.paused = true) :
    Sound { g.setTask i phase with active := active } where
  active := by
    have hsum := sum_weight_update g.tasks i phase
    have hold := h.active
    show active = ∑ j, weight (Function.update g.tasks i phase j)
    omega
  flag := h.flag
  excluded hpaused j := by
    show Function.update g.tasks i phase j ≠ _
    rcases eq_or_ne j i with rfl | hj
    · rw [Function.update_self]
      intro hphase
      have hflag := h.flag
      rw [hholding hphase, show g.pauser = .paused from hpaused] at hflag
      cases hflag
    · rw [Function.update_of_ne hj]
      exact h.excluded hpaused j
  drained hwaiting := by
    have hwaiting : g.pauser = .waiting false := hwaiting
    have hself : Notifies phase → Notifies (Function.update g.tasks i phase i) := fun hp ↦ by
      rwa [Function.update_self]
    rcases h.drained hwaiting with hpos | ⟨j, hj⟩
    · exact (hdrained (Or.inl hpos) hwaiting).imp_right fun hp ↦ ⟨i, hself hp⟩
    · rcases eq_or_ne j i with rfl | hne
      · exact (hdrained (Or.inr hj) hwaiting).imp_right fun hp ↦ ⟨j, hself hp⟩
      · refine Or.inr ⟨j, ?_⟩
        show Notifies (Function.update g.tasks i phase j)
        rwa [Function.update_of_ne hne]
  heard j hj := by
    have hj : Function.update g.tasks i phase j = .waiting false := hj
    rcases eq_or_ne j i with rfl | hne
    · rw [Function.update_self] at hj
      exact Or.inl (hheard hj)
    · rw [Function.update_of_ne hne] at hj
      exact h.heard j hj

/-- One task moves between phases in which it is not counted, or is. -/
theorem Sound.setTask (h : Sound g) (hweight : weight phase = weight (g.tasks i))
    (hholding : phase = .holding → g.paused = false)
    (hnotifies : Notifies (g.tasks i) → g.pauser ≠ .waiting false)
    (hheard : phase = .waiting false → g.paused = true) : Sound (g.setTask i phase) :=
  h.move (by rw [hweight]) hholding
    (fun hor hwaiting ↦ Or.inl (hor.resolve_right fun hn ↦ hnotifies hn hwaiting)) hheard

/-- A task that was counted is not any more. -/
theorem Sound.fetchSub (h : Sound g) (hi : weight (g.tasks i) = 1) {last other : TaskPhase}
    (hlast : Notifies last) (hother : weight other = 0) (hwait : other ≠ .waiting false) :
    Sound (g.fetchSub i last other) := by
  have hpos := h.active_pos hi
  have hlast' : weight last = 0 ∧ last ≠ .waiting false := by
    rcases hlast with rfl | rfl <;> simp [weight]
  have hholding : ∀ {phase : TaskPhase}, weight phase = 0 → phase ≠ .holding := by
    rintro _ h rfl
    cases h
  rw [AccessGate.fetchSub]
  split_ifs with hone
  · refine h.move (by rw [hi, hlast'.1]; omega) (fun he ↦ absurd he (hholding hlast'.1))
      (fun _ _ ↦ Or.inr hlast) fun he ↦ absurd he hlast'.2
  · refine h.move (by rw [hi, hother]; omega) (fun he ↦ absurd he (hholding hother))
      (fun _ _ ↦ Or.inl (by omega)) fun he ↦ absurd he hwait

omit [DecidableEq ι] in
theorem Sound.notifyWaiters (h : Sound g) : Sound g.notifyWaiters where
  active := by
    rw [AccessGate.notifyWaiters]
    simpa using h.active
  flag := by
    rw [AccessGate.notifyWaiters]
    simpa using h.flag
  excluded hpaused i := by
    have hpaused : g.pauser = .paused := by
      rcases hp : g.pauser with _ | _ | _ | _ | _ | _ <;>
        simp [AccessGate.notifyWaiters, PauserPhase.notify, hp] at hpaused
      rfl
    exact fun hi ↦ h.excluded hpaused i (notify_eq_holding_iff.1 hi)
  drained hwaiting := by
    rcases hp : g.pauser with _ | _ | _ | _ | _ | _ <;>
      simp [AccessGate.notifyWaiters, PauserPhase.notify, hp] at hwaiting
  heard i hi := absurd hi (notify_ne_waiting _)

omit [DecidableEq ι] [Fintype ι] in
theorem notifyWaiters_pauser_ne : g.notifyWaiters.pauser ≠ .waiting false := by
  rcases hp : g.pauser with _ | _ | _ | _ | _ | _ <;>
    simp [AccessGate.notifyWaiters, PauserPhase.notify, hp]

theorem Sound.taskStep (h : Sound g) (i : ι) : Sound (g.taskStep i) := by
  rw [AccessGate.taskStep]
  rcases hi : g.tasks i with _ | _ | _ | notified | notified | _ | _ | _ | _ | _ | _ <;> dsimp only
  · exact h
  · split_ifs <;> exact h.setTask (by simp [hi, weight]) (by simp) (by simp [hi, Notifies]) (by simp)
  · exact h.setTask (by simp [hi, weight]) (by simp) (by simp [hi, Notifies]) (by simp)
  · split_ifs with hpaused
    · exact h.setTask (by simp [hi, weight]) (by simp) (by simp [hi, Notifies]) fun _ ↦ hpaused
    · exact h.setTask (by simp [hi, weight]) (by simp) (by simp [hi, Notifies]) (by simp)
  · cases notified with
    | false => exact h
    | true => exact h.setTask (by simp [hi, weight]) (by simp) (by simp [hi, Notifies]) (by simp)
  · exact h.move (by simp [hi, weight]) (by simp) (fun _ _ ↦ Or.inl (Nat.succ_pos _)) (by simp)
  · split_ifs with hpaused
    · exact h.setTask (by simp [hi, weight]) (by simp) (by simp [hi, Notifies]) (by simp)
    · exact h.setTask (by simp [hi, weight]) (fun _ ↦ by simpa using hpaused)
        (by simp [hi, Notifies]) (by simp)
  · exact h.fetchSub (by simp [hi, weight]) (Or.inl rfl) rfl (by simp)
  · have htask : g.notifyWaiters.tasks i = .undoNotify := by
      simp [AccessGate.notifyWaiters, hi, TaskPhase.notify]
    exact h.notifyWaiters.setTask (by simp [htask, weight]) (by simp)
      (fun _ ↦ notifyWaiters_pauser_ne) (by simp)
  · exact h
  · have htask : g.notifyWaiters.tasks i = .dropNotify := by
      simp [AccessGate.notifyWaiters, hi, TaskPhase.notify]
    exact h.notifyWaiters.setTask (by simp [htask, weight]) (by simp)
      (fun _ ↦ notifyWaiters_pauser_ne) (by simp)

omit [DecidableEq ι] in
theorem Sound.setPauser (h : Sound g) {paused : Bool} {pauser : PauserPhase}
    (hflag : paused = isPausing pauser) (hexcluded : pauser = .paused → ∀ i, g.tasks i ≠ .holding)
    (hdrained : pauser = .waiting false → 0 < g.active)
    (hheard : paused = true ∨ pauser = .resumeNotify ∨ ∀ i, g.tasks i ≠ .waiting false) :
    Sound { g with paused := paused, pauser := pauser } where
  active := h.active
  flag := hflag
  excluded := hexcluded
  drained hw := Or.inl (hdrained hw)
  heard i hi := by
    rcases hheard with hp | hp | hp
    · exact Or.inl hp
    · exact Or.inr hp
    · exact absurd hi (hp i)

omit [DecidableEq ι] in
theorem Sound.pauserStep (h : Sound g) : Sound g.pauserStep := by
  have hflag := h.flag
  rw [AccessGate.pauserStep]
  rcases hp : g.pauser with _ | _ | notified | notified | _ | _ <;> rw [hp] at hflag <;> dsimp only
  · exact h
  · exact h.setPauser hflag (by simp) (by simp) (Or.inl hflag)
  · split_ifs with hzero
    · refine h.setPauser hflag (fun _ i hi ↦ ?_) (by simp) (Or.inl hflag)
      have hpos := h.active_pos (i := i) (by rw [hi]; rfl)
      omega
    · exact h.setPauser hflag (by simp) (fun _ ↦ Nat.pos_of_ne_zero hzero)
        (Or.inl hflag)
  · cases notified with
    | false => exact h
    | true => exact h.setPauser hflag (by simp) (by simp) (Or.inl hflag)
  · exact h
  · exact h.notifyWaiters.setPauser hflag (by simp) (by simp)
      (Or.inr (Or.inr fun i ↦ notify_ne_waiting _))

/-- **One step keeps the invariant.** -/
theorem sound_step (g : AccessGate ι) (a : GateAction ι) (h : Sound g) : Sound (g.step a) := by
  cases a with
  | enter i =>
    rw [step]
    split_ifs with hi
    · exact h.setTask (by simp [hi, weight]) (by simp) (by simp [hi, Notifies]) (by simp)
    · exact h
  | task i => exact h.taskStep i
  | drop i =>
    rw [step]
    split_ifs with hi
    · exact h.fetchSub (by simp [hi, weight]) (Or.inr rfl) rfl (by simp)
    · exact h
  | requestPause =>
    rw [step]
    split_ifs
    · exact h.setPauser rfl (by simp) (by simp) (Or.inl rfl)
    · exact h
  | pauser => exact h.pauserStep
  | cancel =>
    rw [step]
    split
    · exact h.setPauser rfl (by simp) (by simp) (Or.inr (Or.inl rfl))
    · exact h
  | resume =>
    rw [step]
    split_ifs
    · exact h.setPauser rfl (by simp) (by simp) (Or.inr (Or.inl rfl))
    · exact h

/-! ### What a step does to one task -/

omit [Fintype ι]

/-- The phase after the next step of a task. -/
def nextPhase (g : AccessGate ι) (i : ι) : TaskPhase :=
  match g.tasks i with
  | .check => if g.paused then .register else .add
  | .register => .recheck false
  | .recheck notified => if g.paused then .waiting notified else .add
  | .waiting true => .check
  | .add => .confirm
  | .confirm => if g.paused then .undo else .holding
  | .undo => if g.active = 1 then .undoNotify else .check
  | .undoNotify => .check
  | .dropNotify => .idle
  | .idle => .idle
  | .waiting false => .waiting false
  | .holding => .holding

section

variable (g : AccessGate ι)

theorem tasks_taskStep_self (i : ι) : (g.taskStep i).tasks i = g.nextPhase i := by
  rw [taskStep, nextPhase]
  rcases hi : g.tasks i with _ | _ | _ | notified | (_ | _) | _ | _ | _ | _ | _ | _ <;>
    simp [setTask, fetchSub, hi]

theorem tasks_taskStep_of_ne {i j : ι} (hj : j ≠ i) :
    (g.taskStep i).tasks j = g.tasks j ∨ (g.taskStep i).tasks j = (g.tasks j).notify := by
  rw [taskStep]
  rcases hi : g.tasks i with _ | _ | _ | notified | (_ | _) | _ | _ | _ | _ | _ | _ <;>
    simp [setTask, fetchSub, notifyWaiters, hj]

/-- **A task moves** by its own step, by the calls that begin and end its stay, or is notified. -/
theorem tasks_step (a : GateAction ι) (j : ι) :
    (g.step a).tasks j = g.tasks j ∨ (g.step a).tasks j = (g.tasks j).notify ∨
      (g.tasks j = .idle ∧ (g.step a).tasks j = .check) ∨
      (g.tasks j = .holding ∧ ((g.step a).tasks j = .dropNotify ∨ (g.step a).tasks j = .idle)) ∨
      (a = .task j ∧ (g.step a).tasks j = g.nextPhase j) := by
  cases a with
  | enter i =>
    rw [step]
    split_ifs with hi
    · rcases eq_or_ne j i with rfl | hj
      · simp [setTask, hi]
      · simp [setTask, hj]
    · exact Or.inl rfl
  | task i =>
    rcases eq_or_ne j i with rfl | hj
    · exact Or.inr (Or.inr (Or.inr (Or.inr ⟨rfl, g.tasks_taskStep_self j⟩)))
    · exact (g.tasks_taskStep_of_ne hj).imp_right Or.inl
  | drop i =>
    rw [step]
    split_ifs with hi
    · rcases eq_or_ne j i with rfl | hj
      · refine Or.inr (Or.inr (Or.inr (Or.inl ⟨hi, ?_⟩)))
        simp only [fetchSub, setTask, Function.update_self]
        split_ifs
        · exact Or.inl rfl
        · exact Or.inr rfl
      · simp [setTask, fetchSub, hj]
    · exact Or.inl rfl
  | requestPause =>
    rw [step]
    split_ifs <;> exact Or.inl rfl
  | pauser =>
    rw [step, pauserStep]
    rcases g.pauser with _ | _ | notified | (_ | _) | _ | _
    case resumeNotify => exact Or.inr (Or.inl rfl)
    all_goals exact Or.inl rfl
  | cancel =>
    rw [step]
    split <;> exact Or.inl rfl
  | resume =>
    rw [step]
    split_ifs <;> exact Or.inl rfl

end

/-! ### Draining -/

/-- How far a task is from the outside while the gate is being paused. -/
def drainRank : TaskPhase → ℕ
  | .add => 4
  | .confirm => 3
  | .undo | .holding => 2
  | .undoNotify | .dropNotify => 1
  | _ => 0

theorem drainRank_step (hpaused : g.paused = true) (a : GateAction ι) (j : ι) :
    drainRank ((g.step a).tasks j) ≤ drainRank (g.tasks j) := by
  rcases g.tasks_step a j with h | h | ⟨h, h'⟩ | ⟨h, h' | h'⟩ | ⟨-, h⟩
  · rw [h]
  · rw [h]
    rcases g.tasks j <;> exact le_rfl
  · rw [h, h']
    exact le_rfl
  · rw [h, h']
    decide
  · rw [h, h']
    decide
  · rw [h, nextPhase]
    rcases g.tasks j with _ | _ | _ | notified | (_ | _) | _ | _ | _ | _ | _ | _ <;>
      simp only [hpaused, if_true, drainRank] <;> try omega
    split_ifs <;> simp

variable {j : ι}

theorem drainRank_task (hpaused : g.paused = true) (hpos : 0 < drainRank (g.tasks j))
    (hne : g.tasks j ≠ .holding) :
    drainRank ((g.step (.task j)).tasks j) < drainRank (g.tasks j) := by
  rw [step, tasks_taskStep_self, nextPhase]
  rcases hj : g.tasks j with _ | _ | _ | notified | (_ | _) | _ | _ | _ | _ | _ | _ <;>
    simp only [hj, drainRank, hpaused, if_true, ne_eq, not_true_eq_false] at hpos hne ⊢ <;>
    try omega
  split_ifs <;> simp

variable {a : GateAction ι}

theorem holding_of_step (hpaused : g.paused = true)
    (h : (g.step a).tasks j = .holding) : g.tasks j = .holding := by
  rcases g.tasks_step a j with h' | h' | ⟨-, h'⟩ | ⟨h', -⟩ | ⟨-, h'⟩
  · rwa [h'] at h
  · rw [h'] at h
    exact notify_eq_holding_iff.1 h
  · rw [h'] at h
    cases h
  · exact h'
  · rw [h', nextPhase] at h
    rcases hj : g.tasks j with _ | _ | _ | notified | (_ | _) | _ | _ | _ | _ | _ | _ <;>
      simp only [hj, hpaused, if_true, reduceCtorEq] at h ⊢
    split_ifs at h

theorem drainRank_of_leaves (h : g.tasks j = .holding)
    (h' : (g.step a).tasks j ≠ .holding) : drainRank ((g.step a).tasks j) < 2 := by
  rcases g.tasks_step a j with hs | hs | ⟨hs, -⟩ | ⟨-, hs | hs⟩ | ⟨-, hs⟩
  · exact absurd (hs.trans h) h'
  · rw [h] at hs
    exact absurd hs h'
  · rw [h] at hs
    cases hs
  · rw [hs]
    decide
  · rw [hs]
    decide
  · rw [nextPhase, h] at hs
    exact absurd hs h'

/-! ### What a step does to the pauser -/

/-- How far the pauser is from its return when nobody is counted. -/
def pauserRank : PauserPhase → ℕ
  | .waiting _ => 3
  | .register => 2
  | .load _ => 1
  | _ => 0

/-- A task does not move the pauser, except that it notifies. -/
theorem pauser_taskStep (g : AccessGate ι) (i : ι) :
    (g.taskStep i).pauser = g.pauser ∨ (g.taskStep i).pauser = g.pauser.notify := by
  rw [taskStep]
  rcases g.tasks i with _ | _ | _ | notified | (_ | _) | _ | _ | _ | _ | _ | _ <;>
    simp [setTask, fetchSub, notifyWaiters]

section

variable (hpausing : isPausing g.pauser = true) (hpaused : g.pauser ≠ .paused)
  (hcancel : a ≠ .cancel)

include hpausing hpaused hcancel

theorem pauser_step :
    (g.step a).pauser = g.pauser ∨ (g.step a).pauser = g.pauser.notify ∨
      (a = .pauser ∧ (g.step a).pauser = g.pauserStep.pauser) := by
  cases a with
  | enter i =>
    rw [step]
    split_ifs <;> exact Or.inl rfl
  | task i => exact (g.pauser_taskStep i).imp_right Or.inl
  | drop i =>
    rw [step]
    split_ifs <;> exact Or.inl rfl
  | requestPause =>
    rw [step]
    split_ifs with hidle
    · rw [hidle] at hpausing
      cases hpausing
    · exact Or.inl rfl
  | pauser => exact Or.inr (Or.inr ⟨rfl, rfl⟩)
  | cancel => exact absurd rfl hcancel
  | resume =>
    rw [step, if_neg hpaused]
    exact Or.inl rfl

theorem isPausing_step : isPausing (g.step a).pauser = true := by
  rcases pauser_step hpausing hpaused hcancel with h | h | ⟨-, h⟩
  · rwa [h]
  · rwa [h, isPausing_notify]
  · rw [h, pauserStep]
    rcases hp : g.pauser with _ | _ | notified | (_ | _) | _ | _ <;> rw [hp] at hpausing
    · cases hpausing
    · rfl
    · dsimp only
      split_ifs <;> rfl
    · rw [hp]
      rfl
    · rfl
    · exact absurd hp hpaused
    · cases hpausing

theorem pauserRank_step (hactive : g.active = 0) :
    pauserRank (g.step a).pauser ≤ pauserRank g.pauser := by
  rcases pauser_step hpausing hpaused hcancel with h | h | ⟨-, h⟩
  · rw [h]
  · rw [h]
    rcases g.pauser <;> exact le_rfl
  · rw [h, pauserStep]
    rcases hp : g.pauser with _ | _ | notified | (_ | _) | _ | _ <;>
      simp [pauserRank, hactive, hp]

end

theorem pauserRank_pauser (hpos : 0 < pauserRank g.pauser) (hwaiting : g.pauser ≠ .waiting false)
    (hactive : g.active = 0) : pauserRank (g.step .pauser).pauser < pauserRank g.pauser := by
  rw [step, pauserStep]
  rcases hp : g.pauser with _ | _ | notified | (_ | _) | _ | _ <;> rw [hp] at hpos hwaiting
  · cases hpos
  · simp [pauserRank]
  · simp [pauserRank, hactive]
  · exact absurd rfl hwaiting
  · simp [pauserRank]
  · cases hpos
  · cases hpos

/-! ### The pauser returns -/

section Pause

variable [Fintype ι] {r : Execution (step (ι := ι))}

theorem eventually_drained (hpaused : ∀ n, (r.states n).paused = true)
    (hfair : ∀ i, r.Fair (.task i)) (hdropped : ∀ i n, (r.states n).tasks i = .holding →
      ∃ m ≥ n, (r.states m).tasks i ≠ .holding) :
    ∃ n, ∀ m ≥ n, ∀ i, drainRank ((r.states m).tasks i) = 0 := by
  have hle : ∀ i n, drainRank ((r.states (n + 1)).tasks i) ≤ drainRank ((r.states n).tasks i) := by
    intro i n
    rw [r.next]
    exact drainRank_step (hpaused n) _ i
  have hstay : ∀ i n, drainRank ((r.states n).tasks i) = 0 →
      drainRank ((r.states (n + 1)).tasks i) = 0 := fun i n h ↦
    Nat.le_zero.1 (h ▸ hle i n)
  have hone : ∀ i, ∃ n, drainRank ((r.states n).tasks i) = 0 := by
    intro i
    suffices hprogress : ∀ n, 0 < drainRank ((r.states n).tasks i) →
        ∃ m ≥ n, drainRank ((r.states m).tasks i) < drainRank ((r.states n).tasks i) by
      obtain ⟨m, -, hm⟩ := Execution.eventually_zero (r := r)
        (f := fun s ↦ drainRank (s.tasks i)) hprogress 0
      exact ⟨m, hm⟩
    intro n hpos
    by_cases hholding : (r.states n).tasks i = .holding
    · -- the permit is dropped
      obtain ⟨m, hm, hleft⟩ := hdropped i n hholding
      obtain ⟨k, hk, hbefore, hafter⟩ := Execution.exists_step_of_not
        (P := fun m ↦ (r.states m).tasks i = .holding) hm hholding hleft
      refine ⟨k + 1, by omega, ?_⟩
      rw [r.next] at hafter ⊢
      rw [hholding]
      exact drainRank_of_leaves hbefore hafter
    · -- the next step of the task
      refine Execution.eventually_of_ensures (r := r) (hfair i)
        (P := fun s ↦ drainRank (s.tasks i) = drainRank ((r.states n).tasks i) ∧
          s.tasks i ≠ .holding)
        (Q := fun s ↦ drainRank (s.tasks i) < drainRank ((r.states n).tasks i)) ?_ ?_
        ⟨rfl, hholding⟩
      · rintro m ⟨hm, hne⟩
        rcases (hle i m).eq_or_lt with heq | hlt
        · refine Or.inl ⟨heq.trans hm, fun h ↦ hne ?_⟩
          rw [r.next] at h
          exact holding_of_step (hpaused m) h
        · exact Or.inr (hlt.trans_eq hm)
      · rintro m ⟨hm, hne⟩ ha
        rw [r.next, ha, ← hm]
        exact drainRank_task (hpaused m) (hm ▸ hpos) hne
  obtain ⟨n, hn⟩ := Execution.eventually_forall
    (P := fun i n ↦ drainRank ((r.states n).tasks i) = 0) hstay hone
  exact ⟨n, fun m hm i ↦ Execution.of_le (P := fun m ↦ drainRank ((r.states m).tasks i) = 0)
    (hstay i) hm (hn i)⟩

omit [DecidableEq ι] in
theorem Sound.drained_of_drainRank (h : Sound g) (hrank : ∀ i, drainRank (g.tasks i) = 0) :
    g.active = 0 ∧ g.pauser ≠ .waiting false := by
  have hactive : g.active = 0 := by
    rw [h.active]
    refine Finset.sum_eq_zero fun i _ ↦ ?_
    have hi := hrank i
    rcases hp : g.tasks i <;> rw [hp] at hi <;> first | rfl | cases hi
  refine ⟨hactive, fun hw ↦ ?_⟩
  rcases h.drained hw with hpos | ⟨i, hi | hi⟩
  · omega
  · have := hrank i
    rw [hi] at this
    cases this
  · have := hrank i
    rw [hi] at this
    cases this

omit [Fintype ι] in
theorem pauser_returns_of_drained (hpauser : r.Fair .pauser)
    (hpausing : ∀ m, isPausing (r.states m).pauser = true)
    (hdrained : ∀ m, (r.states m).active = 0 ∧ (r.states m).pauser ≠ .waiting false) :
    ∃ m, (r.states m).pauser = .paused ∨ r.actions m = .cancel := by
  by_contra hnever
  push Not at hnever
  have hrank : ∀ m, 0 < pauserRank (r.states m).pauser := by
    intro m
    have hpm := hpausing m
    have hne := (hnever m).1
    rcases hp : (r.states m).pauser <;> rw [hp] at hpm hne
    case idle | resumeNotify => cases hpm
    case paused => exact absurd rfl hne
    all_goals exact Nat.succ_pos _
  suffices hprogress : ∀ m, 0 < pauserRank (r.states m).pauser → ∃ m' ≥ m,
      pauserRank (r.states m').pauser < pauserRank (r.states m).pauser by
    obtain ⟨m, -, hzero⟩ := Execution.eventually_zero (r := r)
      (f := fun s ↦ pauserRank s.pauser) hprogress 0
    exact absurd hzero (hrank m).ne'
  intro m _
  refine Execution.eventually_of_ensures (r := r) hpauser
    (P := fun s ↦ pauserRank s.pauser = pauserRank (r.states m).pauser)
    (Q := fun s ↦ pauserRank s.pauser < pauserRank (r.states m).pauser) ?_ ?_ rfl
  · intro m' hm'
    have hle : pauserRank (r.states (m' + 1)).pauser ≤ pauserRank (r.states m').pauser := by
      rw [r.next]
      exact pauserRank_step (hpausing m') (hnever m').1 (hnever m').2 (hdrained m').1
    rcases hle.eq_or_lt with heq | hlt
    · exact Or.inl (heq.trans hm')
    · exact Or.inr (hlt.trans_eq hm')
  · intro m' hm' ha
    rw [r.next, ha, ← hm']
    exact pauserRank_pauser (hrank m') (hdrained m').2 (hdrained m').1

/-- **The pauser returns**, unless it is cancelled. -/
theorem pause_returns (hsound : ∀ n, Sound (r.states n)) (hfair : ∀ i, r.Fair (.task i))
    (hpauser : r.Fair .pauser) {n : ℕ} (hidle : (r.states n).pauser = .idle)
    (hrequest : r.actions n = .requestPause)
    (hdropped : ∀ i, (r.states n).tasks i = .holding → ∃ m ≥ n, (r.states m).tasks i ≠ .holding) :
    ∃ m > n, (r.states m).pauser = .paused ∨ r.actions m = .cancel := by
  by_contra hnever
  push Not at hnever
  have hfirst : (r.states (n + 1)) = { r.states n with paused := true, pauser := .register } := by
    rw [r.next, hrequest, step, if_pos hidle]
  -- the pauser is at work from now on
  have hpausing : ∀ m, isPausing (r.states (n + 1 + m)).pauser = true := by
    intro m
    induction m with
    | zero =>
      rw [Nat.add_zero, hfirst]
      rfl
    | succ m ih =>
      obtain ⟨hne, hcancel⟩ := hnever (n + 1 + m) (by omega)
      rw [← Nat.add_assoc, r.next]
      exact isPausing_step ih hne hcancel
  have hpaused : ∀ m, (r.states (n + 1 + m)).paused = true := fun m ↦
    (hsound _).flag.trans (hpausing m)
  have hstays : ∀ i m, (r.states (n + 1 + m)).tasks i ≠ .holding →
      (r.states (n + 1 + (m + 1))).tasks i ≠ .holding := by
    intro i m hne h
    rw [← Nat.add_assoc, r.next] at h
    exact hne (holding_of_step (hpaused m) h)
  obtain ⟨k, hk⟩ := eventually_drained (r := r.tail (n + 1)) hpaused (fun i ↦ (hfair i).tail _)
    fun i m hm ↦ by
      -- a permit that is held now was held at the start, and is dropped
      have hstart : (r.states n).tasks i = .holding := by
        by_contra hne
        refine Execution.of_le (P := fun m ↦ (r.states (n + 1 + m)).tasks i ≠ .holding) (hstays i)
          (Nat.zero_le m) ?_ hm
        rw [Nat.add_zero, hfirst]
        exact hne
      obtain ⟨m', hm', hleft⟩ := hdropped i hstart
      have hlater : n + 1 ≤ m' := by
        rcases hm'.eq_or_lt with rfl | hlt
        · exact absurd hstart hleft
        · exact hlt
      obtain ⟨d, rfl⟩ := Nat.exists_eq_add_of_le hlater
      rcases Nat.le_total m d with hle | hle
      · exact ⟨d, hle, hleft⟩
      · exact ⟨m, le_rfl, Execution.of_le
          (P := fun m ↦ (r.states (n + 1 + m)).tasks i ≠ .holding) (hstays i) hle hleft⟩
  -- from now on the counter is zero and the pauser has been notified
  have hdrained : ∀ m, (r.states (n + 1 + (k + m))).active = 0 ∧
      (r.states (n + 1 + (k + m))).pauser ≠ .waiting false := fun m ↦
    (hsound _).drained_of_drainRank (hk (k + m) (Nat.le_add_right k m))
  obtain ⟨m, hm⟩ := pauser_returns_of_drained (r := (r.tail (n + 1)).tail k)
    ((hpauser.tail _).tail _) (fun m ↦ hpausing (k + m)) hdrained
  obtain ⟨hne, hcancel⟩ := hnever (n + 1 + (k + m)) (by omega)
  exact hm.elim hne hcancel

end Pause

/-! ### A waiting task gets its permit -/

/-- The task is inside `enter`. -/
def Entering (phase : TaskPhase) : Prop :=
  phase ≠ .idle ∧ phase ≠ .holding ∧ phase ≠ .dropNotify

/-- How far a task in `enter` is from its permit while the gate is open. -/
def enterRank : TaskPhase → ℕ
  | .waiting false => 8
  | .waiting true | .undo => 7
  | .undoNotify | .register => 6
  | .recheck _ | .check => 5
  | .add => 4
  | .confirm => 3
  | .idle | .holding | .dropNotify => 0

theorem entering_iff : Entering phase ↔ 0 < enterRank phase := by
  rcases phase with _ | _ | _ | notified | (_ | _) | _ | _ | _ | _ | _ | _ <;>
    simp [Entering, enterRank]

theorem enterRank_eq_eight_iff : enterRank phase = 8 ↔ phase = .waiting false := by
  rcases phase with _ | _ | _ | notified | (_ | _) | _ | _ | _ | _ | _ | _ <;> simp [enterRank]

section

variable (hopen : g.paused = false)

include hopen

/-- With the gate open, a task in `enter` gets no further from its permit. -/
theorem enterRank_step (a : GateAction ι) (h : 0 < enterRank (g.tasks j)) :
    (g.step a).tasks j = .holding ∨ 0 < enterRank ((g.step a).tasks j) ∧
      enterRank ((g.step a).tasks j) ≤ enterRank (g.tasks j) := by
  rcases g.tasks_step a j with hs | hs | ⟨hs, -⟩ | ⟨hs, -⟩ | ⟨-, hs⟩
  · rw [hs]
    exact Or.inr ⟨h, le_rfl⟩
  · rw [hs]
    rcases hj : g.tasks j with _ | _ | _ | notified | (_ | _) | _ | _ | _ | _ | _ | _ <;>
      rw [hj] at h <;> simp [TaskPhase.notify, enterRank] at h ⊢
  · rw [hs] at h
    cases h
  · rw [hs] at h
    cases h
  · rw [hs, nextPhase]
    rcases hj : g.tasks j with _ | _ | _ | notified | (_ | _) | _ | _ | _ | _ | _ | _ <;>
      rw [hj] at h <;> simp [hopen, enterRank] at h ⊢
    split_ifs <;> simp

theorem enterRank_task (h : 0 < enterRank (g.tasks j)) (hne : g.tasks j ≠ .waiting false) :
    enterRank ((g.step (.task j)).tasks j) < enterRank (g.tasks j) := by
  rw [step, tasks_taskStep_self, nextPhase]
  rcases hj : g.tasks j with _ | _ | _ | notified | (_ | _) | _ | _ | _ | _ | _ | _ <;>
    rw [hj] at h hne <;>
    simp only [hopen, Bool.false_eq_true, if_false, enterRank, ne_eq, not_true_eq_false] at h hne ⊢ <;>
    try omega
  split_ifs <;> simp

/-- The flag is set only by a request. -/
theorem paused_step (ha : a ≠ .requestPause) : (g.step a).paused = false := by
  cases a with
  | enter i =>
    rw [step]
    split_ifs <;> exact hopen
  | task i =>
    rw [step, taskStep]
    rcases g.tasks i with _ | _ | _ | notified | (_ | _) | _ | _ | _ | _ | _ | _ <;> exact hopen
  | drop i =>
    rw [step]
    split_ifs <;> exact hopen
  | requestPause => exact absurd rfl ha
  | pauser =>
    rw [step, pauserStep]
    rcases g.pauser with _ | _ | notified | (_ | _) | _ | _ <;> exact hopen
  | cancel =>
    rw [step]
    split
    · rfl
    · exact hopen
  | resume =>
    rw [step]
    split_ifs
    · rfl
    · exact hopen

end

/-- **A task in `enter` gets its permit** once the gate stays open. -/
theorem enter_returns [Fintype ι] {r : Execution (step (ι := ι))}
    (hsound : ∀ n, Sound (r.states n)) (hfair : ∀ i, r.Fair (.task i)) (hpauser : r.Fair .pauser)
    {n : ℕ} (hopen : (r.states n).paused = false) (hlast : ∀ m ≥ n, r.actions m ≠ .requestPause)
    (hi : Entering ((r.states n).tasks i)) :
    ∃ m ≥ n, (r.states m).tasks i = .holding := by
  have hopen : ∀ m, (r.states (n + m)).paused = false := by
    intro m
    induction m with
    | zero => exact hopen
    | succ m ih =>
      rw [← Nat.add_assoc, r.next]
      exact paused_step ih (hlast _ (by omega))
  by_contra hnever
  push Not at hnever
  have hstep : ∀ m, 0 < enterRank ((r.states (n + m)).tasks i) →
      0 < enterRank ((r.states (n + m + 1)).tasks i) ∧
        enterRank ((r.states (n + m + 1)).tasks i) ≤ enterRank ((r.states (n + m)).tasks i) := by
    intro m hm
    have hne := hnever (n + m + 1) (by omega)
    rw [r.next] at hne ⊢
    exact (enterRank_step (hopen m) _ hm).resolve_left hne
  have hpos : ∀ m, 0 < enterRank ((r.states (n + m)).tasks i) := fun m ↦
    Execution.of_le (P := fun m ↦ 0 < enterRank ((r.states (n + m)).tasks i))
      (fun m hm ↦ (hstep m hm).1) (Nat.zero_le m) (entering_iff.1 hi)
  suffices hprogress : ∀ m, 0 < enterRank ((r.states (n + m)).tasks i) → ∃ m' ≥ m,
      enterRank ((r.states (n + m')).tasks i) < enterRank ((r.states (n + m)).tasks i) by
    obtain ⟨m, -, hzero⟩ := Execution.eventually_zero (r := r.tail n)
      (f := fun s ↦ enterRank (s.tasks i)) hprogress 0
    exact absurd hzero (hpos m).ne'
  intro m _
  have hstay : ∀ m', enterRank ((r.states (n + m')).tasks i) =
        enterRank ((r.states (n + m)).tasks i) →
      enterRank ((r.states (n + m' + 1)).tasks i) = enterRank ((r.states (n + m)).tasks i) ∨
        enterRank ((r.states (n + m' + 1)).tasks i) < enterRank ((r.states (n + m)).tasks i) :=
    fun m' hm' ↦ ((hstep m' (hpos m')).2.trans_eq hm').eq_or_lt
  by_cases hwaiting : (r.states (n + m)).tasks i = .waiting false
  · -- the pauser is about to notify
    refine Execution.eventually_of_ensures (r := r.tail n) (hpauser.tail n)
      (P := fun s ↦ enterRank (s.tasks i) = enterRank ((r.states (n + m)).tasks i))
      (Q := fun s ↦ enterRank (s.tasks i) < enterRank ((r.states (n + m)).tasks i)) hstay
      (fun m' hm' ha ↦ ?_) rfl
    have hphase : (r.states (n + m')).tasks i = .waiting false :=
      enterRank_eq_eight_iff.1 (hm'.trans (enterRank_eq_eight_iff.2 hwaiting))
    have hresume : (r.states (n + m')).pauser = .resumeNotify :=
      ((hsound _).heard i hphase).resolve_left (by rw [hopen]; simp)
    show enterRank ((r.states (n + m' + 1)).tasks i) < _
    rw [r.next, show r.actions (n + m') = .pauser from ha, step, pauserStep, hresume, hwaiting]
    show enterRank ((r.states (n + m')).tasks i).notify < _
    rw [hphase]
    decide
  · refine Execution.eventually_of_ensures (r := r.tail n) ((hfair i).tail n)
      (P := fun s ↦ enterRank (s.tasks i) = enterRank ((r.states (n + m)).tasks i))
      (Q := fun s ↦ enterRank (s.tasks i) < enterRank ((r.states (n + m)).tasks i)) hstay
      (fun m' hm' ha ↦ ?_) rfl
    have hne : (r.states (n + m')).tasks i ≠ .waiting false := fun hp ↦
      hwaiting (enterRank_eq_eight_iff.1 (hm'.symm.trans (enterRank_eq_eight_iff.2 hp)))
    show enterRank ((r.states (n + m' + 1)).tasks i) < _
    rw [r.next, show r.actions (n + m') = .task i from ha, ← hm']
    exact enterRank_task (hopen m') (hpos m') hne

/-- **The gate excludes and wakes.** In every execution from the open gate, nobody has a permit from
the return of `request_pause` to `resume`. If moreover every task and the pauser are scheduled
fairly, `request_pause` returns, unless it is cancelled, when the permits that were there at its
start are dropped; and whoever is inside `enter` while the gate is open gets a permit if the gate is
not paused again. -/
theorem gate_excludes_and_wakes [Fintype ι] (r : Execution (step (ι := ι)))
    (hinit : r.states 0 = {}) :
    (∀ n, (r.states n).pauser = .paused → ∀ i, (r.states n).tasks i ≠ .holding) ∧
    ((∀ i, r.Fair (.task i)) → r.Fair .pauser →
      (∀ n, (r.states n).pauser = .idle → r.actions n = .requestPause →
        (∀ i, (r.states n).tasks i = .holding → ∃ m ≥ n, (r.states m).tasks i ≠ .holding) →
        ∃ m > n, (r.states m).pauser = .paused ∨ r.actions m = .cancel) ∧
      ∀ n, (r.states n).paused = false → (∀ m ≥ n, r.actions m ≠ .requestPause) →
        ∀ i, Entering ((r.states n).tasks i) → ∃ m ≥ n, (r.states m).tasks i = .holding) := by
  have hsound : ∀ n, Sound (r.states n) := Execution.always (by rw [hinit]; exact sound_init)
    sound_step
  refine ⟨fun n ↦ (hsound n).excluded, fun hfair hpauser ↦ ⟨?_, ?_⟩⟩
  · intro n hidle hrequest hdropped
    exact pause_returns hsound hfair hpauser hidle hrequest hdropped
  · intro n hopen hlast i hi
    exact enter_returns hsound hfair hpauser hopen hlast hi

/-- One task: a pause, its end, and then the task enters. -/
def pauseThenEnter : Execution (step (ι := Unit)) :=
  .ofActions step {} fun
    | 0 => .requestPause
    | 5 => .resume
    | 7 => .enter ()
    | n => if n % 2 = 0 then .pauser else .task ()

theorem gate_wakes_one_task :
    (∃ m > 0, (pauseThenEnter.states m).pauser = .paused ∨ pauseThenEnter.actions m = .cancel) ∧
    ∃ m ≥ 8, (pauseThenEnter.states m).tasks () = .holding := by
  have hlate : ∀ n ≥ 8, pauseThenEnter.actions n = if n % 2 = 0 then .pauser else .task () := by
    intro n hn
    obtain ⟨k, rfl⟩ := Nat.exists_eq_add_of_le' hn
    rfl
  have hfair : ∀ i, pauseThenEnter.Fair (.task i) := fun i n ↦
    ⟨2 * n + 9, by omega, by rw [hlate _ (by omega), if_neg (by omega)]⟩
  have hpauser : pauseThenEnter.Fair .pauser := fun n ↦
    ⟨2 * n + 8, by omega, by rw [hlate _ (by omega), if_pos (by omega)]⟩
  obtain ⟨-, hlive⟩ := gate_excludes_and_wakes pauseThenEnter rfl
  obtain ⟨hpause, henter⟩ := hlive hfair hpauser
  refine ⟨hpause 0 rfl rfl fun _ h ↦ (by cases h), henter 8 rfl ?_ () ?_⟩
  · intro m hm
    rw [hlate m hm]
    split_ifs <;> simp
  · exact entering_iff.2 (by decide)

/-- **Permits are counted, and nobody waits unheard**, in every state of every execution. -/
theorem sound_execution [Fintype ι] (r : Execution (step (ι := ι))) (hinit : r.states 0 = {})
    (n : ℕ) : Sound (r.states n) :=
  Execution.always (by rw [hinit]; exact sound_init) sound_step n

theorem sound_pauseThenEnter : Sound (pauseThenEnter.states 9) :=
  sound_execution pauseThenEnter rfl 9

end Kiwi.Runtime.AccessGate
