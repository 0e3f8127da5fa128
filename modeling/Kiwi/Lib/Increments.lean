import Kiwi.Lib.Run
import Mathlib.Algebra.BigOperators.Group.Finset.Basic
import Mathlib.Algebra.Group.Action.Defs
import Mathlib.Algebra.Group.Torsion
import Mathlib.Data.Fintype.EquivFin

/-!
# Increments of a register that may be unset

Several calls increment one register, each by its own amount. A call that finds the register set
adds its increment in one atomic step. A call that finds it unset takes a second step, and that step
does not look again: it *sets* the register to the increment. Whatever was written in between is
lost.

`sum_of_set` says that nothing is lost when the register was set to begin with. If it was not,
`forall_final_iff` says that every interleaving of the calls ends with the sum of the increments
exactly when there is at most one call, or all increments are zero: otherwise all calls can find the
register unset, and the last one to set it decides (`final_lookThenSet`).

Values are acted on by the group of increments, so that the register may have values, such as an
infinity, that absorb increments.
-/

namespace Increments

/-- Where a call is. -/
inductive Phase
  /-- It has not looked at the register. -/
  | called
  /-- It found the register unset, and is about to set it. -/
  | setting
  | returned
  deriving DecidableEq

variable {ι G V : Type*}

/-- A register with the calls on it. -/
@[ext]
structure Register (ι V : Type*) where
  /-- The value, if the register is set. -/
  value : Option V
  phases : ι → Phase

/-- All calls have returned. -/
def Completed (phases : ι → Phase) : Prop := ∀ i, phases i = .returned

instance [Fintype ι] (phases : ι → Phase) : Decidable (Completed phases) :=
  inferInstanceAs (Decidable (∀ _, _))

/-- No call has looked yet. -/
def start (value : Option V) : Register ι V := ⟨value, fun _ ↦ .called⟩

section Step

variable [DecidableEq ι] [AddCommGroup G] [AddAction G V] (base : V) (increment : ι → G)

/-- The next step of a call. A register that is unset counts as `base`. -/
def step (r : Register ι V) (i : ι) : Register ι V :=
  match r.phases i, r.value with
  | .called, some v => ⟨some (increment i +ᵥ v), Function.update r.phases i .returned⟩
  | .called, none => ⟨none, Function.update r.phases i .setting⟩
  | .setting, _ => ⟨some (increment i +ᵥ base), Function.update r.phases i .returned⟩
  | .returned, _ => r

variable {base increment} {r : Register ι V} {i : ι}

theorem step_of_set {v : V} (h : r.phases i = .called) (hv : r.value = some v) :
    step base increment r i =
      ⟨some (increment i +ᵥ v), Function.update r.phases i .returned⟩ := by
  simp only [step, h, hv]

theorem step_of_unset (h : r.phases i = .called) (hv : r.value = none) :
    step base increment r i = ⟨none, Function.update r.phases i .setting⟩ := by
  simp only [step, h, hv]

theorem step_of_setting (h : r.phases i = .setting) :
    step base increment r i =
      ⟨some (increment i +ᵥ base), Function.update r.phases i .returned⟩ := by
  simp only [step, h]

theorem step_of_returned (h : r.phases i = .returned) : step base increment r i = r := by
  simp only [step, h]

/-! ### A register that is set -/

section Set

variable [Fintype ι]

/-- The sum of the increments of the calls that have returned. -/
def applied (increment : ι → G) (phases : ι → Phase) : G :=
  ∑ i with phases i = .returned, increment i

omit [DecidableEq ι] in
theorem applied_start : applied increment (fun _ ↦ .called) = 0 := by
  simp [applied]

variable {phases : ι → Phase}

omit [DecidableEq ι] in
theorem applied_of_completed (h : Completed phases) :
    applied increment phases = ∑ i, increment i := by
  rw [applied, Finset.filter_true_of_mem fun i _ ↦ h i]

theorem applied_update (h : phases i ≠ .returned) :
    applied increment (Function.update phases i .returned) =
      increment i + applied increment phases := by
  have hset : (Finset.univ.filter fun j ↦ Function.update phases i .returned j = .returned) =
      insert i (Finset.univ.filter fun j ↦ phases j = .returned) := by
    ext j
    by_cases hj : j = i
    · simp [hj]
    · simp [hj]
  rw [applied, hset, Finset.sum_insert (by simpa using h)]
  rfl

/-- **A register that is set** ends with the sum of all increments, however the calls interleave. -/
theorem sum_of_set (base v : V) (increment : ι → G) (steps : List ι)
    (h : Completed (Run.final (step base increment) (start (some v)) steps).phases) :
    (Run.final (step base increment) (start (some v)) steps).value =
      some ((∑ i, increment i) +ᵥ v) := by
  -- the register has the increments of the calls that have returned
  have hinv := @Run.invariant_final _ _ (step base increment)
    (fun r ↦ r.value = some (applied increment r.phases +ᵥ v) ∧ ∀ i, r.phases i ≠ .setting)
    ?_ (start (some v)) ?_ steps
  · rw [hinv.1, applied_of_completed h]
  · rintro r i ⟨hvalue, hphases⟩
    rcases hphase : r.phases i with _ | _ | _
    · rw [step_of_set hphase hvalue]
      refine ⟨?_, fun j ↦ ?_⟩
      · rw [applied_update (by rw [hphase]; decide), add_vadd]
      · by_cases hj : j = i
        · simp [hj]
        · simpa [hj] using hphases j
    · exact absurd hphase (hphases i)
    · rw [step_of_returned hphase]
      exact ⟨hvalue, hphases⟩
  · exact ⟨by rw [start, applied_start, zero_vadd], fun i ↦ Phase.noConfusion⟩

end Set

/-! ### A register that is unset -/

theorem value_of_subsingleton [Subsingleton ι] (base : V) (increment : ι → G) (steps : List ι)
    (i : ι) (h : Completed (Run.final (step base increment) (start none) steps).phases) :
    (Run.final (step base increment) (start none) steps).value = some (increment i +ᵥ base) := by
  have hinv := @Run.invariant_final _ _ (step base increment)
    (fun r ↦ (r.phases i ≠ .returned → r.value = none) ∧
      (r.phases i = .returned → r.value = some (increment i +ᵥ base))) ?_ (start none) ?_ steps
  · exact hinv.2 (h i)
  · intro r j hr
    obtain rfl := Subsingleton.elim i j
    rcases hphase : r.phases i with _ | _ | _
    · rw [step_of_unset hphase (hr.1 (by rw [hphase]; decide))]
      simp
    · rw [step_of_setting hphase]
      simp
    · rwa [step_of_returned hphase]
  · exact ⟨fun _ ↦ rfl, Phase.noConfusion⟩

theorem value_of_zero (base : V) (hzero : ∀ i, increment i = 0) (steps : List ι) :
    (Run.final (step base increment) (start none) steps).value.getD base = base := by
  refine Run.invariant_final (I := fun r : Register ι V ↦ r.value.getD base = base)
    (fun r i hr ↦ ?_) rfl steps
  rcases hphase : r.phases i with _ | _ | _
  · rcases hvalue : r.value with _ | v
    · rw [step_of_unset hphase hvalue]
      rfl
    · rw [hvalue] at hr
      rw [step_of_set hphase hvalue, hzero, zero_vadd]
      exact hr
  · rw [step_of_setting hphase, hzero, zero_vadd]
    rfl
  · rwa [step_of_returned hphase]

variable {is : List ι}

theorem final_looks (hnodup : is.Nodup) (hvalue : r.value = none)
    (hcalled : ∀ i ∈ is, r.phases i = .called) :
    Run.final (step base increment) r is =
      ⟨none, fun i ↦ if i ∈ is then .setting else r.phases i⟩ := by
  induction is generalizing r with
  | nil => exact Register.ext hvalue (by simp)
  | cons i is ih =>
    rw [List.nodup_cons] at hnodup
    rw [Run.final_cons, step_of_unset (hcalled i List.mem_cons_self) hvalue, ih hnodup.2 rfl]
    · refine Register.ext rfl ?_
      funext j
      by_cases hj : j = i
      · simp [hj, hnodup.1]
      · simp [hj]
    · intro j hj
      have hne : j ≠ i := fun he ↦ hnodup.1 (he ▸ hj)
      simpa [hne] using hcalled j (List.mem_cons_of_mem _ hj)

theorem phases_final_sets (base : V) (increment : ι → G)
    (hnodup : is.Nodup) (hsetting : ∀ i ∈ is, r.phases i = .setting) :
    (Run.final (step base increment) r is).phases =
      fun i ↦ if i ∈ is then .returned else r.phases i := by
  induction is generalizing r with
  | nil => simp
  | cons i is ih =>
    rw [List.nodup_cons] at hnodup
    rw [Run.final_cons, step_of_setting (hsetting i List.mem_cons_self), ih hnodup.2]
    · funext j
      by_cases hj : j = i
      · simp [hj, hnodup.1]
      · simp [hj]
    · intro j hj
      have hne : j ≠ i := fun he ↦ hnodup.1 (he ▸ hj)
      simpa [hne] using hsetting j (List.mem_cons_of_mem _ hj)

variable [Fintype ι]

/-- All calls look, and then set the register, the given one last. -/
noncomputable def lookThenSet (i : ι) : List ι :=
  Finset.univ.toList ++ (Finset.univ.erase i).toList ++ [i]

/-- **The last one to set the register decides.** -/
theorem final_lookThenSet (base : V) (increment : ι → G) :
    Run.final (step base increment) (start none) (lookThenSet i) =
      ⟨some (increment i +ᵥ base), fun _ ↦ .returned⟩ := by
  have hlooks : Run.final (step base increment) (start none) Finset.univ.toList =
      ⟨none, fun _ ↦ .setting⟩ := by
    rw [final_looks (Finset.nodup_toList _) rfl fun _ _ ↦ rfl]
    simp
  have hsets := phases_final_sets base increment
    (Finset.nodup_toList (Finset.univ.erase i)) (r := ⟨none, fun _ ↦ .setting⟩) fun _ _ ↦ rfl
  have hi : (Run.final (step base increment) ⟨none, fun _ ↦ .setting⟩
      (Finset.univ.erase i).toList).phases i = .setting := by
    rw [hsets]
    simp
  have happend : Run.final (step base increment) (start none) (lookThenSet i) =
      step base increment (Run.final (step base increment) ⟨none, fun _ ↦ .setting⟩
        (Finset.univ.erase i).toList) i := by
    rw [lookThenSet, Run.final, List.foldl_append, List.foldl_append]
    show step base increment (Run.final _ (Run.final _ _ _) _) i = _
    rw [hlooks]
  rw [happend, step_of_setting hi, hsets]
  refine Register.ext rfl ?_
  funext j
  by_cases hj : j = i
  · simp [hj]
  · simp [hj]

omit [DecidableEq ι] in
theorem eq_zero_of_eq_sum [IsAddTorsionFree G] [Nontrivial ι]
    (h : ∀ i, increment i = ∑ j, increment j) (i : ι) : increment i = 0 := by
  have hcard : 1 < Fintype.card ι := Fintype.one_lt_card
  have hsum : Fintype.card ι • increment i = increment i := by
    calc Fintype.card ι • increment i = ∑ _j : ι, increment i := by
          rw [Finset.sum_const, Finset.card_univ]
      _ = ∑ j, increment j := Finset.sum_congr rfl fun j _ ↦ (h i).trans (h j).symm
      _ = increment i := (h i).symm
  obtain ⟨n, hn⟩ : ∃ n, Fintype.card ι = n + 1 := ⟨_, (Nat.succ_pred_eq_of_pos (by omega)).symm⟩
  rw [hn, add_nsmul, one_nsmul, add_eq_right] at hsum
  exact (nsmul_eq_zero_iff_right (by omega)).1 hsum

/-- **Every interleaving ends with the sum** exactly when the register was set, there is at most one
call, or all increments are zero. -/
theorem forall_final_iff [IsAddTorsionFree G] {base : V}
    (hbase : Function.Injective fun g : G ↦ g +ᵥ base) (value : Option V) (increment : ι → G) :
    (∀ steps, Completed (Run.final (step base increment) (start value) steps).phases →
      (Run.final (step base increment) (start value) steps).value.getD base =
        (∑ i, increment i) +ᵥ value.getD base) ↔
      value.isSome ∨ Subsingleton ι ∨ ∀ i, increment i = 0 := by
  constructor
  · intro h
    by_contra hnot
    rw [not_or, not_or] at hnot
    obtain ⟨hnone, hmany, hzero⟩ := hnot
    obtain rfl : value = none := by simpa using hnone
    have : Nontrivial ι := not_subsingleton_iff_nontrivial.1 hmany
    -- each of the calls can be the last one to set the register
    refine hzero (eq_zero_of_eq_sum fun i ↦ hbase ?_)
    have hi := h (lookThenSet i) (by rw [final_lookThenSet]; exact fun _ ↦ rfl)
    rw [final_lookThenSet] at hi
    exact hi
  · rintro (hset | hone | hzero) steps hdone
    · obtain ⟨v, rfl⟩ := Option.isSome_iff_exists.1 hset
      rw [sum_of_set base v increment steps hdone]
      rfl
    · rcases value with _ | v
      · rcases isEmpty_or_nonempty ι with hempty | ⟨⟨i⟩⟩
        · rw [Finset.univ_eq_empty, Finset.sum_empty, zero_vadd]
          rcases steps with _ | ⟨j, steps⟩
          · rfl
          · exact hempty.elim j
        · rw [value_of_subsingleton base increment steps i hdone, Fintype.sum_subsingleton _ i]
          rfl
      · rw [sum_of_set base v increment steps hdone]
        rfl
    · rcases value with _ | v
      · rw [value_of_zero base hzero, Finset.sum_eq_zero fun i _ ↦ hzero i, zero_vadd]
        rfl
      · rw [sum_of_set base v increment steps hdone]
        rfl

end Step

end Increments
