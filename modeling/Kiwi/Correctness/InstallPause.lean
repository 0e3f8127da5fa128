import Kiwi.Raft.SnapshotInstall
import Mathlib.Data.List.Infix
import Mathlib.Data.Fintype.Basic

/-!
# A node that failed in the middle of an installation

An installation that fails after its marker was written leaves storage access paused, and a marker
or a cleanup marker behind (`HalfInstalled`). The next call then fails when it is to write its own
marker, and takes that for a failure before the marker: the guard of that call resumes access, to a
storage that is half installed (`half_installed_resumed`). So access stays paused as long as later
calls fail before they pause it themselves, and no longer (`stays_paused_iff`).
-/

namespace Kiwi.Raft

/-- The steps after the marker was written, but for the last. -/
def InstallStep.isAfterMarker : InstallStep → Bool
  | commit | openStorage | initCfTracker | persistCurrentSnapshot | createCleanup | syncCleanup
  | removeMarker | syncRemoval | removeCleanup => true
  | stage | requestPause | markerPath | checkCleanup | createMarker | syncMarker | disarm
  | resume => false

/-- One call after another. -/
def installAll (s : InstallState) (calls : List (Option InstallStep)) : InstallState :=
  calls.foldl (fun s wrong ↦ (installSnapshot wrong s).2) s

/-- Access is paused, and a marker says why. -/
def HalfInstalled (s : InstallState) : Prop :=
  s.paused = true ∧ s.armed = false ∧ (s.marker = true ∨ s.cleanup = true)

instance (s : InstallState) : Decidable (HalfInstalled s) :=
  inferInstanceAs (Decidable (_ ∧ _))

variable (s : InstallState) (wrong : Option InstallStep)

theorem halfInstalled_of_failed :
    (installSnapshot wrong s).1.any InstallStep.isAfterMarker = true →
      HalfInstalled (installSnapshot wrong s).2 := by
  obtain ⟨paused, armed, marker, cleanup⟩ := s
  revert paused armed marker cleanup
  rcases wrong with _ | step
  · decide +kernel
  · cases step <;> decide +kernel

theorem installSnapshot_stage : HalfInstalled s → (installSnapshot (some .stage) s).2 = s := by
  obtain ⟨paused, armed, marker, cleanup⟩ := s
  revert paused armed marker cleanup
  decide +kernel

/-- Any other call resumes access: it cannot get past the markers. -/
theorem paused_installSnapshot :
    HalfInstalled s → wrong ≠ some .stage → (installSnapshot wrong s).2.paused = false := by
  obtain ⟨paused, armed, marker, cleanup⟩ := s
  revert paused armed marker cleanup
  rcases wrong with _ | step
  · decide +kernel
  · cases step <;> decide +kernel

theorem paused_installAll_iff {s : InstallState} (h : HalfInstalled s)
    (later : List (Option InstallStep)) :
    (∀ calls, calls <+: later → (installAll s calls).paused = true) ↔
      ∀ wrong ∈ later, wrong = some .stage := by
  induction later with
  | nil =>
    refine iff_of_true (fun calls hcalls ↦ ?_) fun _ hmem ↦ by cases hmem
    rw [List.prefix_nil.1 hcalls]
    exact h.1
  | cons first later ih =>
    by_cases hfirst : first = some .stage
    · have hsame : (installSnapshot first s).2 = s := hfirst ▸ installSnapshot_stage s h
      rw [List.forall_mem_cons, ← ih]
      constructor
      · intro hpaused
        refine ⟨hfirst, fun calls hcalls ↦ ?_⟩
        have hstep := hpaused (first :: calls) (List.cons_prefix_cons.2 ⟨rfl, hcalls⟩)
        rw [installAll, List.foldl_cons, hsame] at hstep
        exact hstep
      · rintro ⟨-, hpaused⟩ calls hcalls
        rcases List.prefix_cons_iff.1 hcalls with rfl | ⟨rest, rfl, hrest⟩
        · exact h.1
        · rw [installAll, List.foldl_cons, hsame]
          exact hpaused rest hrest
    · -- access is resumed after the first call
      refine iff_of_false (fun hpaused ↦ ?_) fun hstage ↦ hfirst (hstage first List.mem_cons_self)
      have hstep := hpaused [first] (List.cons_prefix_cons.2 ⟨rfl, List.nil_prefix⟩)
      have hresumed := paused_installSnapshot s first h hfirst
      rw [installAll, List.foldl_cons, List.foldl_nil, hresumed] at hstep
      cases hstep

/-- **A half-installed node.** After any calls, let one fail after its marker was written. Then
storage access stays paused during later calls if and only if they all fail before they request the
pause. -/
theorem stays_paused_iff (s : InstallState) (before later : List (Option InstallStep))
    (wrong : Option InstallStep)
    (hfailed : (installSnapshot wrong (installAll s before)).1.any InstallStep.isAfterMarker = true) :
    (∀ calls, calls <+: later →
      (installAll (installSnapshot wrong (installAll s before)).2 calls).paused = true) ↔
      ∀ wrong ∈ later, wrong = some .stage :=
  paused_installAll_iff (halfInstalled_of_failed _ wrong hfailed) later

/-- An installation fails at the commit, and two more before they pause. -/
theorem stays_paused_after_commit :
    (installAll (installSnapshot (some .commit) (installAll ⟨false, false, false, false⟩ [])).2
      [some .stage, some .stage]).paused = true :=
  (stays_paused_iff ⟨false, false, false, false⟩ [] [some .stage, some .stage] (some .commit)
    (by decide +kernel)).2 (by decide +kernel) _ List.prefix_rfl

/-- An installation fails at the commit. Nothing is wrong with the next one, but the marker is
there, and access is resumed. -/
theorem half_installed_resumed :
    (installSnapshot (some .commit) ⟨false, false, false, false⟩).1 = some .commit ∧
    (installSnapshot (some .commit) ⟨false, false, false, false⟩).2.paused = true ∧
    (installSnapshot none (installSnapshot (some .commit) ⟨false, false, false, false⟩).2).1 =
      some .createMarker ∧
    (installSnapshot none (installSnapshot (some .commit) ⟨false, false, false, false⟩).2).2.paused =
      false := by
  decide +kernel

end Kiwi.Raft
