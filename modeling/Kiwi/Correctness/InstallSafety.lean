import Kiwi.Raft.SnapshotInstall
import Mathlib.Data.List.Infix

/-!
# Crash safety of snapshot installations

At every point of an installation one of four things is settled: the marker is there, the cleanup
marker is there, or the database directory and the current snapshot files are all from before, or
all from the installed snapshot (`Guarded`). Whatever a crash then does to the operations that are
pending, the next start is rejected or finds the one or the other (`Guarded.safe`).

There is one entry that no step makes durable: that of the snapshot work directory.
`persist_current_snapshot` creates the directory if need be and syncs it, but not its parent. If the
directory was not durable before, a crash after the installation may lose it with the new snapshot
files in it, while the database directory is the new one and no marker is left
(`work_dir_lost_by_crash`). `install_crash_safe_iff` says that this is the only way to fail.
-/

namespace Kiwi.Raft

open CrashFs

/-- The current snapshot files from before, or from the installed snapshot. -/
def Before.snapshotOf (b : Before) : Version → Option File × Option File
  | .old => currentSnapshot b.fs.current
  | .new => (some (.data .new), some (.metadata .new))

/-- After a crash, the database directory and the current snapshot files are all from one of the
two. -/
structure AllFrom (b : Before) (fs : NodeFs) (entries : Name → Option File) (v : Version) :
    Prop where
  db : entries .db = some (.database v)
  /-- So are the current snapshot files. -/
  snapshot : currentSnapshot entries = b.snapshotOf v
  synced : ∀ file ∈ [File.database v, .data v, .metadata v], fs.synced file = true

instance (b : Before) (fs : NodeFs) (entries : Name → Option File) (v : Version) :
    Decidable (AllFrom b fs entries v) :=
  decidable_of_iff
    (entries .db = some (.database v) ∧ currentSnapshot entries = b.snapshotOf v ∧
      ∀ file ∈ [File.database v, .data v, .metadata v], fs.synced file = true)
    ⟨fun ⟨h₁, h₂, h₃⟩ ↦ ⟨h₁, h₂, h₃⟩, fun ⟨h₁, h₂, h₃⟩ ↦ ⟨h₁, h₂, h₃⟩⟩

/-- Whatever of the pending operations a crash loses, the next start is rejected, or finds
everything from before or everything from the installed snapshot. -/
def Safe (b : Before) (fs : NodeFs) : Prop :=
  ∀ entries, fs.Survives entries → preflightRejects entries ∨ ∃ v, AllFrom b fs entries v

/-- Installations are crash safe: at every point, after a crash or an error. -/
def CrashSafe (b : Before) : Prop :=
  ∀ completed ∈ installSteps.inits, ∀ isDropped, Safe b (b.after completed isDropped)

/-! ### Settled states -/

/-- Everything that a start looks at is settled, and from one of the two. -/
def SettledFrom (b : Before) (fs : NodeFs) (v : Version) : Prop :=
  (∀ name ∈ [Name.db, .work, .data, .metadata], fs.Settled name (fs.durable name)) ∧
    AllFrom b fs fs.durable v

instance (b : Before) (fs : NodeFs) (v : Version) : Decidable (SettledFrom b fs v) :=
  inferInstanceAs (Decidable (_ ∧ _))

/-- A marker is settled, or everything else is. -/
def Guarded (b : Before) (fs : NodeFs) : Prop :=
  fs.Settled .marker (some .marker) ∨ fs.Settled .cleanup (some .cleanup) ∨
    SettledFrom b fs .old ∨ SettledFrom b fs .new

instance (b : Before) (fs : NodeFs) : Decidable (Guarded b fs) :=
  inferInstanceAs (Decidable (_ ∨ _))

theorem SettledFrom.allFrom {b : Before} {fs : NodeFs} {v : Version} (h : SettledFrom b fs v)
    {entries : Name → Option File} (hentries : fs.Survives entries) : AllFrom b fs entries v := by
  obtain ⟨hsettled, hall⟩ := h
  have heq : ∀ name ∈ [Name.db, .work, .data, .metadata], entries name = fs.durable name :=
    fun name hname ↦ (hsettled name hname).eq_of_survives hentries
  refine ⟨(heq .db (by decide)).trans hall.db, ?_, hall.synced⟩
  rw [← hall.snapshot, currentSnapshot, currentSnapshot, heq .work (by decide),
    heq .data (by decide), heq .metadata (by decide)]

/-- **A guarded state is safe.** -/
theorem Guarded.safe {b : Before} {fs : NodeFs} (h : Guarded b fs) : Safe b fs := by
  intro entries hentries
  rcases h with hmarker | hcleanup | hold | hnew
  · refine Or.inl (Or.inl ?_)
    rw [hmarker.eq_of_survives hentries]
    exact Option.some_ne_none _
  · refine Or.inl (Or.inr ?_)
    rw [hcleanup.eq_of_survives hentries]
    exact Option.some_ne_none _
  · exact Or.inr ⟨.old, hold.allFrom hentries⟩
  · exact Or.inr ⟨.new, hnew.allFrom hentries⟩

/-! ### The points of an installation -/

theorem guarded_of_durable (hasSnapshot : Bool) :
    ∀ completed ∈ installSteps.inits, ∀ isDropped,
      Guarded ⟨.durable, hasSnapshot, false, false⟩
        (Before.after ⟨.durable, hasSnapshot, false, false⟩ completed isDropped) := by
  revert hasSnapshot
  decide +kernel

theorem guarded_of_marker (b : Before) (h : b.hasMarker = true ∨ b.hasCleanup = true) :
    ∀ completed ∈ installSteps.inits, ∀ isDropped, Guarded b (b.after completed isDropped) := by
  obtain ⟨workDir, hasSnapshot, hasMarker, hasCleanup⟩ := b
  rcases h with rfl | rfl
  · cases workDir <;> cases hasSnapshot <;> cases hasCleanup <;> decide +kernel
  · cases workDir <;> cases hasSnapshot <;> cases hasMarker <;> decide +kernel

/-- A crash after the installation loses a work directory that was not durable before. -/
theorem not_safe_of_not_durable (b : Before) (hmarker : b.hasMarker = false)
    (hcleanup : b.hasCleanup = false) (hwork : b.workDir ≠ .durable) :
    ¬Safe b (b.after installSteps false) := by
  intro hsafe
  rcases hsafe _ (Fs.survives_durable _) with hrejects | ⟨v, hall⟩
  all_goals
    obtain ⟨workDir, hasSnapshot, hasMarker, hasCleanup⟩ := b
    subst hmarker hcleanup
  · revert hrejects
    cases workDir <;> cases hasSnapshot <;> decide +kernel
  · revert hall
    cases workDir
    case durable => exact absurd rfl hwork
    all_goals cases hasSnapshot <;> cases v <;> decide +kernel

/-- **Crash safety.** A snapshot installation is crash safe if and only if the entry of the snapshot
work directory is durable before, or a marker of an earlier installation stops it. -/
theorem install_crash_safe_iff (b : Before) :
    CrashSafe b ↔ b.hasMarker = true ∨ b.hasCleanup = true ∨ b.workDir = .durable := by
  constructor
  · intro h
    by_contra hnot
    obtain ⟨hmarker, hcleanup, hwork⟩ : b.hasMarker = false ∧ b.hasCleanup = false ∧
        b.workDir ≠ .durable := by
      simpa only [not_or, Bool.not_eq_true] using hnot
    exact not_safe_of_not_durable b hmarker hcleanup hwork
      (h installSteps ((List.mem_inits _ _).2 List.prefix_rfl) false)
  · intro h completed hmem isDropped
    by_cases hmarker : b.hasMarker = true ∨ b.hasCleanup = true
    · exact (guarded_of_marker b hmarker completed hmem isDropped).safe
    · obtain ⟨workDir, hasSnapshot, hasMarker, hasCleanup⟩ := b
      simp only [not_or, Bool.not_eq_true] at hmarker
      obtain ⟨rfl, rfl⟩ := hmarker
      obtain rfl : workDir = .durable := by simpa using h
      exact (guarded_of_durable hasSnapshot completed hmem isDropped).safe

/-- A node has created its work directory and not synced the parent. It completes an installation
and crashes; the next start is not rejected, and finds the new database and no current snapshot. -/
theorem work_dir_lost_by_crash :
    (Before.after ⟨.unsynced, false, false, false⟩ installSteps false).Survives
      (Before.after ⟨.unsynced, false, false, false⟩ installSteps false).durable ∧
    ¬preflightRejects (Before.after ⟨.unsynced, false, false, false⟩ installSteps false).durable ∧
    (Before.after ⟨.unsynced, false, false, false⟩ installSteps false).durable .db =
      some (.database .new) ∧
    currentSnapshot (Before.after ⟨.unsynced, false, false, false⟩ installSteps false).durable =
      (none, none) :=
  ⟨Fs.survives_durable _, by decide +kernel, by decide +kernel, by decide +kernel⟩

end Kiwi.Raft
