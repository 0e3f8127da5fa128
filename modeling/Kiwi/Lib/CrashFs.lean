import Mathlib.Logic.Function.Basic
import Mathlib.Tactic.Common

/-!
# File systems that crash

Entries of directories name files and directories. An operation on a directory (a creation, a
removal, a rename) is *pending* until the directory is synced; a crash applies some of the pending
operations and loses the others, each as a whole (`Fs.Survives`). The contents of a file survive
once the file is synced.

`Fs.Settled` says that an entry has its value whatever a crash does: it is durable, and nothing that
is pending touches it (`Fs.Settled.eq_of_survives`).
-/

namespace CrashFs

variable {D N I : Type} [DecidableEq N]

/-- One operation on a directory: the entries that it sets or removes. -/
structure DirOp (D N I : Type) where
  dir : D
  updates : List (N × Option I)

/-- The entries after an operation. -/
def DirOp.apply (entries : N → Option I) (op : DirOp D N I) : N → Option I :=
  op.updates.foldl (fun entries update ↦ Function.update entries update.1 update.2) entries

/-- A file system. Entries are given for all directories together. -/
structure Fs (D N I : Type) where
  durable : N → Option I
  /-- The operations since, in order. -/
  pending : List (DirOp D N I)
  /-- Whether the contents of a file, or of everything in a directory, survive. -/
  synced : I → Bool

namespace Fs

/-- The entries that a running process sees. -/
def current (fs : Fs D N I) : N → Option I :=
  fs.pending.foldl DirOp.apply fs.durable

/-- An operation on a directory. -/
def perform (fs : Fs D N I) (dir : D) (updates : List (N × Option I)) : Fs D N I :=
  { fs with pending := fs.pending ++ [⟨dir, updates⟩] }

/-- The contents of a file are synced, or begin to change. -/
def setSynced [DecidableEq I] (fs : Fs D N I) (file : I) (synced : Bool) : Fs D N I :=
  { fs with synced := Function.update fs.synced file synced }

/-- The sync of a directory. -/
def syncDir [DecidableEq D] (fs : Fs D N I) (dir : D) : Fs D N I :=
  { fs with
    durable := (fs.pending.filter fun op ↦ op.dir = dir).foldl DirOp.apply fs.durable
    pending := fs.pending.filter fun op ↦ op.dir ≠ dir }

/-- The entries that a crash may leave. -/
def Survives (fs : Fs D N I) (entries : N → Option I) : Prop :=
  ∃ ops : List (DirOp D N I), ops.Sublist fs.pending ∧ entries = ops.foldl DirOp.apply fs.durable

/-- A crash cannot change the entry. -/
def Settled (fs : Fs D N I) (name : N) (value : Option I) : Prop :=
  fs.durable name = value ∧ ∀ op ∈ fs.pending, ∀ update ∈ op.updates, update.1 ≠ name

instance [DecidableEq I] (fs : Fs D N I) (name : N) (value : Option I) :
    Decidable (fs.Settled name value) :=
  inferInstanceAs (Decidable (_ ∧ _))

variable {name : N}

theorem foldl_update_of_forall_ne {updates : List (N × Option I)}
    (h : ∀ update ∈ updates, update.1 ≠ name) (entries : N → Option I) :
    updates.foldl (fun entries update ↦ Function.update entries update.1 update.2) entries name =
      entries name := by
  induction updates generalizing entries with
  | nil => rfl
  | cons update updates ih =>
    rw [List.foldl_cons, ih fun u hu ↦ h u (List.mem_cons_of_mem _ hu)]
    exact Function.update_of_ne (h update List.mem_cons_self).symm ..

theorem foldl_apply_of_forall_ne {ops : List (DirOp D N I)}
    (h : ∀ op ∈ ops, ∀ update ∈ op.updates, update.1 ≠ name) (entries : N → Option I) :
    ops.foldl DirOp.apply entries name = entries name := by
  induction ops generalizing entries with
  | nil => rfl
  | cons op ops ih =>
    rw [List.foldl_cons, ih fun op' hop ↦ h op' (List.mem_cons_of_mem _ hop)]
    exact foldl_update_of_forall_ne (h op List.mem_cons_self) entries

/-- **Settled entries survive.** -/
theorem Settled.eq_of_survives {fs : Fs D N I} {value : Option I}
    (h : fs.Settled name value) {entries : N → Option I} (hentries : fs.Survives entries) :
    entries name = value := by
  obtain ⟨ops, hsub, rfl⟩ := hentries
  rw [foldl_apply_of_forall_ne fun op hop ↦ h.2 op (hsub.subset hop)]
  exact h.1

theorem survives_durable (fs : Fs D N I) : fs.Survives fs.durable :=
  ⟨[], List.nil_sublist _, rfl⟩

end Fs

end CrashFs
