import Kiwi.Storage.LockMgr

/-!
# Deadlocks of key locks

`multi_lock` takes mutexes in the order of their numbers, but RPOPLPUSH and SMOVE take two in the
order of the keys. Two keys may share a mutex, and then the operation waits for itself; and the
order of the keys is not that of the mutexes, so two such operations may wait for each other
(`rpoplpush_deadlocks`).

`key_locks_deadlock_free` is what holds, for every hash function, pool, set of operations and
interleaving: if no cycle of mutexes is locked one before the other by operations of the set
(`LockedBefore`), then no deadlock is reached. Operations with `multi_lock` or a single key lock
mutexes in increasing order (`pairwise_lt_sortedIndexes`), so only the other two can close a cycle.
-/

namespace Kiwi

open LockOrder

/-- Some operation locks `a` and then, holding it, `b`. -/
def LockedBefore (m : LockMgr) (operations : List LockOperation) (a b : ℕ) : Prop :=
  ∃ operation ∈ operations, [a, b].Sublist (operation.locks m)

/-! ### What the scripts nest -/

theorem not_nestedIn_release (held locks : List ℕ) (a b : ℕ) :
    ¬NestedIn held (locks.map .release) a b := by
  induction locks generalizing held with
  | nil => exact id
  | cons lock locks ih => exact ih (held.erase lock)

variable {a b : ℕ}

theorem nestedIn_acquire {held locks released : List ℕ}
    (h : NestedIn held (locks.map .acquire ++ released.map .release) a b) :
    a ∈ held ∧ b ∈ locks ∨ [a, b].Sublist locks := by
  induction locks generalizing held with
  | nil => exact absurd h (not_nestedIn_release held released a b)
  | cons lock locks ih =>
    rcases h with ⟨ha, rfl⟩ | h
    · exact Or.inl ⟨ha, List.mem_cons_self⟩
    · rcases ih h with ⟨ha, hb⟩ | hsub
      · rcases List.mem_cons.1 ha with rfl | ha
        · exact Or.inr ((List.singleton_sublist.2 hb).cons_cons _)
        · exact Or.inl ⟨ha, List.mem_cons_of_mem _ hb⟩
      · exact Or.inr (hsub.cons _)

theorem nestedIn_scopedLocks {locks : List ℕ} (h : NestedIn [] (scopedLocks locks) a b) :
    [a, b].Sublist locks := by
  rcases nestedIn_acquire h with ⟨ha, -⟩ | hsub
  · cases ha
  · exact hsub

variable {m : LockMgr}

/-- **What an operation nests**, it locks in this order. -/
theorem nestedIn_script {operation : LockOperation}
    (h : NestedIn [] (operation.script m) a b) : [a, b].Sublist (operation.locks m) := by
  unfold LockOperation.script at h
  split at h
  · -- the lock is given back before it is taken again
    simp [scopedLocks, LockOperation.locks, NestedIn] at h
  · exact nestedIn_scopedLocks h

variable {operations : List LockOperation}

theorem lockedBefore_of_nested (h : Nested (m.start operations) a b) :
    LockedBefore m operations a b := by
  obtain ⟨p, hp, hnested⟩ := h
  obtain ⟨operation, hmem, rfl⟩ := List.mem_map.1 hp
  exact ⟨operation, hmem, nestedIn_script hnested⟩

/-! ### Increasing locks -/

theorem pairwise_lt_sortedIndexes (keys : List Bytes) :
    (m.sortedIndexes keys).Pairwise (· < ·) := by
  have hsorted : (m.sortedIndexes keys).Pairwise (· ≤ ·) := List.pairwise_insertionSort ..
  have hnodup : (m.sortedIndexes keys).Nodup :=
    (List.perm_insertionSort _ _).nodup_iff.2 (List.nodup_dedup _)
  exact hsorted.imp₂ (fun a b hle hne ↦ lt_of_le_of_ne hle hne) hnodup

theorem acyclic_lockedBefore (h : ∀ operation ∈ operations, (operation.locks m).Pairwise (· < ·)) :
    Acyclic (LockedBefore m operations) := by
  refine acyclic_of_lt id fun a b hab ↦ ?_
  obtain ⟨operation, hmem, hsub⟩ := hab
  exact List.rel_of_pairwise_cons ((h operation hmem).sublist hsub) List.mem_cons_self

/-! ### Runs -/

/-- **Deadlock freedom.** For every hash function, every number of shards, every set of operations
without a cycle of mutexes that are locked one before the other, and every interleaving, no set of
operations waits for locks that the set holds. -/
theorem key_locks_deadlock_free (m : LockMgr) (operations : List LockOperation)
    (h : Acyclic (LockedBefore m operations)) (schedule : List ℕ) (waiting : Set ℕ) :
    ¬Deadlock (Run.final step (m.start operations) schedule) waiting :=
  deadlock_free (h.mono fun _ _ ↦ lockedBefore_of_nested) schedule waiting

/-- RPOPLPUSH between mutexes in increasing order, against MSETNX. -/
theorem key_locks_deadlock_free_increasing :
    ¬Deadlock (Run.final step
      (LockMgr.start ⟨4, fun key ↦ (key.headD 0).toNat⟩
        [.rpoplpush [0x61] [0x62], .msetnx [[0x62], [0x63], [0x61]], .single [0x62]])
      [0, 1, 0, 1, 2]) {0, 1, 2} :=
  key_locks_deadlock_free _ _
    (acyclic_lockedBefore (m := ⟨4, fun key ↦ (key.headD 0).toNat⟩) (by decide +kernel)) _ _

/-- An RPOPLPUSH between two keys of one mutex waits for itself; and two RPOPLPUSHs, the second
between mutexes in the other order, wait for each other. -/
theorem rpoplpush_deadlocks :
    Deadlock (Run.final step
      (LockMgr.start ⟨1000, fun _ ↦ 0⟩ [.rpoplpush [0x61] [0x62]]) [0]) {0} ∧
    Deadlock (Run.final step
      (LockMgr.start ⟨2, fun key ↦ (key.headD 0).toNat⟩
        [.rpoplpush [0x61] [0x62], .rpoplpush [0x62] [0x63]]) [0, 1]) {0, 1} := by
  have hself : Run.final step (LockMgr.start ⟨1000, fun _ ↦ 0⟩ [.rpoplpush [0x61] [0x62]]) [0] =
      [⟨[0], [.acquire 0, .release 0, .release 0]⟩] := by decide +kernel
  have hcross : Run.final step (LockMgr.start ⟨2, fun key ↦ (key.headD 0).toNat⟩
      [.rpoplpush [0x61] [0x62], .rpoplpush [0x62] [0x63]]) [0, 1] =
      [⟨[1], [.acquire 0, .release 0, .release 1]⟩,
        ⟨[0], [.acquire 1, .release 1, .release 0]⟩] := by decide +kernel
  rw [hself, hcross]
  refine ⟨⟨⟨0, rfl⟩, ?_⟩, ⟨⟨0, Or.inl rfl⟩, ?_⟩⟩
  · rintro i rfl
    exact ⟨_, 0, rfl, rfl, 0, rfl, _, rfl, List.mem_cons_self⟩
  · rintro i (rfl | rfl)
    · exact ⟨_, 0, rfl, rfl, 1, Or.inr rfl, _, rfl, List.mem_cons_self⟩
    · exact ⟨_, 1, rfl, rfl, 0, Or.inl rfl, _, rfl, List.mem_cons_self⟩

/-- **The other operations never deadlock**, for every hash function: they take increasing mutexes,
whatever the keys are. -/
theorem deadlock_free_without_moves (m : LockMgr) (operations : List LockOperation)
    (h : ∀ o ∈ operations, ∀ source destination,
      o ≠ .rpoplpush source destination ∧ o ≠ .smove source destination)
    (schedule : List ℕ) (waiting : Set ℕ) :
    ¬Deadlock (Run.final step (m.start operations) schedule) waiting := by
  refine deadlock_free ((acyclic_lockedBefore fun o ho ↦ ?_).mono fun _ _ ↦
    lockedBefore_of_nested) schedule waiting
  cases o with
  | single | zincrby => exact List.pairwise_singleton ..
  | msetnx => exact pairwise_lt_sortedIndexes _
  | rpoplpush source destination => exact absurd rfl (h _ ho source destination).1
  | smove source destination => exact absurd rfl (h _ ho source destination).2

-- two MSETNXs with keys in different orders, and a ZINCRBY that locks its key twice
theorem deadlock_free_without_moves_msetnx :
    ¬Deadlock (Run.final step (LockMgr.start ⟨4, fun key ↦ (key.headD 0).toNat⟩
      [.msetnx [[0x61], [0x62]], .msetnx [[0x62], [0x61]], .zincrby [0x61] true])
      [0, 1, 2, 0]) {0, 1, 2} :=
  deadlock_free_without_moves _ _ (by simp) _ _

end Kiwi
