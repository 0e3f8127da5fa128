import Kiwi.Raft.SnapshotGates
import Kiwi.Lib.Run
import Mathlib.Data.List.Infix

/-!
# A snapshot is a prefix of the log

A builder reads the id of the last applied entry and the last membership when it is created, and its
checkpoint is taken later, in another task. `snapshots_are_prefixes` says that the two nevertheless
belong together: whatever the worker and the builders do in between, every snapshot holds exactly
the contents after the entries up to the id in its metadata, and the membership of that prefix.

The invariant (`Consistent`) ties every phase to the gates it holds. The two places that carry the
argument are `Consistent.ready` — while a builder waits for its checkpoint it holds the state gate,
so what it captured is still what the machine has — and `Consistent.agrees`, which says what the
machine has: the entries applied since the last installation.
-/

namespace Kiwi.Raft

variable {M : Type}

/-! ### What a stretch of the log leads to -/

/-- The state after a prefix of the entries of a stretch. -/
structure Epoch.Reaches (instanceNum : ℕ) (epoch : Epoch M) (entries : List (Entry (Payload M)))
    (lastApplied : Option LogId) (lastMembership : StoredMembership M) (contents : Contents) :
    Prop where
  /-- The contents are those of the start with the writes of the entries. -/
  contents_eq : contents = epoch.contents.write (entries.flatMap (Entry.batch instanceNum))
  /-- The last applied entry is the last one, or that of the start. -/
  lastApplied_eq : lastApplied = (entries.getLast?.map Entry.logId).or epoch.lastLogId
  /-- The membership is the last one of the entries, or that of the start. -/
  lastMembership_eq : lastMembership =
    entries.foldl (fun membership e ↦ e.membershipAfter membership) epoch.lastMembership

theorem Epoch.Reaches.start (instanceNum : ℕ) (epoch : Epoch M) :
    epoch.Reaches instanceNum [] epoch.lastLogId epoch.lastMembership epoch.contents :=
  ⟨rfl, rfl, rfl⟩

variable {entry : Entry (Payload M)}

theorem eq_after_of_applyEntry {sm sm' : StateMachine M}
    (h : applyEntry sm entry = .ok sm') : sm' = sm.after entry := by
  rcases hp : entry.payload with _ | binlog | membership
  · simp only [applyEntry, hp, Except.ok.injEq] at h
    simp [← h, StateMachine.after, Entry.batch, Entry.membershipAfter, hp]
  · simp only [applyEntry, hp, onBinlogWrite] at h
    rcases hvalid : validateBinlog sm.storage binlog with e | u <;> rw [hvalid] at h
    · cases h
    · dsimp only at h
      split_ifs at h
      rcases hbatch : buildBatch (getInstanceId sm.storage.instanceNum binlog.slotIdx)
        binlog.entries with e | batch <;> rw [hbatch] at h
      · cases h
      · obtain rfl := Except.ok.inj h
        simp [StateMachine.after, Entry.batch, Entry.membershipAfter, hp, Binlog.batch, hbatch,
          Except.toOption]
  · simp only [applyEntry, hp, Except.ok.injEq] at h
    simp [← h, StateMachine.after, Entry.batch, Entry.membershipAfter, hp]

variable {entries : List (Entry (Payload M))}

/-- **One entry** takes the state one entry further. -/
theorem Epoch.Reaches.after {sm : StateMachine M} {epoch : Epoch M}
    (h : epoch.Reaches sm.storage.instanceNum entries sm.lastApplied sm.lastMembership
      sm.storage.contents) (entry : Entry (Payload M)) :
    epoch.Reaches sm.storage.instanceNum (entries ++ [entry]) (sm.after entry).lastApplied
      (sm.after entry).lastMembership (sm.after entry).storage.contents where
  contents_eq := by
    rw [List.flatMap_append, Database.write_append, ← h.contents_eq]
    simp [StateMachine.after]
  lastApplied_eq := by simp [StateMachine.after]
  lastMembership_eq := by
    rw [List.foldl_append, ← h.lastMembership_eq]
    rfl

/-- The captured metadata and the contents belong to a prefix of the stretch that started with the
given storage. -/
def Covered (instanceNum : ℕ) (history : List (Epoch M)) (storage : ℕ)
    (builder : SnapshotBuilder M) (contents : Contents) : Prop :=
  ∃ epoch ∈ history, ∃ entries, entries <+: epoch.entries ∧ epoch.storage = storage ∧
    epoch.Reaches instanceNum entries builder.lastApplied builder.lastMembership contents

variable {history : List (Epoch M)}

theorem exists_prefix_logEntry {P : Epoch M → List (Entry (Payload M)) → Prop}
    (hP : ∀ epoch entries, P epoch entries →
      P { epoch with entries := epoch.entries ++ [entry] } entries)
    (h : ∃ epoch ∈ history, ∃ entries, entries <+: epoch.entries ∧ P epoch entries) :
    ∃ epoch ∈ Gates.logEntry history entry, ∃ entries, entries <+: epoch.entries ∧
      P epoch entries := by
  obtain ⟨epoch, hmem, entries, hpre, hentries⟩ := h
  rcases history with _ | ⟨current, epochs⟩
  · cases hmem
  · rcases List.mem_cons.1 hmem with rfl | hmem
    · exact ⟨_, List.mem_cons_self, entries, hpre.trans (List.prefix_append _ _),
        hP _ _ hentries⟩
    · exact ⟨epoch, List.mem_cons_of_mem _ hmem, entries, hpre, hentries⟩

variable {builder : SnapshotBuilder M}

variable {contents : Contents} {instanceNum nodeId storage : ℕ}

theorem Covered.logEntry (h : Covered instanceNum history storage builder contents)
    (entry : Entry (Payload M)) :
    Covered instanceNum (Gates.logEntry history entry) storage builder contents :=
  exists_prefix_logEntry (fun _ _ hreach ↦ ⟨hreach.1,
    hreach.2.contents_eq, hreach.2.lastApplied_eq, hreach.2.lastMembership_eq⟩) h

theorem map_storage_logEntry (history : List (Epoch M)) (entry : Entry (Payload M)) :
    (Gates.logEntry history entry).map Epoch.storage = history.map Epoch.storage := by
  cases history <;> rfl

/-! ### The invariant -/

/-- The state machine holds a state of the log: everywhere but in the middle of an installation, and
after a fatal error. -/
def Worker.Settled : Worker M → Prop
  | .replacing _ | .restored _ | .recorded _ | .stopped => False
  | _ => True

/-- The gates and the state that the worker has in each phase. -/
def WorkerHolds (s : Gates M) : Prop :=
  match s.worker with
  | .applying _ => s.stateGate = some .worker
  | .waitState => s.publicationGate = some .worker
  | .installWaitState _ => s.publicationGate = some .worker
  | .installing _ => s.stateGate = some .worker ∧ s.publicationGate = some .worker
  | .replacing _ => (s.stateGate = some .worker ∧ s.publicationGate = some .worker) ∧
      ∀ n ∈ s.history.map Epoch.storage, n < s.epoch
  | .restored snapshot => ((s.stateGate = some .worker ∧ s.publicationGate = some .worker) ∧
      ∀ n ∈ s.history.map Epoch.storage, n < s.epoch) ∧
      s.machine.storage.contents = snapshot.contents
  | .recorded snapshot => ((s.stateGate = some .worker ∧ s.publicationGate = some .worker) ∧
      ∀ n ∈ s.history.map Epoch.storage, n < s.epoch) ∧
      s.machine.storage.contents = snapshot.contents ∧
      s.machine.lastApplied = snapshot.metadata.lastLogId ∧
      s.machine.lastMembership = snapshot.metadata.lastMembership
  | _ => True

/-- The gates that the builder has in each phase, and what it captured. -/
def BuildHolds (instanceNum : ℕ) (s : Gates M) : Prop :=
  match s.build with
  | .absent => True
  | .ready builder epoch =>
    (s.stateGate = some .builder ∧ s.publicationGate = some .builder) ∧ s.worker.Settled ∧
      builder.lastApplied = s.machine.lastApplied ∧
      builder.lastMembership = s.machine.lastMembership ∧ epoch = s.epoch
  | .checkpointed builder epoch contents =>
    s.publicationGate = some .builder ∧ Covered instanceNum s.history epoch builder contents

/-- The snapshot holds a prefix of the log: of the stretch that started with the storage that was
swapped in when its builder was created, the entries up to the one whose id the metadata has. Only
on a node that has applied nothing, and was given no snapshot, the id is made up. -/
def IsPrefix (nodeId instanceNum : ℕ) (history : List (Epoch M)) (built : ℕ × Snapshot M) : Prop :=
  ∃ epoch ∈ history, ∃ entries, entries <+: epoch.entries ∧ epoch.storage = built.1 ∧
    built.2.contents = epoch.contents.write (entries.flatMap (Entry.batch instanceNum)) ∧
    built.2.metadata.lastMembership =
      entries.foldl (fun membership e ↦ e.membershipAfter membership) epoch.lastMembership ∧
    built.2.metadata.lastLogId =
      some (((entries.getLast?.map Entry.logId).or epoch.lastLogId).getD ⟨⟨0, nodeId⟩, 0⟩)

/-- What holds between any two steps. -/
structure Consistent (nodeId instanceNum : ℕ) (s : Gates M) : Prop where
  /-- The number of instances does not change. -/
  instanceNum_eq : s.machine.storage.instanceNum = instanceNum
  /-- The machine holds the entries applied since the last installation, in the storage that is
  swapped in. -/
  agrees : s.worker.Settled → ∃ epoch epochs, s.history = epoch :: epochs ∧
    epoch.storage = s.epoch ∧
      epoch.Reaches instanceNum epoch.entries s.machine.lastApplied s.machine.lastMembership
      s.machine.storage.contents
  worker : WorkerHolds s
  build : BuildHolds instanceNum s
  built : ∀ snapshot ∈ s.built, IsPrefix nodeId instanceNum s.history snapshot
  /-- No two stretches start with the same storage. -/
  numbered : (s.history.map Epoch.storage).Pairwise (· > ·) ∧
    ∀ n ∈ s.history.map Epoch.storage, n ≤ s.epoch

theorem isPrefix_of_covered (nodeId : ℕ)
    (h : Covered instanceNum history storage builder contents) :
    IsPrefix nodeId instanceNum history (storage, ⟨builder.metadata nodeId, contents⟩) := by
  obtain ⟨epoch, hmem, entries, hpre, hstorage, hreach⟩ := h
  refine ⟨epoch, hmem, entries, hpre, hstorage, hreach.contents_eq, hreach.lastMembership_eq, ?_⟩
  rw [← hreach.lastApplied_eq]
  show some _ = _
  cases builder.lastApplied <;> rfl

variable {snapshot : Snapshot M} {built : ℕ × Snapshot M}

section

variable (h : IsPrefix nodeId instanceNum history built)

include h

theorem IsPrefix.logEntry (entry : Entry (Payload M)) :
    IsPrefix nodeId instanceNum (Gates.logEntry history entry) built :=
  exists_prefix_logEntry (fun _ _ hrest ↦ hrest) h

theorem IsPrefix.cons (epoch : Epoch M) : IsPrefix nodeId instanceNum (epoch :: history) built := by
  obtain ⟨epoch', hmem, hrest⟩ := h
  exact ⟨epoch', List.mem_cons_of_mem _ hmem, hrest⟩

end

section Step

variable {s : Gates M}

section

variable (h : Consistent nodeId instanceNum s)

include h

theorem Consistent.not_ready (hgate : s.stateGate ≠ some .builder)
    (builder : SnapshotBuilder M) (epoch : ℕ) : s.build ≠ .ready builder epoch := by
  intro hbuild
  have hb := h.build
  simp only [BuildHolds, hbuild] at hb
  exact hgate hb.1.1

/-- While the publication gate is not the builder's, there is no builder. -/
theorem Consistent.build_absent (hgate : s.publicationGate ≠ some .builder) :
    s.build = .absent := by
  have hb := h.build
  rcases hbuild : s.build with _ | ⟨builder, epoch⟩ | ⟨builder, epoch, contents⟩
  · rfl
  · simp only [BuildHolds, hbuild] at hb
    exact absurd hb.1.2 hgate
  · simp only [BuildHolds, hbuild] at hb
    exact absurd hb.1 hgate

/-- **Applying an entry.** -/
theorem Consistent.applyNext (hworker : s.worker = .applying (entry :: entries))
    {machine : StateMachine M} (happly : applyEntry s.machine entry = .ok machine) :
    Consistent nodeId instanceNum { s with
      machine := machine
      worker := .applying entries
      history := Gates.logEntry s.history entry } := by
  obtain rfl := eq_after_of_applyEntry happly
  have hgate : s.stateGate = some .worker := by
    have hw := h.worker
    simpa only [WorkerHolds, hworker] using hw
  refine ⟨h.instanceNum_eq, fun _ ↦ ?_, hgate, ?_,
    fun snapshot hs ↦ (h.built snapshot hs).logEntry _, ?_⟩
  · obtain ⟨epoch, epochs, hhistory, hstorage, hreach⟩ := h.agrees (by rw [hworker]; trivial)
    rw [← h.instanceNum_eq] at hreach
    refine ⟨{ epoch with entries := epoch.entries ++ [entry] }, epochs, ?_, hstorage, ?_⟩
    · rw [hhistory]
      rfl
    · have hafter := hreach.after entry
      rw [← h.instanceNum_eq]
      exact ⟨hafter.contents_eq, hafter.lastApplied_eq, hafter.lastMembership_eq⟩
  · have hb := h.build
    rcases hbuild : s.build with _ | ⟨builder, epoch⟩ | ⟨builder, epoch, contents⟩
    · simp only [BuildHolds]
    · exact absurd hbuild (h.not_ready (by rw [hgate]; decide) builder epoch)
    · simp only [BuildHolds, hbuild] at hb ⊢
      exact ⟨hb.1, hb.2.logEntry entry⟩
  · rw [map_storage_logEntry]
    exact h.numbered

/-- **Taking the checkpoint.** What the builder captured is still what the machine has. -/
theorem Consistent.checkpoint {epoch : ℕ} (hbuild : s.build = .ready builder epoch) :
    Consistent nodeId instanceNum { s with
      build := .checkpointed builder epoch (s.contentsOf epoch), stateGate := none } := by
  have hb := h.build
  simp only [BuildHolds, hbuild] at hb
  obtain ⟨⟨hstate, hpublication⟩, hsettled, hlast, hmembership, rfl⟩ := hb
  refine ⟨h.instanceNum_eq, h.agrees, ?_, ⟨hpublication, ?_⟩, h.built, h.numbered⟩
  · -- the worker holds no gate now
    have hw := h.worker
    rcases hworker : s.worker with _ | _ | _ | _ | _ | _ | _ | _ | _ | _ | _ | _ <;>
      simp_all [WorkerHolds]
  · obtain ⟨current, epochs, hhistory, hstorage, hreach⟩ := h.agrees hsettled
    refine ⟨current, by rw [hhistory]; exact List.mem_cons_self, current.entries,
      List.prefix_rfl, hstorage, ?_⟩
    rw [hlast, hmembership, Gates.contentsOf, if_pos rfl]
    exact hreach

/-- **Finishing an installation.** A new stretch of the log begins. -/
theorem Consistent.returnInstall (hworker : s.worker = .recorded snapshot) :
    Consistent nodeId instanceNum { s with
      worker := .idle
      stateGate := none
      publicationGate := none
      history := ⟨s.epoch, snapshot.contents, snapshot.metadata.lastLogId,
        snapshot.metadata.lastMembership, []⟩ :: s.history } := by
  have hw := h.worker
  simp only [WorkerHolds, hworker] at hw
  obtain ⟨⟨⟨-, hpublication⟩, hnew⟩, hcontents, hlast, hmembership⟩ := hw
  have habsent : s.build = .absent := h.build_absent (by rw [hpublication]; decide)
  refine ⟨h.instanceNum_eq, fun _ ↦ ⟨_, s.history, rfl, rfl, ?_⟩, trivial, ?_,
    fun snapshot' hs ↦ (h.built snapshot' hs).cons _, List.pairwise_cons.2 ⟨hnew, h.numbered.1⟩,
    List.forall_mem_cons.2 ⟨le_rfl, h.numbered.2⟩⟩
  · rw [hcontents, hlast, hmembership]
    exact Epoch.Reaches.start ..
  · simp only [BuildHolds, habsent]

variable {worker : Worker M}

theorem Consistent.move (hsettled : s.worker.Settled) (hsettled' : worker.Settled)
    (hworker : WorkerHolds { s with worker := worker }) :
    Consistent nodeId instanceNum { s with worker := worker } := by
  refine ⟨h.instanceNum_eq, fun _ ↦ h.agrees hsettled, hworker, ?_, h.built, h.numbered⟩
  have hb := h.build
  rcases hbuild : s.build with _ | ⟨builder, epoch⟩ | ⟨builder, epoch, contents⟩
  · simp only [BuildHolds]
  · simp only [BuildHolds, hbuild] at hb ⊢
    exact ⟨hb.1, hsettled', hb.2.2⟩
  · simp only [BuildHolds, hbuild] at hb ⊢
    exact hb

theorem Consistent.moveGates {stateGate publicationGate : Option Holder}
    (hsettled : worker.Settled → s.worker.Settled) (hfree : s.publicationGate ≠ some .builder ∨
      publicationGate = s.publicationGate ∧ s.stateGate ≠ some .builder)
    (hworker : WorkerHolds { s with
      worker := worker, stateGate := stateGate, publicationGate := publicationGate }) :
    Consistent nodeId instanceNum { s with
      worker := worker, stateGate := stateGate, publicationGate := publicationGate } := by
  refine ⟨h.instanceNum_eq, fun hw ↦ h.agrees (hsettled hw), hworker, ?_, h.built, h.numbered⟩
  rcases hfree with hfree | ⟨rfl, hfree⟩
  · simp only [BuildHolds, h.build_absent hfree]
  · have hb := h.build
    rcases hbuild : s.build with _ | ⟨builder, epoch⟩ | ⟨builder, epoch, contents⟩
    · simp only [BuildHolds]
    · exact absurd hbuild (h.not_ready hfree builder epoch)
    · simp only [BuildHolds, hbuild] at hb ⊢
      exact hb

theorem Consistent.install {s' : Gates M}
    (hfree : s.publicationGate ≠ some .builder) (hbuild : s'.build = s.build)
    (hhistory : s'.history = s.history) (hbuilt : s'.built = s.built)
    (hnum : s'.machine.storage.instanceNum = s.machine.storage.instanceNum)
    (hepoch : s.epoch ≤ s'.epoch) (hsettled : ¬s'.worker.Settled) (hworker : WorkerHolds s') :
    Consistent nodeId instanceNum s' := by
  refine ⟨hnum.trans h.instanceNum_eq, fun hw ↦ absurd hw hsettled, hworker, ?_, ?_, ?_⟩
  · simp only [BuildHolds, hbuild, h.build_absent hfree]
  · rw [hbuilt, hhistory]
    exact h.built
  · rw [hhistory]
    exact ⟨h.numbered.1, fun n hn ↦ (h.numbered.2 n hn).trans hepoch⟩

/-- **Creating a builder.** It captures what the machine has, and holds both gates. -/
theorem Consistent.createBuilder (hworker : s.worker = .waitState) :
    Consistent nodeId instanceNum { s with
      machine := (getSnapshotBuilder s.machine).2
      worker := .idle
      stateGate := some .builder
      publicationGate := some .builder
      build := .ready (getSnapshotBuilder s.machine).1 s.epoch } :=
  ⟨h.instanceNum_eq, fun _ ↦ h.agrees (by rw [hworker]; trivial), trivial,
    ⟨⟨rfl, rfl⟩, trivial, rfl, rfl, rfl⟩, h.built, h.numbered⟩

theorem Consistent.workerHolds_release {build : Build M}
    {stateGate : Option Holder} {built : List (ℕ × Snapshot M)}
    (hstate : stateGate = s.stateGate ∨ s.stateGate = some .builder)
    (hpublication : s.publicationGate = some .builder) :
    WorkerHolds { s with
      build := build, stateGate := stateGate, publicationGate := none, built := built } := by
  have hw := h.worker
  rcases hworker : s.worker with _ | _ | _ | _ | _ | _ | _ | _ | _ | _ | _ | _ <;>
    rcases hstate with rfl | hstate <;> simp_all [WorkerHolds]

end

/-- **One step** keeps the invariant. -/
theorem consistent_step (h : Consistent nodeId instanceNum s) (action : GateAction M) :
    Consistent nodeId instanceNum (s.step nodeId action) := by
  have hw := h.worker
  have hb := h.build
  unfold Gates.step
  split
  case h_1 hworker => exact h.move (by rw [hworker]; trivial) trivial trivial
  case h_2 hworker =>
    split_ifs with hgate
    · exact h.moveGates (fun _ ↦ by rw [hworker]; trivial) (Or.inr ⟨rfl, by rw [hgate]; decide⟩) rfl
    · exact h
  case h_3 entry entries hworker =>
    have hgate : s.stateGate = some .worker := by simpa only [WorkerHolds, hworker] using hw
    split
    · exact h.applyNext hworker (by assumption)
    · exact h.moveGates False.elim (Or.inr ⟨rfl, by rw [hgate]; decide⟩) trivial
  case h_4 hworker =>
    have hgate : s.stateGate = some .worker := by simpa only [WorkerHolds, hworker] using hw
    exact h.moveGates (fun _ ↦ by rw [hworker]; trivial) (Or.inr ⟨rfl, by rw [hgate]; decide⟩)
      trivial
  case h_5 hworker => exact h.move (by rw [hworker]; trivial) trivial trivial
  case h_6 hworker =>
    split_ifs with hgate
    · exact h.moveGates (fun _ ↦ by rw [hworker]; trivial) (Or.inl (by rw [hgate]; decide)) rfl
    · exact h
  case h_7 hworker =>
    split_ifs with hgate
    · exact h.createBuilder hworker
    · exact h
  case h_8 builder epoch hbuild => exact h.checkpoint hbuild
  case h_9 builder epoch contents hbuild =>
    simp only [BuildHolds, hbuild] at hb
    refine ⟨h.instanceNum_eq, h.agrees, h.workerHolds_release (Or.inl rfl) hb.1, trivial,
      fun snapshot hs ↦ ?_, h.numbered⟩
    rcases List.mem_append.1 hs with hs | hs
    · exact h.built snapshot hs
    · rw [List.mem_singleton.1 hs]
      exact isPrefix_of_covered nodeId hb.2
  case h_10 hbuild =>
    simp only [BuildHolds, hbuild] at hb
    exact ⟨h.instanceNum_eq, h.agrees, h.workerHolds_release (Or.inr hb.1.1) hb.1.2, trivial,
      h.built, h.numbered⟩
  case h_11 hbuild =>
    simp only [BuildHolds, hbuild] at hb
    exact ⟨h.instanceNum_eq, h.agrees, h.workerHolds_release (Or.inl rfl) hb.1, trivial, h.built,
      h.numbered⟩
  case h_12 hworker => exact h.move (by rw [hworker]; trivial) trivial trivial
  case h_13 hworker =>
    split_ifs with hgate
    · exact h.moveGates (fun _ ↦ by rw [hworker]; trivial) (Or.inl (by rw [hgate]; decide)) rfl
    · exact h
  case h_14 hworker =>
    have hgate : s.publicationGate = some .worker := by
      simpa only [WorkerHolds, hworker] using hw
    split_ifs
    · exact h.moveGates (fun _ ↦ by rw [hworker]; trivial) (Or.inl (by rw [hgate]; decide))
        ⟨rfl, hgate⟩
    · exact h
  case h_15 hworker => exact h.move (by rw [hworker]; trivial) trivial trivial
  case h_20 hworker => exact h.returnInstall hworker
  case h_24 => exact h
  -- the remaining steps are those of an installation that holds both gates
  all_goals
    rename_i hworker
    simp only [WorkerHolds, hworker] at hw
  case h_16 =>
    exact h.moveGates (fun _ ↦ by rw [hworker]; trivial) (Or.inl (by rw [hw.2]; decide)) trivial
  case h_17 =>
    exact h.install (by rw [hw.2]; decide) rfl rfl rfl rfl (Nat.le_succ _) id
      ⟨hw, fun n hn ↦ Nat.lt_succ_of_le (h.numbered.2 n hn)⟩
  case h_18 =>
    exact h.install (by rw [hw.1.2]; decide) rfl rfl rfl rfl (Nat.le_succ _) id
      ⟨⟨hw.1, fun n hn ↦ Nat.lt_succ_of_lt (hw.2 n hn)⟩, rfl⟩
  case h_19 =>
    exact h.install (by rw [hw.1.1.2]; decide) rfl rfl rfl rfl le_rfl id ⟨hw.1, hw.2, rfl, rfl⟩
  case h_21 => exact h.moveGates False.elim (Or.inl (by rw [hw.1.2]; decide)) trivial
  case h_22 => exact h.moveGates False.elim (Or.inl (by rw [hw.1.1.2]; decide)) trivial
  case h_23 => exact h.moveGates False.elim (Or.inl (by rw [hw.1.1.2]; decide)) trivial

end Step

/-! ### Runs -/

theorem consistent_start (nodeId : ℕ) (machine : StateMachine M) :
    Consistent nodeId machine.storage.instanceNum (Gates.start machine) where
  instanceNum_eq := rfl
  agrees _ := ⟨_, [], rfl, rfl, Epoch.Reaches.start ..⟩
  worker := trivial
  build := trivial
  built _ h := by cases h
  numbered := ⟨List.pairwise_singleton _ _, List.forall_mem_singleton.2 le_rfl⟩

/-- **Snapshots are prefixes of the log.** Whatever the worker and the builders do in between, every
snapshot that was built holds the contents after the entries, since the last installation before its
builder was created, up to and including the one whose id it has, and the membership there. -/
theorem snapshots_are_prefixes (nodeId : ℕ) (machine : StateMachine M)
    (actions : List (GateAction M)) :
    ∀ built ∈ (Run.final (Gates.step nodeId) (Gates.start machine) actions).built,
      IsPrefix nodeId machine.storage.instanceNum
        (Run.final (Gates.step nodeId) (Gates.start machine) actions).history built :=
  (Run.invariant_final (I := Consistent nodeId machine.storage.instanceNum)
    (fun _ action h ↦ consistent_step h action)
    (consistent_start nodeId machine) actions).built

/-- A node that applies an entry, is given a snapshot, applies another entry and starts to build a
snapshot of its own; a third entry waits for the gate of the builder. -/
def buildAfterInstall : Gates Unit :=
  Run.final (Gates.step 1) (Gates.start ⟨⟨0, 1, 1, Database.empty⟩, none, ⟨none, ()⟩, 0⟩)
    [.callApply [⟨⟨⟨1, 1⟩, 1⟩, .blank⟩], .lockApply, .applyNext, .returnApply,
      .callInstall ⟨⟨some ⟨⟨1, 1⟩, 4⟩, ⟨none, ()⟩, ""⟩, Database.empty⟩, .installLockPublication,
      .installLockState, .swapPlaceholder, .openRestored, .recordApplied, .returnInstall,
      .callApply [⟨⟨⟨1, 1⟩, 5⟩, .blank⟩], .lockApply, .applyNext, .returnApply,
      .callGetSnapshotBuilder, .lockPublication, .createBuilder,
      .callApply [⟨⟨⟨1, 1⟩, 6⟩, .blank⟩], .lockApply, .applyNext, .checkpoint, .lockApply,
      .applyNext, .returnApply, .publish]

/-- Neither the entry that waits nor what was applied before the installation is in the snapshot. -/
theorem snapshots_are_prefixes_waiting :
    ∃ built ∈ buildAfterInstall.built, built.1 = 2 ∧
      built.2.metadata.lastLogId = some ⟨⟨1, 1⟩, 5⟩ ∧
      IsPrefix 1 1 buildAfterInstall.history built := by
  have hbuilt : (2, some ⟨⟨1, 1⟩, 5⟩) ∈
      buildAfterInstall.built.map fun b ↦ (b.1, b.2.metadata.lastLogId) := by
    decide
  obtain ⟨built, hmem, hid⟩ := List.mem_map.1 hbuilt
  obtain ⟨hstorage, hid⟩ := Prod.mk.inj hid
  exact ⟨built, hmem, hstorage, hid, snapshots_are_prefixes _ _ _ built hmem⟩

/-- **The machine holds a state of its log** between any two steps, and worker and builder have the
gates for what they are doing. -/
theorem consistent_run (nodeId : ℕ) (machine : StateMachine M) (actions : List (GateAction M)) :
    Consistent nodeId machine.storage.instanceNum
      (Run.final (Gates.step nodeId) (Gates.start machine) actions) :=
  Run.invariant_final (I := Consistent nodeId machine.storage.instanceNum)
    (fun _ action h ↦ consistent_step h action) (consistent_start nodeId machine) actions

end Kiwi.Raft
