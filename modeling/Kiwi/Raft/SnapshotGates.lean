import Kiwi.Raft.StateMachine

/-!
# Applying, building and installing under the two gates

openraft calls `apply`, `get_snapshot_builder` and `install_snapshot` one at a time from its
state-machine worker, while `build_snapshot` runs in a task of its own on the builder that it was
given. Two mutexes order them: `snapshot_state_gate` is held while the state changes and from the
creation of a builder until its checkpoint is taken, and `snapshot_publication_gate` from the
creation of a builder until its snapshot is persisted and throughout an installation.

`Gates.step` takes one step of the worker or of the builder; waiting for a gate, holding it and
letting it go are steps of their own, so a list of actions is an interleaving. An action that is not
possible in a state changes nothing.

A builder keeps the storage that was swapped in when it was created (`epoch`); a storage that is
swapped out is not written any more (`retired`). A failure after the marker of an installation was
written ends the run: the call returns a storage error, on which openraft stops.
-/

namespace Kiwi.Raft

/-- A snapshot: its metadata, and the checkpoint of the contents. -/
structure Snapshot (M : Type) where
  metadata : SnapshotMeta M
  /-- The contents of the checkpoint. -/
  contents : Contents

/-- Who holds a gate. -/
inductive Holder where
  | worker
  | builder
deriving DecidableEq, Repr

/-- Where the worker is. -/
inductive Worker (M : Type) where
  | idle
  /-- `apply` waits for the state gate. -/
  | waitApply (entries : List (Entry (Payload M)))
  /-- `apply` holds the state gate; the entries are still to be applied. -/
  | applying (entries : List (Entry (Payload M)))
  /-- `get_snapshot_builder` waits for the publication gate. -/
  | waitPublication
  /-- `get_snapshot_builder` holds the publication gate and waits for the state gate. -/
  | waitState
  /-- `install_snapshot` has staged the checkpoint and waits for the publication gate. -/
  | installWaitPublication (snapshot : Snapshot M)
  /-- `install_snapshot` holds the publication gate and waits for the state gate. -/
  | installWaitState (snapshot : Snapshot M)
  /-- `install_snapshot` holds both gates. -/
  | installing (snapshot : Snapshot M)
  /-- The marker is written and a placeholder is swapped in. -/
  | replacing (snapshot : Snapshot M)
  /-- The restored storage is swapped in. -/
  | restored (snapshot : Snapshot M)
  /-- `last_applied` and `last_membership` are those of the snapshot. -/
  | recorded (snapshot : Snapshot M)
  | stopped

/-- Where the builder is. -/
inductive Build (M : Type) where
  /-- There is no builder with guards. -/
  | absent
  /-- The builder has captured its metadata and holds both gates. -/
  | ready (builder : SnapshotBuilder M) (epoch : ℕ)
  /-- The checkpoint is taken, and the state gate is let go. -/
  | checkpointed (builder : SnapshotBuilder M) (epoch : ℕ) (contents : Contents)

/-- A stretch of the log: the state it starts from, and the entries applied since. -/
structure Epoch (M : Type) where
  /-- The number of the storage with which it starts. -/
  storage : ℕ
  contents : Contents
  /-- The last entry that the start covers. -/
  lastLogId : Option LogId
  lastMembership : StoredMembership M
  /-- The entries that were applied, in order. -/
  entries : List (Entry (Payload M))

/-- The state machine with its gates, and beside it what was built and applied. -/
structure Gates (M : Type) where
  machine : StateMachine M
  /-- The number of the storage that is swapped in. -/
  epoch : ℕ
  /-- The contents of the storages that were swapped out. -/
  retired : ℕ → Contents
  /-- `snapshot_state_gate`. -/
  stateGate : Option Holder
  /-- `snapshot_publication_gate`. -/
  publicationGate : Option Holder
  worker : Worker M
  build : Build M
  /-- The snapshots, each with the number of the storage that was swapped in when its builder was
  created. -/
  built : List (ℕ × Snapshot M)
  /-- The stretches of the log, the current one first. -/
  history : List (Epoch M)

/-- The steps of the worker and of the builder. -/
inductive GateAction (M : Type) where
  | callApply (entries : List (Entry (Payload M)))
  | lockApply
  | applyNext
  | returnApply
  | callGetSnapshotBuilder
  | lockPublication
  | createBuilder
  | checkpoint
  | publish
  | dropBuilder
  | callInstall (snapshot : Snapshot M)
  | installLockPublication
  | installLockState
  | installReject
  | swapPlaceholder
  | openRestored
  | recordApplied
  | returnInstall
  | installFail

namespace Gates

variable {M : Type} (nodeId : ℕ)

/-- The entry is part of the log. -/
def logEntry (history : List (Epoch M)) (entry : Entry (Payload M)) : List (Epoch M) :=
  match history with
  | [] => []
  | epoch :: epochs => { epoch with entries := epoch.entries ++ [entry] } :: epochs

/-- The contents that the builder's storage has. -/
def contentsOf (s : Gates M) (epoch : ℕ) : Contents :=
  if epoch = s.epoch then s.machine.storage.contents else s.retired epoch

/-- Swap a storage in. -/
def swap (s : Gates M) (storage : Storage) : Gates M :=
  { s with
    machine := { s.machine with storage := storage }
    epoch := s.epoch + 1
    retired := Function.update s.retired s.epoch s.machine.storage.contents }

/-- A step of the worker or the builder, which does nothing where that task is elsewhere or the gate
it waits for is held. -/
def step (s : Gates M) (action : GateAction M) : Gates M :=
  match action, s.worker, s.build with
  | .callApply entries, .idle, _ => { s with worker := .waitApply entries }
  | .lockApply, .waitApply entries, _ =>
    if s.stateGate = none then
      { s with worker := .applying entries, stateGate := some .worker }
    else s
  | .applyNext, .applying (entry :: entries), _ =>
    match applyEntry s.machine entry with
    | .ok machine =>
      { s with
        machine := machine
        worker := .applying entries
        history := logEntry s.history entry }
    | .error _ => { s with worker := .stopped, stateGate := none }
  | .returnApply, .applying [], _ => { s with worker := .idle, stateGate := none }
  | .callGetSnapshotBuilder, .idle, _ => { s with worker := .waitPublication }
  | .lockPublication, .waitPublication, _ =>
    if s.publicationGate = none then
      { s with worker := .waitState, publicationGate := some .worker }
    else s
  | .createBuilder, .waitState, _ =>
    if s.stateGate = none then
      { s with
        machine := (getSnapshotBuilder s.machine).2
        worker := .idle
        stateGate := some .builder
        publicationGate := some .builder
        build := .ready (getSnapshotBuilder s.machine).1 s.epoch }
    else s
  | .checkpoint, _, .ready builder epoch =>
    { s with build := .checkpointed builder epoch (s.contentsOf epoch), stateGate := none }
  | .publish, _, .checkpointed builder epoch contents =>
    { s with
      build := .absent
      publicationGate := none
      built := s.built ++ [(epoch, ⟨builder.metadata nodeId, contents⟩)] }
  -- a builder that fails or is dropped lets go what it holds
  | .dropBuilder, _, .ready _ _ =>
    { s with build := .absent, stateGate := none, publicationGate := none }
  | .dropBuilder, _, .checkpointed _ _ _ => { s with build := .absent, publicationGate := none }
  | .callInstall snapshot, .idle, _ => { s with worker := .installWaitPublication snapshot }
  | .installLockPublication, .installWaitPublication snapshot, _ =>
    if s.publicationGate = none then
      { s with worker := .installWaitState snapshot, publicationGate := some .worker }
    else s
  | .installLockState, .installWaitState snapshot, _ =>
    if s.stateGate = none then
      { s with worker := .installing snapshot, stateGate := some .worker }
    else s
  -- before the marker is written an error leaves everything as it was
  | .installReject, .installWaitPublication _, _ => { s with worker := .idle }
  | .installReject, .installing _, _ =>
    { s with worker := .idle, stateGate := none, publicationGate := none }
  | .swapPlaceholder, .installing snapshot, _ =>
    { s.swap { s.machine.storage with insts := 0, contents := Database.empty } with
      worker := .replacing snapshot }
  | .openRestored, .replacing snapshot, _ =>
    { s.swap { s.machine.storage with
        insts := s.machine.storage.instanceNum, contents := snapshot.contents } with
      worker := .restored snapshot }
  | .recordApplied, .restored snapshot, _ =>
    { s with
      machine := { s.machine with
        lastApplied := snapshot.metadata.lastLogId
        lastMembership := snapshot.metadata.lastMembership }
      worker := .recorded snapshot }
  | .returnInstall, .recorded snapshot, _ =>
    { s with
      worker := .idle
      stateGate := none
      publicationGate := none
      history := ⟨s.epoch, snapshot.contents, snapshot.metadata.lastLogId,
        snapshot.metadata.lastMembership, []⟩ :: s.history }
  | .installFail, .replacing _, _ =>
    { s with worker := .stopped, stateGate := none, publicationGate := none }
  | .installFail, .restored _, _ =>
    { s with worker := .stopped, stateGate := none, publicationGate := none }
  | .installFail, .recorded _, _ =>
    { s with worker := .stopped, stateGate := none, publicationGate := none }
  | _, _, _ => s

/-- A state machine when the process starts. -/
def start (machine : StateMachine M) : Gates M where
  machine := machine
  epoch := 0
  retired _ := Database.empty
  stateGate := none
  publicationGate := none
  worker := .idle
  build := .absent
  built := []
  history :=
    [⟨0, machine.storage.contents, machine.lastApplied, machine.lastMembership, []⟩]

end Gates

end Kiwi.Raft
