import Kiwi.Raft.StateMachine
import Kiwi.Lib.Replay
import Kiwi.Lib.Run

/-!
# Replicas converge

A node applies the entries of one log, builds snapshots and crashes. A crash loses the memory of the
state machine but no committed batch; the node then resumes behind the last snapshot that it
persisted, or at the beginning of the log, and applies entries again that are in its contents
already. `replicas_converge` says that this does no harm: a node that has applied the last entry
holds exactly what applying every entry once, in order, to an empty database gives, and so any two
such nodes hold the same.

The log is a list of entries with the indexes `1, 2, …`; index `0` is the membership with which
a cluster is initialised and writes nothing. The argument is `Database.Replayed`: binlogs are
physical puts and deletes, so what an entry leaves at a location that it touches does not depend on
what was there.
-/

namespace Kiwi.Raft

variable {M : Type}

/-- A node: its state machine, and the metadata of the snapshot that it persisted last. -/
structure Node (M : Type) where
  machine : StateMachine M
  persisted : Option (SnapshotMeta M)

/-- What happens to a node. -/
inductive NodeEvent where
  /-- `apply` is called with the next `count` entries. -/
  | apply (count : ℕ)
  /-- A snapshot is built and persisted. -/
  | buildSnapshot
  /-- The node crashes when the writes of `committed` entries of an `apply` call are committed, and
  restarts. -/
  | crash (committed : ℕ)
deriving DecidableEq

/-- The number of entries that the state machine counts as applied. -/
def StateMachine.position (sm : StateMachine M) : ℕ := (sm.lastApplied.map LogId.index).getD 0

/-- The next entries of the log. -/
def StateMachine.nextEntries (log : List (Entry (Payload M))) (sm : StateMachine M) (count : ℕ) :
    List (Entry (Payload M)) :=
  (log.drop sm.position).take count

/-- `KiwiStateMachine::new` on the contents that were found, and `applied_state`. -/
def restart [Inhabited M] (node : Node M) : Node M :=
  { node with machine := appliedState ⟨node.machine.storage, none, default, 0⟩ node.persisted }

/-- What an event does to node `nodeId`. A crash keeps the contents and loses the memory. -/
def Node.step [Inhabited M] (nodeId : ℕ) (log : List (Entry (Payload M))) (node : Node M) :
    NodeEvent → Node M
  | .apply count =>
    { node with machine := (Raft.apply node.machine (node.machine.nextEntries log count)).2 }
  | .buildSnapshot =>
    let (builder, machine) := getSnapshotBuilder node.machine
    ⟨machine, some (builder.metadata nodeId)⟩
  | .crash committed =>
    restart { node with
      machine := (Raft.apply node.machine (node.machine.nextEntries log committed)).2 }

/-- A storage whose instances are open and empty. -/
def emptyStorage (dbId instanceNum : ℕ) : Storage :=
  ⟨dbId, instanceNum, instanceNum, Database.empty⟩

/-- A node that starts for the first time. -/
def newNode [Inhabited M] (dbId instanceNum : ℕ) : Node M :=
  ⟨⟨emptyStorage dbId instanceNum, none, default, 0⟩, none⟩

/-- The log of a cluster: indexes count from one, and binlogs are valid. -/
structure ValidLog (dbId instanceNum : ℕ) (log : List (Entry (Payload M))) : Prop where
  /-- The entry at position `i` has index `i + 1`. -/
  index : ∀ i (h : i < log.length), log[i].index = i + 1
  valid : ∀ e ∈ log, e.Valid (emptyStorage dbId instanceNum)

/-- The contents after every entry was applied once to an empty database. -/
def onceContents [Inhabited M] (dbId instanceNum : ℕ) (log : List (Entry (Payload M))) : Contents :=
  (Raft.apply (newNode dbId instanceNum).machine log).2.storage.contents

/-! ### The invariant -/

section Invariant

variable {dbId instanceNum : ℕ} {log : List (Entry (Payload M))} {node : Node M}

/-- The batches of the log. -/
def batches (instanceNum : ℕ) (log : List (Entry (Payload M))) : List ContentsBatch :=
  log.map (Entry.batch instanceNum)

/-- What a state machine is like between events. -/
structure Progress (dbId instanceNum : ℕ) (log : List (Entry (Payload M))) (sm : StateMachine M) :
    Prop where
  dbId_eq : sm.storage.dbId = dbId
  instanceNum_eq : sm.storage.instanceNum = instanceNum
  isOpen : sm.storage.Open
  /-- The contents have reached the position. -/
  replayed : Database.Replayed (batches instanceNum log) sm.position sm.storage.contents

/-- What a node is like between events: besides, the snapshot is not ahead. -/
structure NodeProgress (dbId instanceNum : ℕ) (log : List (Entry (Payload M))) (node : Node M) :
    Prop where
  machine : Progress dbId instanceNum log node.machine
  /-- The snapshot is at or behind the position, and has an id. -/
  persisted : ∀ snapshot ∈ node.persisted,
    ∃ id, snapshot.lastLogId = some id ∧ id.index ≤ node.machine.position

theorem position_after (sm : StateMachine M) (entry : Entry (Payload M)) :
    (sm.after entry).position = entry.index := rfl

section

variable {sm : StateMachine M} (hlog : ValidLog dbId instanceNum log)
  (h : Progress dbId instanceNum log sm)

include hlog h

/-- **One entry.** The next entry advances the position by one. -/
theorem Progress.after (hp : sm.position < log.length) :
    Progress dbId instanceNum log (sm.after log[sm.position]) ∧
      (sm.after log[sm.position]).position = sm.position + 1 := by
  have hposition : (sm.after log[sm.position]).position = sm.position + 1 :=
    (position_after ..).trans (hlog.index _ hp)
  refine ⟨⟨h.dbId_eq, h.instanceNum_eq, sm.after_open h.isOpen _, ?_⟩, hposition⟩
  rw [hposition]
  refine h.replayed.write ?_
  rw [batches, List.getElem?_map, List.getElem?_eq_getElem hp, h.instanceNum_eq]
  rfl

/-- **A batch of entries.** The next entries are applied, and the position advances. -/
theorem Progress.apply (count : ℕ) :
    Progress dbId instanceNum log (Raft.apply sm (sm.nextEntries log count)).2 ∧
      sm.position ≤ (Raft.apply sm (sm.nextEntries log count)).2.position := by
  have hvalid : ∀ e ∈ log, e.Valid sm.storage := fun e he ↦
    (Entry.valid_congr (show dbId = sm.storage.dbId from h.dbId_eq.symm) e).1 (hlog.valid e he)
  have hnext : ∀ e ∈ sm.nextEntries log count, e.Valid sm.storage := fun e he ↦
    hvalid e (List.drop_subset _ _ (List.take_subset _ _ he))
  rw [apply_of_valid h.isOpen hnext]
  dsimp only
  clear hvalid hnext
  -- the entries are those at the position, one after the other
  induction count generalizing sm with
  | zero => exact ⟨by simpa [StateMachine.nextEntries] using h, by simp [StateMachine.nextEntries]⟩
  | succ count ih =>
    rcases Nat.lt_or_ge sm.position log.length with hp | hp
    · obtain ⟨hafter, hposition⟩ := h.after hlog hp
      have hcons : sm.nextEntries log (count + 1) =
          log[sm.position] :: (sm.after log[sm.position]).nextEntries log count := by
        rw [StateMachine.nextEntries, StateMachine.nextEntries, hposition,
          List.drop_eq_getElem_cons hp, List.take_succ_cons]
      rw [hcons, List.foldl_cons]
      obtain ⟨hprogress, hle⟩ := ih hafter
      exact ⟨hprogress, by omega⟩
    · have hnil : sm.nextEntries log (count + 1) = [] := by
        rw [StateMachine.nextEntries, List.drop_of_length_le hp, List.take_nil]
      rw [hnil]
      exact ⟨h, le_rfl⟩

end

variable [Inhabited M]

theorem NodeProgress.restart (h : NodeProgress dbId instanceNum log node) :
    NodeProgress dbId instanceNum log (restart node) := by
  have hzero : Progress dbId instanceNum log
      (⟨node.machine.storage, none, default, 0⟩ : StateMachine M) :=
    ⟨h.machine.dbId_eq, h.machine.instanceNum_eq, h.machine.isOpen,
      h.machine.replayed.mono (Nat.zero_le _)⟩
  rcases hsnap : node.persisted with _ | snapshot
  · have hrestart : Raft.restart node = ⟨⟨node.machine.storage, none, default, 0⟩, none⟩ := by
      rw [Raft.restart, hsnap]
      rfl
    rw [hrestart]
    exact ⟨hzero, fun snapshot hs ↦ by cases hs⟩
  · obtain ⟨id, hid, hle⟩ := h.persisted snapshot hsnap
    have hrestart : Raft.restart node =
        ⟨⟨node.machine.storage, some id, snapshot.lastMembership, 0⟩, some snapshot⟩ := by
      rw [Raft.restart, hsnap]
      show Node.mk (appliedState _ _) _ = _
      simp only [appliedState, hid]
    rw [hrestart]
    refine ⟨⟨h.machine.dbId_eq, h.machine.instanceNum_eq, h.machine.isOpen,
      h.machine.replayed.mono hle⟩, fun snapshot' hs ↦ ?_⟩
    obtain rfl := Option.some.inj hs
    exact ⟨id, hid, le_rfl⟩

/-- **One event** keeps what a node is like. -/
theorem nodeProgress_step (hlog : ValidLog dbId instanceNum log) (nodeId : ℕ) (event : NodeEvent)
    (h : NodeProgress dbId instanceNum log node) :
    NodeProgress dbId instanceNum log (node.step nodeId log event) := by
  have happly : ∀ count, NodeProgress dbId instanceNum log
      { node with machine := (Raft.apply node.machine (node.machine.nextEntries log count)).2 } := by
    intro count
    obtain ⟨hprogress, hle⟩ := h.machine.apply hlog count
    refine ⟨hprogress, fun snapshot hs ↦ ?_⟩
    obtain ⟨id, hid, hidle⟩ := h.persisted snapshot hs
    exact ⟨id, hid, hidle.trans hle⟩
  cases event with
  | apply count => exact happly count
  | buildSnapshot =>
    refine ⟨⟨h.machine.dbId_eq, h.machine.instanceNum_eq, h.machine.isOpen, h.machine.replayed⟩,
      fun snapshot hs ↦ ?_⟩
    obtain rfl := Option.some.inj hs
    exact ⟨_, rfl, le_rfl⟩
  | crash committed => exact (happly committed).restart

end Invariant

/-! ### Convergence -/

section Converge

variable {dbId instanceNum : ℕ} {log : List (Entry (Payload M))}

theorem Progress.contents_eq {sm : StateMachine M} (h : Progress dbId instanceNum log sm)
    (hend : sm.position = log.length) :
    sm.storage.contents = Database.empty.write (batches instanceNum log).flatten := by
  have hlength : (batches instanceNum log).length = log.length := List.length_map ..
  have hreplayed := h.replayed
  rw [hend, ← hlength] at hreplayed
  rw [hreplayed.eq_upTo, Database.upTo_length]

variable [Inhabited M]

theorem nodeProgress_newNode (hpos : 0 < instanceNum) (log : List (Entry (Payload M))) :
    NodeProgress dbId instanceNum log (newNode dbId instanceNum) where
  machine := ⟨rfl, rfl, ⟨hpos, rfl⟩, Database.Replayed.empty _⟩
  persisted _ h := by cases h

theorem onceContents_eq (hpos : 0 < instanceNum) (hlog : ValidLog dbId instanceNum log) :
    onceContents dbId instanceNum log =
      Database.empty.write (batches instanceNum log).flatten := by
  have hstart : Progress dbId instanceNum log (newNode dbId instanceNum : Node M).machine :=
    (nodeProgress_newNode hpos log).machine
  have hall : (newNode dbId instanceNum : Node M).machine.nextEntries log log.length = log := by
    show (log.drop 0).take log.length = log
    rw [List.drop_zero, List.take_length]
  obtain ⟨hprogress, -⟩ := hstart.apply hlog log.length
  rw [hall] at hprogress
  refine hprogress.contents_eq ?_
  rw [apply_of_valid hstart.isOpen hlog.valid]
  rcases List.eq_nil_or_concat log with rfl | ⟨front, last, rfl⟩
  · rfl
  · rw [List.concat_eq_append, List.foldl_append]
    have hindex := hlog.index front.length (by simp)
    simp only [List.concat_eq_append, List.getElem_concat_length] at hindex
    simp only [List.foldl_cons, List.foldl_nil, position_after, List.length_append,
      List.length_singleton, hindex]

/-- **Convergence.** Whatever the batches of its `apply` calls, its snapshots and its crashes were,
a node that has applied the last entry of the log holds what applying every entry once gives; so two
such nodes hold the same. -/
theorem replicas_converge (dbId instanceNum : ℕ) (hpos : 0 < instanceNum)
    (log : List (Entry (Payload M))) (hlog : ValidLog dbId instanceNum log)
    (nodeId nodeId' : ℕ) (events events' : List NodeEvent)
    (hend : (Run.final (Node.step nodeId log) (newNode dbId instanceNum) events).machine.position =
      log.length)
    (hend' : (Run.final (Node.step nodeId' log) (newNode dbId instanceNum)
      events').machine.position = log.length) :
    (Run.final (Node.step nodeId log) (newNode dbId instanceNum)
        events).machine.storage.contents = onceContents dbId instanceNum log ∧
      (Run.final (Node.step nodeId log) (newNode dbId instanceNum)
        events).machine.storage.contents =
      (Run.final (Node.step nodeId' log) (newNode dbId instanceNum)
        events').machine.storage.contents := by
  have hrun : ∀ (nodeId : ℕ) (events : List NodeEvent), NodeProgress dbId instanceNum log
      (Run.final (Node.step nodeId log) (newNode dbId instanceNum) events) :=
    fun nodeId events ↦ Run.invariant_final
      (fun _ event h ↦ nodeProgress_step hlog nodeId event h) (nodeProgress_newNode hpos log) events
  have hcontents := (hrun nodeId events).machine.contents_eq hend
  have hcontents' := (hrun nodeId' events').machine.contents_eq hend'
  exact ⟨hcontents.trans (onceContents_eq hpos hlog).symm, hcontents.trans hcontents'.symm⟩

/-- **Crashes never tear a node.** After every history each location holds its value after some
prefix of the log that reaches the node's position. -/
theorem node_progress (hpos : 0 < instanceNum) (hlog : ValidLog dbId instanceNum log) (nodeId : ℕ)
    (events : List NodeEvent) : NodeProgress dbId instanceNum log
      (Run.final (Node.step nodeId log) (newNode dbId instanceNum) events) :=
  Run.invariant_final (fun _ event h ↦ nodeProgress_step hlog nodeId event h)
    (nodeProgress_newNode hpos log) events

end Converge

/-- A binlog that puts a value at the meta key of the one-byte user key `k`. -/
def putBinlog (value : Option Bytes) : Binlog where
  dbId := 0
  slotIdx := keyToSlotId [0x6B]
  entries :=
    [⟨0, if value.isSome then .put else .delete,
      List.replicate 8 0 ++ [0x6B, 0, 0] ++ List.replicate 16 0, value⟩]

/-- A log that puts a value, deletes it and puts another. -/
def overwritingLog : List (Entry (Payload Unit)) :=
  [⟨⟨⟨1, 1⟩, 1⟩, .normal (putBinlog (some [1]))⟩, ⟨⟨⟨1, 1⟩, 2⟩, .normal (putBinlog none)⟩,
    ⟨⟨⟨1, 1⟩, 3⟩, .blank⟩, ⟨⟨⟨2, 2⟩, 4⟩, .normal (putBinlog (some [2]))⟩]

theorem validLog_overwritingLog : ValidLog 0 3 overwritingLog where
  index := by decide
  valid e he := by
    simp only [overwritingLog, List.mem_cons, List.not_mem_nil, or_false] at he
    rcases he with rfl | rfl | rfl | rfl
    · show validateBinlog _ _ = _
      rfl
    · show validateBinlog _ _ = _
      rfl
    · trivial
    · show validateBinlog _ _ = _
      rfl

/-- A node that crashes twice, the second time behind its snapshot, and one that never does. -/
theorem replicas_converge_overwriting :
    (Run.final (Node.step 1 overwritingLog) (newNode 0 3)
        [.apply 2, .buildSnapshot, .crash 2, .apply 1, .crash 0, .apply 5]).machine.storage.contents =
      onceContents 0 3 overwritingLog ∧
    (Run.final (Node.step 1 overwritingLog) (newNode 0 3)
        [.apply 2, .buildSnapshot, .crash 2, .apply 1, .crash 0, .apply 5]).machine.storage.contents =
      (Run.final (Node.step 2 overwritingLog) (newNode 0 3) [.apply 4]).machine.storage.contents :=
  replicas_converge 0 3 (by decide) overwritingLog validLog_overwritingLog 1 2 _ _
    (by decide +kernel) (by decide +kernel)

theorem node_progress_overwriting : NodeProgress 0 3 overwritingLog
    (Run.final (Node.step 1 overwritingLog) (newNode 0 3) [.apply 2, .buildSnapshot, .crash 1]) :=
  node_progress (by decide) validLog_overwritingLog 1 _

end Kiwi.Raft
