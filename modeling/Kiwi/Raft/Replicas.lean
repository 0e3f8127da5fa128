import Kiwi.Correctness.Compaction.Invisible

/-!
# Replicas that compact

A leader executes operations against its own contents and clock. Each operation produces one binlog,
the batch that it commits, and every follower applies the binlogs in log order. Any node may at any
time drop an entry of its own database for which a compaction filter answers `Remove` under the
node's own clock. The leader is node `0`. As in `Compaction.step`, a filter for data rows is
created, asked about rows that were stored then, and dropped, and remembers the meta value of the
key whose rows it is asked about; several may be at work on one node.

The log keeps the leader's clock with every binlog, and a node the clock of its latest drop; the
code has neither.
-/

namespace Kiwi.Raft

open Compaction

variable {S : Type} [Score S]

/-- A node: its contents, the clock of its last action, that of its last drop, and the filters that
are open. -/
structure Replica (S : Type) [LinearOrder S] where
  db : Redis S := .empty
  /-- How many binlogs it has applied. -/
  applied : ℕ := 0
  clock : ℕ := 0
  dropped : ℕ := 0
  /-- The data filters at work. -/
  filters : SortedMap ℕ (OpenFilter S) := .empty

/-- A leader and its followers. -/
structure Replicas (S : Type) [LinearOrder S] where
  /-- The binlogs, each with the leader's clock. -/
  log : List (ℕ × Batch S) := []
  nodes : ℕ → Replica S := fun _ ↦ {}

/-- What happens on a node, at the clock `now` of that node. -/
inductive ReplicaAction (S : Type) : Type 1
  /-- The leader executes an operation, which produces a binlog. -/
  | operate {α : Type} (o : Operation S α) (now : ℕ) (binlog : Batch S)
  /-- A node applies the next binlog. -/
  | apply (node : ℕ)
  /-- A node asks its filter about the meta value of a key. -/
  | dropMeta (node now : ℕ) (key : Bytes)
  | openFilter (node id : ℕ) (dataType : DataType)
  /-- A node asks a filter about a row, which is `visible` unless it was overwritten since. -/
  | filterData (node now id : ℕ) (r : Row S) (visible : Bool)
  | closeFilter (node id : ℕ)

namespace Replicas

/-- Change one node. -/
def setNode (s : Replicas S) (node : ℕ) (replica : Replica S) : Replicas S :=
  { s with nodes := Function.update s.nodes node replica }

variable (s : Replicas S)

@[simp]
theorem nodes_setNode_self (node : ℕ) (replica : Replica S) :
    (s.setNode node replica).nodes node = replica :=
  Function.update_self ..

theorem nodes_setNode_of_ne {n node : ℕ} (h : n ≠ node) (replica : Replica S) :
    (s.setNode node replica).nodes n = s.nodes n :=
  Function.update_of_ne h ..

/-- The leader, node `0`, logs what it commits; a compaction changes one node and no log. -/
def step (s : Replicas S) : ReplicaAction S → Replicas S
  | .operate o now binlog =>
    let leader := s.nodes 0
    { s.setNode 0 { leader with
        db := ((o.run now).exec leader.db).2
        applied := leader.applied + 1
        clock := now } with
      log := s.log ++ [(now, binlog)] }
  | .apply node =>
    let replica := s.nodes node
    match s.log[replica.applied]? with
    | none => s
    | some (_, binlog) =>
      s.setNode node { replica with
        db := replica.db.write binlog
        applied := replica.applied + 1 }
  | .dropMeta node now key =>
    let replica := s.nodes node
    s.setNode node { replica with
      db := compactMeta replica.db now key
      clock := now
      dropped := now }
  | .openFilter node id dataType =>
    let replica := s.nodes node
    s.setNode node { replica with
      filters := replica.filters.insert id ⟨.new dataType, replica.db⟩ }
  | .filterData node now id r visible =>
    let replica := s.nodes node
    match replica.filters.get id with
    | none => s
    | some f =>
      s.setNode node { replica with
        db := compactData f.filter replica.db now r visible
        clock := now
        dropped := now
        filters := replica.filters.insert id
          { f with filter := (f.filter.filter replica.db now r).2 } }
  | .closeFilter node id =>
    let replica := s.nodes node
    s.setNode node { replica with filters := replica.filters.erase id }

/-- Which steps are possible: the binlog of an operation is the batch that the operation commits,
the clock of a node does not go back, and a filter is asked about rows of its type, of those that
can be seen only about rows that were stored when it was created. -/
def Possible (s : Replicas S) : ReplicaAction S → Prop
  | .operate o now binlog =>
    (s.nodes 0).clock ≤ now ∧ ((o.run now).exec (s.nodes 0).db).2 = (s.nodes 0).db.write binlog
  | .apply _ | .openFilter .. | .closeFilter .. => True
  | .dropMeta node now _ => (s.nodes node).clock ≤ now
  | .filterData node now id r visible => (s.nodes node).clock ≤ now ∧
    RowGuard (s.nodes node).filters (.filterData id r visible)

end Replicas

/-- The contents after binlogs, without compaction. -/
def contentsOf (log : List (ℕ × Batch S)) : Redis S :=
  log.foldl (fun db entry ↦ db.write entry.2) .empty

/-- The clock of the last binlog. -/
def clockOf (log : List (ℕ × Batch S)) : ℕ :=
  (log.getLast?.map Prod.fst).getD 0

end Kiwi.Raft
