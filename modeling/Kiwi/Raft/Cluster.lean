import Kiwi.Storage.Strings

/-!
# INCR in the cluster

In cluster mode a command is executed on a node that believes to be the leader. It takes the lock of
its key, reads the contents of that node, computes a binlog, and proposes it; `client_write` returns
when the binlog was committed and applied on the node, and then the lock is let go. What separates
the read from the proposal is one look at `is_leader` beforehand; the linearizable read that would
wait for the node to catch up is made for vector reads only.

`Cluster` is the committed log, with what each node has applied of it and the command that each node
is executing. Leadership moves to any node at any time. A node that is not the leader may still
believe that it is, so it may execute commands; its proposals fail.
-/

namespace Kiwi.Raft

variable {S : Type} [LinearOrder S]

/-- What `incr_decr` answers, and the batch that it commits. -/
def incrDecrBatch (db : Redis S) (key : Bytes) (incr : ℤ) (now : ℕ) :
    Except Error (ℤ × Batch S) := do
  match ← db.stringValue key now with
  | none =>
    match checkedAddI64 0 incr with
    | none => .error (.redisErr "increment or decrement would overflow")
    | some n => .ok (n, [Strings.putString key (formatI64 n) now 0])
  | some old =>
    match parseI64 (fromUtf8Lossy old.userValue) with
    | none => .error (.redisErr "value is not an integer or out of range")
    | some n =>
      match checkedAddI64 n incr with
      | none => .error (.redisErr "increment or decrement would overflow")
      | some n => .ok (n, [Strings.putString key (formatI64 n) old.ctime old.etime])

/-- What `incr_decr` does without a cluster: it writes its batch at once. -/
theorem exec_incrDecr (db : Redis S) (key : Bytes) (incr : ℤ) (now : ℕ) :
    (Strings.incrDecr key incr now).exec db =
      match incrDecrBatch db key incr now with
      | .error e => (.error e, db)
      | .ok (n, batch) => (.ok n, db.write batch) := by
  rw [Strings.incrDecr, Program.exec_get_bind, incrDecrBatch]
  rcases db.stringValue key now with e | (_ | old)
  · rfl
  · rw [Program.exec_lift_ok_bind, Program.except_ok_bind]
    dsimp only
    rcases checkedAddI64 0 incr with _ | n <;> rfl
  · rw [Program.exec_lift_ok_bind, Program.except_ok_bind]
    dsimp only
    rcases parseI64 (fromUtf8Lossy old.userValue) with _ | n
    · rfl
    · dsimp only
      rcases checkedAddI64 n incr with _ | n <;> rfl

/-- A command between its read and its end. -/
structure Command (S : Type) where
  binlog : Batch S
  value : ℤ
  term : ℕ
  /-- Where the binlog is in the log, once it is committed. -/
  index : Option ℕ

/-- A committed binlog, with the value that its command returned. -/
structure Committed (S : Type) where
  binlog : Batch S
  value : ℤ

/-- The state of a cluster. -/
structure Cluster (S : Type) where
  log : List (Committed S) := []
  leader : ℕ := 0
  /-- How often leadership has moved. -/
  term : ℕ := 0
  /-- How much of the log each node has applied. -/
  applied : ℕ → ℕ := fun _ ↦ 0
  /-- The command that each node executes on the key; the lock of the key admits one. -/
  pending : ℕ → Option (Command S) := fun _ ↦ none

/-- The steps of a cluster. -/
inductive ClusterAction where
  | lead (node : ℕ)
  /-- A node applies the next binlog. -/
  | apply (node : ℕ)
  /-- An INCR starts on a node and reads at the node's clock. -/
  | read (node now : ℕ)
  /-- The proposal of a node is committed. -/
  | commit (node : ℕ)
  /-- The command ends on a node, successfully only after its binlog was applied there. -/
  | finish (node : ℕ)
deriving DecidableEq

/-- The contents after a log. -/
def contentsAfter (log : List (Committed S)) : Redis S :=
  log.foldl (fun db c ↦ db.write c.binlog) Redis.empty

namespace Cluster

/-- Set the command of a node. -/
def setPending (s : Cluster S) (node : ℕ) (command : Option (Command S)) : Cluster S :=
  { s with pending := Function.update s.pending node command }

/-- One step. A step that is not possible changes nothing. -/
def step (key : Bytes) (s : Cluster S) : ClusterAction → Cluster S
  | .lead node => { s with leader := node, term := s.term + 1 }
  | .apply node =>
    if s.applied node < s.log.length then
      { s with applied := Function.update s.applied node (s.applied node + 1) }
    else s
  | .read node now =>
    match s.pending node with
    | some _ => s
    | none =>
      match incrDecrBatch (contentsAfter (s.log.take (s.applied node))) key 1 now with
      | .error _ => s
      | .ok (value, binlog) => s.setPending node (some ⟨binlog, value, s.term, none⟩)
  | .commit node =>
    match s.pending node with
    | some ⟨binlog, value, term, none⟩ =>
      if s.leader = node then
        { s.setPending node (some ⟨binlog, value, term, some s.log.length⟩) with
          log := s.log ++ [⟨binlog, value⟩] }
      else s
    | _ => s
  -- a proposal that fails, or a response that is lost, ends the command as well
  | .finish node => s.setPending node none

end Cluster

end Kiwi.Raft
