import Kiwi.Lib.Run
import Mathlib.Algebra.BigOperators.Group.Finset.Basic

/-!
# The storage access gate

`StorageAccessGate` (`common/runtime/storage_server.rs`) keeps requests away from the storage while
a snapshot is installed. A request enters by counting itself in and looking again whether the gate
is paused; if it is, it counts itself out. A snapshot installation sets the flag and waits until
nobody is counted. Both wait on one `Notify`, which wakes whoever is registered at the moment of the
call.

The state has the flag, the counter, the place of every task in `enter` and `drop`, and the place of
the one task that pauses. Each action takes one atomic step: a load, a store, an addition, a
registration or a notification. An action that is not possible changes nothing.
-/

namespace Kiwi.Runtime

/-- Where a task is. -/
inductive TaskPhase where
  /-- Outside. -/
  | idle
  /-- Before the load of `paused` at the head of the loop. -/
  | check
  /-- Before it registers with `state_changed`. -/
  | register
  /-- Registered, before the second load; perhaps already notified. -/
  | recheck (notified : Bool)
  /-- At `resumed.await`. -/
  | waiting (notified : Bool)
  /-- Before it adds itself to `active`. -/
  | add
  /-- Counted, before the last load. -/
  | confirm
  /-- Counted, before it takes itself out again. -/
  | undo
  /-- It was the last one out, before it notifies; it is still in `enter`. -/
  | undoNotify
  | holding
  /-- It dropped its permit as the last one out, before it notifies. -/
  | dropNotify
deriving DecidableEq, Repr

/-- Where the task that pauses is. -/
inductive PauserPhase where
  /-- Outside. -/
  | idle
  /-- The flag is set; before it registers. -/
  | register
  /-- Registered, before the load of `active`; perhaps already notified. -/
  | load (notified : Bool)
  /-- At `drained.await`. -/
  | waiting (notified : Bool)
  /-- `request_pause` has returned. -/
  | paused
  /-- The flag is cleared, by `resume` or by the guard; before it notifies. -/
  | resumeNotify
deriving DecidableEq, Repr

/-- A notification reaches a task that is registered. -/
def TaskPhase.notify : TaskPhase → TaskPhase
  | recheck _ => recheck true
  | waiting _ => waiting true
  | phase => phase

/-- A notification reaches the pauser if it is registered. -/
def PauserPhase.notify : PauserPhase → PauserPhase
  | load _ => load true
  | waiting _ => waiting true
  | phase => phase

/-- The gate with its tasks. -/
structure AccessGate (ι : Type) where
  paused : Bool := false
  active : ℕ := 0
  tasks : ι → TaskPhase := fun _ ↦ .idle
  pauser : PauserPhase := .idle

/-- What can happen. -/
inductive GateAction (ι : Type) where
  | enter (i : ι)
  | task (i : ι)
  | drop (i : ι)
  | requestPause
  /-- The pauser takes its next step. -/
  | pauser
  /-- The pauser is cancelled while it waits. -/
  | cancel
  | resume
deriving DecidableEq, Repr

namespace AccessGate

variable {ι : Type}

def notifyWaiters (g : AccessGate ι) : AccessGate ι :=
  { g with tasks := fun i ↦ (g.tasks i).notify, pauser := g.pauser.notify }

variable [DecidableEq ι]

/-- Move a task. -/
def setTask (g : AccessGate ι) (i : ι) (phase : TaskPhase) : AccessGate ι :=
  { g with tasks := Function.update g.tasks i phase }

/-- `active.fetch_sub(1)`, with the phase that follows if it returns one, and if it does not. -/
def fetchSub (g : AccessGate ι) (i : ι) (last other : TaskPhase) : AccessGate ι :=
  { g.setTask i (if g.active = 1 then last else other) with active := g.active - 1 }

/-- The next step of a task. -/
def taskStep (g : AccessGate ι) (i : ι) : AccessGate ι :=
  match g.tasks i with
  | .check => g.setTask i (if g.paused then .register else .add)
  | .register => g.setTask i (.recheck false)
  | .recheck notified => g.setTask i (if g.paused then .waiting notified else .add)
  | .waiting true => g.setTask i .check
  | .add => { g.setTask i .confirm with active := g.active + 1 }
  | .confirm => g.setTask i (if g.paused then .undo else .holding)
  | .undo => g.fetchSub i .undoNotify .check
  | .undoNotify => g.notifyWaiters.setTask i .check
  | .dropNotify => g.notifyWaiters.setTask i .idle
  | .idle | .waiting false | .holding => g

/-- The next step of the pauser. -/
def pauserStep (g : AccessGate ι) : AccessGate ι :=
  match g.pauser with
  | .register => { g with pauser := .load false }
  | .load notified => { g with pauser := if g.active = 0 then .paused else .waiting notified }
  | .waiting true => { g with pauser := .register }
  | .resumeNotify => { g.notifyWaiters with pauser := .idle }
  | .idle | .waiting false | .paused => g

/-- One step. -/
def step (g : AccessGate ι) : GateAction ι → AccessGate ι
  | .enter i => if g.tasks i = .idle then g.setTask i .check else g
  | .task i => g.taskStep i
  | .drop i => if g.tasks i = .holding then g.fetchSub i .dropNotify .idle else g
  | .requestPause =>
    if g.pauser = .idle then { g with paused := true, pauser := .register } else g
  | .pauser => g.pauserStep
  | .cancel =>
    match g.pauser with
    | .waiting _ => { g with paused := false, pauser := .resumeNotify }
    | _ => g
  | .resume =>
    if g.pauser = .paused then { g with paused := false, pauser := .resumeNotify } else g

end AccessGate

end Kiwi.Runtime
