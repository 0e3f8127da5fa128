import Mathlib.Data.List.Basic
import Mathlib.Data.Nat.Notation

/-!
# The storage client and the storage server

`StorageClient` (`common/runtime/message.rs`) sends the commands of the network runtime to the
storage runtime over a channel, and `StorageServer` (`common/runtime/storage_server.rs`) executes
them. A call of `send_request` is routed by the state of the recovery manager: to the retry loop
behind the circuit breaker, to the retry loop for degraded storage, or to one recovery attempt that
is followed by queueing. Queued requests are sent by `process_queued_requests`, which every success
in the first loop spawns.

The client is one state (`Client`) with a phase for every call, and `Client.step` is one step of a
call, of a replay task, of the server or of the clock; a run interleaves them in any order. Times
are in milliseconds. How long a retry is delayed is left to the run, and so is whether a request can
be put into the channel, when the server executes it, and whether it answers or drops the response
channel.
-/

namespace Kiwi.Runtime

/-! ### Circuit breaker -/

inductive CircuitBreakerState where
  | closed
  | opened
  | halfOpen
deriving DecidableEq

structure CircuitBreaker where
  failureThreshold : ℕ := 5
  recoveryTimeout : ℕ := 30000
  state : CircuitBreakerState := .closed
  failureCount : ℕ := 0
  openedAt : Option ℕ := none

namespace CircuitBreaker

def shouldAllowRequest (b : CircuitBreaker) (now : ℕ) : Bool × CircuitBreaker :=
  match b.state, b.openedAt with
  | .closed, _ | .halfOpen, _ => (true, b)
  | .opened, some openedAt =>
    if b.recoveryTimeout ≤ now - openedAt then (true, { b with state := .halfOpen })
    else (false, b)
  | .opened, none => (false, b)

def recordSuccess (b : CircuitBreaker) : CircuitBreaker :=
  { b with failureCount := 0, state := .closed, openedAt := none }

def recordFailure (b : CircuitBreaker) (now : ℕ) : CircuitBreaker :=
  let b := { b with failureCount := b.failureCount + 1 }
  if b.failureThreshold ≤ b.failureCount then { b with state := .opened, openedAt := some now }
  else b

end CircuitBreaker

/-! ### Recovery manager -/

inductive RecoveryState where
  | healthy
  | degraded
  | unavailable
  | recovering
deriving DecidableEq

/-- `RecoveryManager`, with the fields of its configuration that are read. -/
structure RecoveryManager where
  state : RecoveryState := .healthy
  lastSuccess : Option ℕ := none
  consecutiveFailures : ℕ := 0
  /-- `recovery_config.failure_threshold`. -/
  failureThreshold : ℕ := 5
  /-- `recovery_config.recovery_delay`. -/
  recoveryDelay : ℕ := 10000

namespace RecoveryManager

def recordSuccess (m : RecoveryManager) (now : ℕ) : RecoveryManager :=
  let m := { m with lastSuccess := some now }
  match m.state with
  | .recovering => if m.consecutiveFailures = 0 then { m with state := .healthy } else m
  | .degraded | .unavailable => { m with state := .recovering, consecutiveFailures := 0 }
  | .healthy => { m with consecutiveFailures := 0 }

def recordFailure (m : RecoveryManager) : RecoveryManager :=
  let m := { m with consecutiveFailures := m.consecutiveFailures + 1 }
  match m.state with
  | .healthy =>
    if m.failureThreshold / 2 ≤ m.consecutiveFailures then { m with state := .degraded } else m
  | .degraded =>
    if m.failureThreshold ≤ m.consecutiveFailures then { m with state := .unavailable } else m
  | .recovering => { m with state := .unavailable }
  | .unavailable => m

def shouldAttemptRecovery (m : RecoveryManager) (now : ℕ) : Bool :=
  match m.state, m.lastSuccess with
  | .unavailable, some lastSuccess => m.recoveryDelay ≤ now - lastSuccess
  | .unavailable, none => true
  | _, _ => false

end RecoveryManager

/-! ### Errors, requests and the queue -/

/-- The errors of `DualRuntimeError` that the client returns. -/
inductive DualRuntimeError where
  | channel (message : String)
  | timeout (timeout : ℕ)
  | storage (message : String)
deriving DecidableEq

inductive RequestPriority where
  | low
  | normal
  | high
  | critical
deriving DecidableEq

/-- `QueuedRequest`. The command is represented by the call that it comes from. The receiver of its
response channel is dropped when it is queued. -/
structure QueuedRequest where
  call : ℕ
  /-- `request.timeout`. -/
  timeout : ℕ
  /-- `request.priority`. -/
  priority : RequestPriority
  queuedAt : ℕ

structure RequestQueue where
  queue : List QueuedRequest := []
  maxSize : ℕ := 1000
  maxQueueTime : ℕ := 60000

namespace RequestQueue

def removeExpired (q : RequestQueue) (now : ℕ) : RequestQueue :=
  { q with queue := q.queue.filter fun r ↦ now - r.queuedAt < q.maxQueueTime }

def enqueue (q : RequestQueue) (request : QueuedRequest) (now : ℕ) :
    Except DualRuntimeError Unit × RequestQueue :=
  let q := q.removeExpired now
  if q.maxSize ≤ q.queue.length then (.error (.channel "Request queue is full"), q)
  else (.ok (), { q with queue := q.queue ++ [request] })

def dequeue (q : RequestQueue) (now : ℕ) : Option QueuedRequest × RequestQueue :=
  let q := q.removeExpired now
  (q.queue.head?, { q with queue := q.queue.tail })

end RequestQueue

/-! ### Calls -/

variable {R : Type}

/-- The three places that call `try_send_request` for a call. -/
inductive Mode where
  /-- The loop of `send_request_with_priority`. -/
  | normal
  /-- The loop of `handle_degraded_storage`. -/
  | degraded
  /-- `try_recovery_request`. -/
  | recovery
deriving DecidableEq

/-- Where a call is. -/
inductive Phase (R : Type) where
  /-- Before the recovery state is read. -/
  | starting
  /-- Before the circuit breaker is asked. -/
  | checking
  /-- In `handle_storage_unavailable`, before recovery is considered. -/
  | unavailable
  /-- Before an attempt; in the first loop with the last error. -/
  | trying (mode : Mode) (attempt : ℕ) (lastError : Option DualRuntimeError)
  /-- In `try_send_request`, before the request is in the channel. -/
  | sending (mode : Mode) (attempt timeout : ℕ)
  /-- In `try_send_request`, waiting for the response. -/
  | waiting (mode : Mode) (attempt request timeout deadline : ℕ)
  /-- Before `queue_request_for_later`. -/
  | queueing
  | done (result : Except DualRuntimeError R)

/-- A call of `send_request_with_priority`. -/
structure Call (R : Type) where
  timeout : ℕ
  priority : RequestPriority
  startTime : ℕ
  phase : Phase R := .starting

/-- The response channel of a request. -/
inductive Response (R : Type) where
  | pending
  | sent (result : Except String R)
  | closed

/-- A request that was put into the channel. -/
structure Request (R : Type) where
  /-- The call whose command it carries. -/
  call : ℕ
  /-- Whether `process_queued_requests` sent it. -/
  replayed : Bool
  /-- Whether the server has executed the command. -/
  executed : Bool := false
  response : Response R := .pending

/-- The state of a client, with the channel and the requests that the server has got. Calls and
requests are referred to by their position. -/
structure Client (R : Type) where
  /-- `retry_config.max_retries`. -/
  maxRetries : ℕ := 3
  now : ℕ := 0
  circuitBreaker : CircuitBreaker := {}
  recoveryManager : RecoveryManager := {}
  requestQueue : RequestQueue := {}
  calls : List (Call R) := []
  requests : List (Request R) := []
  /-- The tasks that `process_queued_requests` runs in, with the number that each has processed. -/
  tasks : List ℕ := []

namespace Client

/-- Move a call to another phase. -/
def setPhase (s : Client R) (c : ℕ) (phase : Phase R) : Client R :=
  { s with calls := s.calls.modify c fun call ↦ { call with phase } }

/-- Put a request into the channel. -/
def send (s : Client R) (call : ℕ) (replayed : Bool) : Client R :=
  { s with requests := s.requests ++ [⟨call, replayed, false, .pending⟩] }

/-- The number of retries in degraded mode. -/
def degradedRetries (s : Client R) : ℕ :=
  min s.maxRetries 2

/-- The end of the first loop without success. -/
def exhausted (s : Client R) (c : ℕ) (lastError : Option DualRuntimeError) : Client R :=
  { s with circuitBreaker := s.circuitBreaker.recordFailure s.now }.setPhase c
    (.done (.error (lastError.getD (.channel "Request failed after all retry attempts"))))

/-- What follows an attempt that ended in an error. -/
def failed (s : Client R) (c : ℕ) (mode : Mode) (attempt : ℕ) (error : DualRuntimeError) :
    Client R :=
  match mode with
  | .normal =>
    let s := { s with recoveryManager := s.recoveryManager.recordFailure }
    match error with
    | .storage _ => s.exhausted c (some error)
    | _ =>
      if attempt < s.maxRetries then s.setPhase c (.trying .normal (attempt + 1) (some error))
      else s.exhausted c (some error)
  | .degraded =>
    let s := { s with recoveryManager := s.recoveryManager.recordFailure }
    if attempt < s.degradedRetries then
      s.setPhase c (.trying .degraded (attempt + 1) (some error))
    else s.setPhase c (.done (.error error))
  | .recovery => s.setPhase c .queueing

/-- What follows an attempt that was answered. -/
def succeeded (s : Client R) (c : ℕ) (mode : Mode) (data : R) : Client R :=
  let s := { s with recoveryManager := s.recoveryManager.recordSuccess s.now }
  match mode with
  | .normal =>
    { s with
      circuitBreaker := s.circuitBreaker.recordSuccess
      tasks := s.tasks ++ [0] }.setPhase c (.done (.ok data))
  | .degraded | .recovery => s.setPhase c (.done (.ok data))

def queueRequestForLater (s : Client R) (c : ℕ) (call : Call R) : Client R :=
  match s.requestQueue.enqueue ⟨c, call.timeout, call.priority, s.now⟩ s.now with
  | (.error error, requestQueue) =>
    { s with requestQueue }.setPhase c (.done (.error error))
  | (.ok (), requestQueue) =>
    { s with requestQueue }.setPhase c (.done (.error (.channel
      (match call.priority with
      | .critical | .high => "Storage unavailable and high-priority requests cannot be queued"
      | .low | .normal => "Storage unavailable and no fallback available"))))

/-- The next step of a call that waits for nothing. -/
def proceed (s : Client R) (c : ℕ) (call : Call R) : Client R :=
  match call.phase with
  | .starting =>
    match s.recoveryManager.state with
    | .unavailable => s.setPhase c .unavailable
    | .degraded => s.setPhase c (.trying .degraded 0 none)
    | .healthy | .recovering => s.setPhase c .checking
  | .checking =>
    match s.circuitBreaker.shouldAllowRequest s.now with
    | (true, circuitBreaker) => { s with circuitBreaker }.setPhase c (.trying .normal 0 none)
    | (false, circuitBreaker) => { s with circuitBreaker }.setPhase c .queueing
  | .unavailable =>
    if s.recoveryManager.shouldAttemptRecovery s.now then s.setPhase c (.trying .recovery 0 none)
    else s.setPhase c .queueing
  | .trying .normal attempt lastError =>
    if call.timeout ≤ s.now - call.startTime then s.exhausted c lastError
    else s.setPhase c (.sending .normal attempt (call.timeout - (s.now - call.startTime)))
  | .trying .degraded attempt _ =>
    s.setPhase c (.sending .degraded attempt (min call.timeout 10000))
  | .trying .recovery attempt _ =>
    s.setPhase c (.sending .recovery attempt (min call.timeout 5000))
  | .queueing => s.queueRequestForLater c call
  | .sending .. | .waiting .. | .done _ => s

/-- One request of `process_queued_requests`. -/
def replay (s : Client R) (task : ℕ) (isSent : Bool) : Client R :=
  match s.tasks[task]? with
  | none => s
  | some processed =>
    if 10 ≤ processed then s
    else
      match s.requestQueue.dequeue s.now with
      | (none, requestQueue) => { s with requestQueue, tasks := s.tasks.set task 10 }
      | (some queued, requestQueue) =>
        if 100 < queued.timeout - (s.now - queued.queuedAt) then
          let s := { s with requestQueue, tasks := s.tasks.set task (processed + 1) }
          if isSent then s.send queued.call true else s
        else { s with requestQueue }

end Client

/-! ### Steps -/

/-- The steps of calls, replay tasks, the server and the clock. -/
inductive ClientAction (R : Type) where
  /-- `send_request_with_priority` is called. -/
  | sendRequest (timeout : ℕ) (priority : RequestPriority)
  /-- A call that waits for nothing goes on. -/
  | proceed (call : ℕ)
  /-- The request of a call is put into the channel. -/
  | sent (call : ℕ)
  /-- The request of a call cannot be put into the channel. -/
  | sendFailed (call : ℕ) (message : String)
  /-- A call receives its response, or the end of the response channel. -/
  | receive (call : ℕ)
  /-- A call stops waiting for its response. -/
  | expire (call : ℕ)
  /-- A task sends the next queued request, or fails to. -/
  | replay (task : ℕ) (isSent : Bool)
  | execute (request : ℕ)
  /-- The server responds to a request that it has executed. -/
  | respond (request : ℕ) (result : Except String R)
  /-- The server drops the response channel of a request. -/
  | drop (request : ℕ)
  | tick (time : ℕ)

namespace Request

/-- `process_single_request` runs the command. -/
def execute (r : Request R) : Request R :=
  match r.response with
  | .pending => { r with executed := true }
  | _ => r

/-- `process_single_request` sends the response. -/
def respond (r : Request R) (result : Except String R) : Request R :=
  match r.executed, r.response with
  | true, .pending => { r with response := .sent result }
  | _, _ => r

/-- The response channel is dropped, before or after the execution. -/
def drop (r : Request R) : Request R :=
  match r.response with
  | .pending => { r with response := .closed }
  | _ => r

end Request

/-- One step. A step that is not possible changes nothing. -/
def Client.step (s : Client R) : ClientAction R → Client R
  | .sendRequest timeout priority =>
    { s with calls := s.calls ++ [⟨timeout, priority, s.now, .starting⟩] }
  | .proceed c =>
    match s.calls[c]? with
    | some call => s.proceed c call
    | none => s
  | .sent c =>
    match s.calls[c]?.map Call.phase with
    | some (.sending mode attempt timeout) =>
      (s.send c false).setPhase c
        (.waiting mode attempt s.requests.length timeout (s.now + timeout))
    | _ => s
  | .sendFailed c message =>
    match s.calls[c]?.map Call.phase with
    | some (.sending mode attempt _) => s.failed c mode attempt (.channel message)
    | _ => s
  | .receive c =>
    match s.calls[c]?.map Call.phase with
    | some (.waiting mode attempt request _ _) =>
      match s.requests[request]?.map Request.response with
      | some (.sent (.ok data)) => s.succeeded c mode data
      | some (.sent (.error message)) => s.failed c mode attempt (.storage message)
      | some .closed => s.failed c mode attempt (.channel "Response channel closed")
      | _ => s
    | _ => s
  | .expire c =>
    match s.calls[c]?.map Call.phase with
    | some (.waiting mode attempt _ timeout deadline) =>
      if deadline ≤ s.now then s.failed c mode attempt (.timeout timeout) else s
    | _ => s
  | .replay task isSent => s.replay task isSent
  | .execute request => { s with requests := s.requests.modify request Request.execute }
  | .respond request result =>
    { s with requests := s.requests.modify request fun r ↦ r.respond result }
  | .drop request => { s with requests := s.requests.modify request Request.drop }
  | .tick time => { s with now := s.now + time }

/-- How often the server has executed the command of a call. -/
def Client.executions (s : Client R) (c : ℕ) : ℕ :=
  s.requests.countP fun r ↦ r.call = c ∧ r.executed = true

end Kiwi.Runtime
