import Kiwi.Runtime.StorageClient
import Kiwi.Lib.Run

/-!
# At most one execution of a call

The loops of the client send a command again when the response channel of an attempt was closed,
and in degraded mode after any error; by then the server may have executed the command. Queued
requests are sent although their call has been answered with an error. So a command may be executed
twice, and a call that was answered with "Storage unavailable" may be executed later
(`executed_twice_or_after_unavailable`).

`executed_at_most_once` is what holds, for every client state and every interleaving: if an attempt
whose request was sent ends in an error only where no other attempt follows, and no queued request
is replayed while it lives (`Certain`), then every call is executed at most once, and one that was
answered as unavailable without an attempt is not executed. In the first loop an attempt that times
out needs no such care: by then the time of the whole call is over, since the deadline of an attempt
is not before the end of the call (`PhaseOk`).
-/

namespace Kiwi.Runtime

variable {R : Type}

/-! ### The condition -/

/-- No attempt follows this one. -/
def LastAttempt (s : Client R) (call : Call R) : Mode → ℕ → Prop
  | .normal, attempt => s.maxRetries ≤ attempt ∨ call.startTime + call.timeout ≤ s.now
  | .degraded, attempt => s.degradedRetries ≤ attempt
  | .recovery, _ => True

instance (s : Client R) (call : Call R) :
    ∀ mode attempt, Decidable (LastAttempt s call mode attempt)
  | .normal, attempt =>
    inferInstanceAs (Decidable (s.maxRetries ≤ attempt ∨ call.startTime + call.timeout ≤ s.now))
  | .degraded, attempt => inferInstanceAs (Decidable (s.degradedRetries ≤ attempt))
  | .recovery, _ => inferInstanceAs (Decidable True)

/-- A response after which the client may be sure. -/
def SureResponse (s : Client R) (call : Call R) (mode : Mode) (attempt : ℕ) : Response R → Prop
  | .pending | .sent (.ok _) => True
  | .sent (.error _) => mode = .degraded → LastAttempt s call mode attempt
  | .closed => LastAttempt s call mode attempt

instance (s : Client R) (call : Call R) (mode : Mode) (attempt : ℕ) :
    ∀ response, Decidable (SureResponse s call mode attempt response)
  | .pending | .sent (.ok _) => inferInstanceAs (Decidable True)
  | .sent (.error _) =>
    inferInstanceAs (Decidable (mode = .degraded → LastAttempt s call mode attempt))
  | .closed => inferInstanceAs (Decidable (LastAttempt s call mode attempt))

/-- What a call in a phase may receive. -/
def SureReceive (s : Client R) (call : Call R) : Phase R → Prop
  | .waiting mode attempt request _ _ =>
    ∀ r ∈ s.requests[request]?.toList, SureResponse s call mode attempt r.response
  | .starting | .checking | .unavailable | .trying .. | .sending .. | .queueing | .done _ => True

instance (s : Client R) (call : Call R) : ∀ phase, Decidable (SureReceive s call phase)
  | .waiting mode attempt request _ _ => inferInstanceAs (Decidable
      (∀ r ∈ s.requests[request]?.toList, SureResponse s call mode attempt r.response))
  | .starting | .checking | .unavailable | .trying .. | .sending .. | .queueing | .done _ =>
    inferInstanceAs (Decidable True)

/-- Which calls may time out. -/
def SureExpire (s : Client R) (call : Call R) : Phase R → Prop
  | .waiting mode attempt _ _ _ => mode = .degraded → LastAttempt s call mode attempt
  | .starting | .checking | .unavailable | .trying .. | .sending .. | .queueing | .done _ => True

instance (s : Client R) (call : Call R) : ∀ phase, Decidable (SureExpire s call phase)
  | .waiting mode attempt _ _ _ =>
    inferInstanceAs (Decidable (mode = .degraded → LastAttempt s call mode attempt))
  | .starting | .checking | .unavailable | .trying .. | .sending .. | .queueing | .done _ =>
    inferInstanceAs (Decidable True)

/-- What the server and the queue would have to grant: an attempt whose request was sent fails only
if no other attempt follows, and a queued request is taken from the queue only when it is over. -/
def Certain (s : Client R) : ClientAction R → Prop
  | .receive c => ∀ call ∈ s.calls[c]?.toList, SureReceive s call call.phase
  | .expire c => ∀ call ∈ s.calls[c]?.toList, SureExpire s call call.phase
  | .replay _ _ =>
    ∀ queued ∈ (s.requestQueue.dequeue s.now).1.toList,
      queued.timeout - (s.now - queued.queuedAt) ≤ 100
  | .sendRequest .. | .proceed _ | .sent _ | .sendFailed .. | .execute _ | .respond .. | .drop _
  | .tick _ => True

instance (s : Client R) : ∀ action, Decidable (Certain s action)
  | .receive c =>
    inferInstanceAs (Decidable (∀ call ∈ s.calls[c]?.toList, SureReceive s call call.phase))
  | .expire c =>
    inferInstanceAs (Decidable (∀ call ∈ s.calls[c]?.toList, SureExpire s call call.phase))
  | .replay _ _ =>
    inferInstanceAs (Decidable (∀ queued ∈ (s.requestQueue.dequeue s.now).1.toList,
      queued.timeout - (s.now - queued.queuedAt) ≤ 100))
  | .sendRequest .. | .proceed _ | .sent _ | .sendFailed .. | .execute _ | .respond .. | .drop _
  | .tick _ => inferInstanceAs (Decidable True)

/-! ### The invariant -/

/-- How many requests of a call were sent. -/
def sends (requests : List (Request R)) (c : ℕ) : ℕ :=
  requests.countP fun r ↦ r.call = c

/-- When the time of a call is over. -/
def Call.limit (call : Call R) : ℕ :=
  call.startTime + call.timeout

/-- What holds in a phase of a call, given how many of its requests were sent and when its time is
over. -/
def PhaseOk (now sends limit : ℕ) : Phase R → Prop
  | .starting | .checking | .unavailable => sends = 0
  | .trying .normal _ _ => sends = 0 ∨ sends ≤ 1 ∧ limit ≤ now
  | .trying .degraded _ _ | .trying .recovery _ _ => sends = 0
  | .sending .normal _ timeout => sends = 0 ∧ limit ≤ now + timeout
  | .sending .degraded _ _ | .sending .recovery _ _ => sends = 0
  | .waiting .normal _ _ _ deadline => sends ≤ 1 ∧ limit ≤ deadline
  | .waiting .degraded _ _ _ _ | .waiting .recovery _ _ _ _ | .queueing | .done _ => sends ≤ 1

/-- What holds between any two steps. -/
structure Once (now : ℕ) (calls : List (Call R)) (requests : List (Request R)) : Prop where
  /-- Requests belong to calls, and none is replayed. -/
  ofCalls : ∀ r ∈ requests, r.call < calls.length ∧ r.replayed = false
  started : ∀ (c : ℕ) (call : Call R), calls[c]? = some call → call.startTime ≤ now
  phases : ∀ c call, calls[c]? = some call →
    PhaseOk now (sends requests c) call.limit call.phase

section Once

variable {now now' n limit c : ℕ} {phase : Phase R} {calls : List (Call R)} {call : Call R}
  {requests requests' : List (Request R)}

theorem PhaseOk.le_one (h : PhaseOk now n limit phase) : n ≤ 1 := by
  unfold PhaseOk at h
  split at h <;> omega

theorem PhaseOk.mono (h : PhaseOk now n limit phase) (hnow : now ≤ now') :
    PhaseOk now' n limit phase := by
  unfold PhaseOk at h ⊢
  split at h <;> first | exact h | omega

theorem Once.tick (h : Once now calls requests) (time : ℕ) : Once (now + time) calls requests where
  ofCalls := h.ofCalls
  started c call hc := Nat.le_add_right_of_le (h.started c call hc)
  phases c call hc := (h.phases c call hc).mono (Nat.le_add_right ..)

theorem getElem?_setPhase (hc : calls[c]? = some call) {c' : ℕ} {call' : Call R}
    (hc' : (calls.modify c fun call ↦ { call with phase })[c']? = some call') :
    c' = c ∧ call' = { call with phase } ∨ c' ≠ c ∧ calls[c']? = some call' := by
  rcases eq_or_ne c' c with rfl | hne
  · rw [List.getElem?_modify_eq, hc] at hc'
    exact Or.inl ⟨rfl, (Option.some.inj hc').symm⟩
  · rw [List.getElem?_modify_ne _ _ hne.symm] at hc'
    exact Or.inr ⟨hne, hc'⟩

section

variable (h : Once now calls requests) (hc : calls[c]? = some call)

include h hc

theorem Once.started_setPhase (c' : ℕ) (call' : Call R)
    (hc' : (calls.modify c fun call ↦ { call with phase })[c']? = some call') :
    call'.startTime ≤ now := by
  rcases getElem?_setPhase hc hc' with ⟨-, rfl⟩ | ⟨-, hc'⟩
  · exact h.started c call hc
  · exact h.started c' call' hc'

theorem Once.setPhase (hphase : PhaseOk now (sends requests c) call.limit phase) :
    Once now (calls.modify c fun call ↦ { call with phase }) requests where
  ofCalls := by
    rw [List.length_modify]
    exact h.ofCalls
  started := h.started_setPhase hc
  phases c' call' hc' := by
    rcases getElem?_setPhase hc hc' with ⟨rfl, rfl⟩ | ⟨-, hc'⟩
    · exact hphase
    · exact h.phases c' call' hc'

theorem Once.send (hphase : PhaseOk now (sends requests c + 1) call.limit phase) :
    Once now (calls.modify c fun call ↦ { call with phase })
      (requests ++ [⟨c, false, false, .pending⟩]) where
  ofCalls r hr := by
    rw [List.length_modify]
    rcases List.mem_append.1 hr with hr | hr
    · exact h.ofCalls r hr
    · obtain rfl := List.mem_singleton.1 hr
      exact ⟨(List.getElem?_eq_some_iff.1 hc).1, rfl⟩
  started := h.started_setPhase hc
  phases c' call' hc' := by
    rcases getElem?_setPhase hc hc' with ⟨rfl, rfl⟩ | ⟨hne, hc'⟩
    · have hsends : sends (requests ++ [⟨c', false, false, .pending⟩]) c' =
          sends requests c' + 1 := by
        simp [sends]
      rw [hsends]
      exact hphase
    · have hsends : sends (requests ++ [⟨c, false, false, .pending⟩]) c' = sends requests c' := by
        simp [sends, hne.symm]
      rw [hsends]
      exact h.phases c' call' hc'

end

/-- A call starts: none of its requests can have been sent. -/
theorem Once.start (h : Once now calls requests) (timeout : ℕ) (priority : RequestPriority) :
    Once now (calls ++ [⟨timeout, priority, now, .starting⟩]) requests where
  ofCalls r hr := by
    obtain ⟨hlt, hr⟩ := h.ofCalls r hr
    exact ⟨by rw [List.length_append]; exact Nat.lt_add_right _ hlt, hr⟩
  started c call hc := by
    rcases List.mem_append.1 (List.mem_of_getElem? hc) with hmem | hmem
    · obtain ⟨c', hc'⟩ := List.mem_iff_getElem?.1 hmem
      exact h.started c' call hc'
    · obtain rfl := List.mem_singleton.1 hmem
      exact Nat.le_refl _
  phases c call hc := by
    rcases Nat.lt_trichotomy c calls.length with hlt | rfl | hgt
    · rw [List.getElem?_append_left hlt] at hc
      exact h.phases c call hc
    · rw [List.getElem?_concat_length] at hc
      obtain rfl := Option.some.inj hc
      refine List.countP_eq_zero.2 fun r hr hcall ↦ ?_
      exact Nat.ne_of_lt (h.ofCalls r hr).1 (of_decide_eq_true hcall)
    · rw [List.getElem?_eq_none (by rw [List.length_append]; exact hgt)] at hc
      cases hc

theorem map_modify_eq {α β : Type} {f : α → α} {g : α → β} (hg : ∀ x, g (f x) = g x) (l : List α)
    (i : ℕ) : (l.modify i f).map g = l.map g := by
  refine List.ext_getElem? fun j ↦ ?_
  rw [List.getElem?_map, List.getElem?_map, List.getElem?_modify]
  rcases l[j]? with _ | x
  · rfl
  · refine congrArg some ?_
    dsimp only
    split_ifs
    · exact hg x
    · rfl

theorem Once.modify (h : Once now calls requests) (i : ℕ) {f : Request R → Request R}
    (hf : ∀ r, ((f r).call, (f r).replayed) = (r.call, r.replayed)) :
    Once now calls (requests.modify i f) where
  ofCalls r hr := by
    have hmem := List.mem_map_of_mem (f := fun r : Request R ↦ (r.call, r.replayed)) hr
    rw [map_modify_eq hf] at hmem
    obtain ⟨r', hr', htag⟩ := List.mem_map.1 hmem
    obtain ⟨hcall, hreplayed⟩ := Prod.mk.inj htag
    rw [← hcall, ← hreplayed]
    exact h.ofCalls r' hr'
  started := h.started
  phases c call hc := by
    have hcount (l : List (Request R)) :
        sends l c = (l.map Request.call).countP fun c' ↦ c' = c := by
      rw [List.countP_map]
      rfl
    rw [hcount, map_modify_eq (fun r ↦ (Prod.mk.inj (hf r)).1), ← hcount]
    exact h.phases c call hc

end Once

/-! ### Steps -/

/-- The calls of a client are in order. -/
def InOrder (s : Client R) : Prop :=
  Once s.now s.calls s.requests

section Step

variable {s : Client R} {c : ℕ} {call : Call R}

section

variable (h : InOrder s) (hc : s.calls[c]? = some call)

include h hc

theorem InOrder.le_one : sends s.requests c ≤ 1 :=
  (h.phases c call hc).le_one

theorem inOrder_exhausted (lastError : Option DualRuntimeError) :
    InOrder (s.exhausted c lastError) :=
  Once.setPhase h hc (h.le_one hc)

/-- An attempt fails: if its request was sent, then no other may follow. -/
theorem inOrder_failed {mode : Mode} {attempt : ℕ} {error : DualRuntimeError}
    (hlast : sends s.requests c = 0 ∨ LastAttempt s call mode attempt ∨
      mode = .normal ∧ ∃ message, error = .storage message) :
    InOrder (s.failed c mode attempt error) := by
  have hle := h.le_one hc
  cases mode with
  | normal =>
    unfold Client.failed
    dsimp only
    split
    · exact Once.setPhase h hc hle
    · rename_i hstorage
      split_ifs with hlt
      · refine Once.setPhase h hc ?_
        rcases hlast with hzero | (hmax | hover) | ⟨-, message, rfl⟩
        · exact Or.inl hzero
        · exact absurd hlt (Nat.not_lt.2 hmax)
        · exact Or.inr ⟨hle, hover⟩
        · exact absurd rfl (hstorage message)
      · exact Once.setPhase h hc hle
  | degraded =>
    unfold Client.failed
    dsimp only
    split_ifs with hlt
    · refine Once.setPhase h hc ?_
      rcases hlast with hzero | hmax | ⟨hmode, -⟩
      · exact hzero
      · exact absurd hlt (Nat.not_lt.2 hmax)
      · cases hmode
    · exact Once.setPhase h hc hle
  | recovery => exact Once.setPhase h hc hle

theorem inOrder_succeeded (mode : Mode) (data : R) : InOrder (s.succeeded c mode data) := by
  cases mode <;> exact Once.setPhase h hc (h.le_one hc)

theorem inOrder_queueRequestForLater : InOrder (s.queueRequestForLater c call) := by
  unfold Client.queueRequestForLater
  split <;> exact Once.setPhase h hc (h.le_one hc)

theorem inOrder_proceed : InOrder (s.proceed c call) := by
  have hok := h.phases c call hc
  unfold Client.proceed
  split
  case h_1 hphase =>
    rw [hphase] at hok
    have hzero : sends s.requests c = 0 := hok
    split <;> exact Once.setPhase h hc hzero
  case h_2 hphase =>
    rw [hphase] at hok
    split
    · exact Once.setPhase h hc (Or.inl hok)
    · exact Once.setPhase h hc (h.le_one hc)
  case h_3 hphase =>
    rw [hphase] at hok
    split_ifs
    · exact Once.setPhase h hc hok
    · exact Once.setPhase h hc (h.le_one hc)
  case h_4 attempt lastError hphase =>
    rw [hphase] at hok
    split_ifs with hover
    · exact inOrder_exhausted h hc lastError
    · -- the time of the call is not over, so nothing was sent
      have hstarted := h.started c call hc
      have hzero : sends s.requests c = 0 := by
        rcases hok with hzero | ⟨-, hlimit⟩
        · exact hzero
        · have hlimit' : call.startTime + call.timeout ≤ s.now := hlimit
          omega
      have hnow : call.startTime + call.timeout ≤
          s.now + (call.timeout - (s.now - call.startTime)) := by omega
      exact Once.setPhase h hc ⟨hzero, hnow⟩
  case h_5 hphase | h_6 hphase =>
    rw [hphase] at hok
    exact Once.setPhase h hc hok
  case h_7 hphase => exact inOrder_queueRequestForLater h hc
  all_goals exact h

end

section

variable (h : InOrder s)

include h

theorem inOrder_sent (c : ℕ) : InOrder (s.step (.sent c)) := by
  unfold Client.step
  dsimp only
  split
  · rename_i mode attempt timeout hphase
    obtain ⟨call, hc, hphase⟩ := Option.map_eq_some_iff.1 hphase
    have hok := h.phases c call hc
    rw [hphase] at hok
    refine Once.send h hc ?_
    cases mode with
    | normal => exact ⟨Nat.succ_le_succ (Nat.le_zero.2 hok.1), hok.2⟩
    | degraded | recovery => exact Nat.succ_le_succ (Nat.le_zero.2 hok)
  · exact h

theorem inOrder_sendFailed (c : ℕ) (message : String) :
    InOrder (s.step (.sendFailed c message)) := by
  unfold Client.step
  dsimp only
  split
  · rename_i mode attempt timeout hphase
    obtain ⟨call, hc, hphase⟩ := Option.map_eq_some_iff.1 hphase
    have hok := h.phases c call hc
    rw [hphase] at hok
    refine inOrder_failed h hc (Or.inl ?_)
    cases mode with
    | normal => exact hok.1
    | degraded | recovery => exact hok
  · exact h

theorem inOrder_receive (hcertain : Certain s (.receive c)) : InOrder (s.step (.receive c)) := by
  unfold Client.step
  dsimp only
  split
  · rename_i mode attempt request timeout deadline hphase
    obtain ⟨call, hc, hphase⟩ := Option.map_eq_some_iff.1 hphase
    have hsure := hcertain call (Option.mem_toList.2 hc)
    rw [hphase] at hsure
    split
    · exact inOrder_succeeded h hc mode _
    · rename_i message hresponse
      obtain ⟨r, hr, hresponse⟩ := Option.map_eq_some_iff.1 hresponse
      have hlast := hsure r (Option.mem_toList.2 hr)
      rw [hresponse] at hlast
      refine inOrder_failed h hc (Or.inr ?_)
      cases mode with
      | normal => exact Or.inr ⟨rfl, message, rfl⟩
      | degraded => exact Or.inl (hlast rfl)
      | recovery => exact Or.inl trivial
    · rename_i hresponse
      obtain ⟨r, hr, hresponse⟩ := Option.map_eq_some_iff.1 hresponse
      have hlast := hsure r (Option.mem_toList.2 hr)
      rw [hresponse] at hlast
      exact inOrder_failed h hc (Or.inr (Or.inl hlast))
    · exact h
  · exact h

theorem inOrder_expire (hcertain : Certain s (.expire c)) : InOrder (s.step (.expire c)) := by
  unfold Client.step
  dsimp only
  split
  · rename_i mode attempt request timeout deadline hphase
    obtain ⟨call, hc, hphase⟩ := Option.map_eq_some_iff.1 hphase
    have hok := h.phases c call hc
    have hlast := hcertain call (Option.mem_toList.2 hc)
    rw [hphase] at hok hlast
    split_ifs with hover
    · refine inOrder_failed h hc (Or.inr (Or.inl ?_))
      cases mode with
      | normal => exact Or.inr (Nat.le_trans hok.2 hover)
      | degraded => exact hlast rfl
      | recovery => trivial
    · exact h
  · exact h

/-- **One step** keeps the calls in order. -/
theorem inOrder_step {action : ClientAction R} (hcertain : Certain s action) :
    InOrder (s.step action) := by
  cases action with
  | sendRequest timeout priority => exact Once.start h timeout priority
  | proceed c =>
    unfold Client.step
    dsimp only
    split
    · rename_i call hc
      exact inOrder_proceed h hc
    · exact h
  | sent c => exact inOrder_sent h c
  | sendFailed c message => exact inOrder_sendFailed h c message
  | receive c => exact inOrder_receive h hcertain
  | expire c => exact inOrder_expire h hcertain
  | replay task isSent =>
    unfold Client.step Client.replay
    dsimp only
    split
    · exact h
    · split
      · exact h
      · split
        · exact h
        · rename_i queued requestQueue hdequeue
          have hold := hcertain queued (by rw [hdequeue]; exact List.mem_singleton.2 rfl)
          rw [if_neg (Nat.not_lt.2 hold)]
          exact h
  | execute request =>
    refine Once.modify h request fun r ↦ ?_
    unfold Request.execute
    split <;> rfl
  | respond request result =>
    refine Once.modify h request fun r ↦ ?_
    unfold Request.respond
    split <;> rfl
  | drop request =>
    refine Once.modify h request fun r ↦ ?_
    unfold Request.drop
    split <;> rfl
  | tick time => exact Once.tick h time

end

end Step

/-! ### Runs -/

/-- A call that was answered with the error that storage is unavailable. -/
def AnsweredUnavailable (call : Call R) : Prop :=
  match call.phase with
  | .done (.error (.channel message)) =>
    message = "Storage unavailable and high-priority requests cannot be queued" ∨
      message = "Storage unavailable and no fallback available"
  | _ => False

/-- A client before its first call, in any state otherwise. -/
structure Client.Idle (s : Client R) : Prop where
  calls : s.calls = []
  requests : s.requests = []

theorem executions_le_sends (s : Client R) (c : ℕ) : s.executions c ≤ sends s.requests c := by
  refine List.countP_mono_left fun r _ hr ↦ ?_
  exact decide_eq_true (of_decide_eq_true hr).1

theorem sends_eq_zero_of_not_mem {requests : List (Request R)} {c : ℕ}
    (h : ∀ r ∈ requests, r.call ≠ c) : sends requests c = 0 :=
  List.countP_eq_zero.2 fun r hr hcall ↦ h r hr (of_decide_eq_true hcall)

/-- **At most once.** From any idle client, in every run in which attempts whose requests were sent
fail only if they are the last of their call, and no queued request is replayed, every call is
executed at most once, and a call that was answered as unavailable is not executed, unless one of
its attempts was sent. -/
theorem executed_at_most_once (s : Client R) (hidle : s.Idle) (actions : List (ClientAction R))
    (h : Run.Allowed Client.step Certain s actions) :
    (∀ c, (Run.final Client.step s actions).executions c ≤ 1) ∧
    ∀ c call, (Run.final Client.step s actions).calls[c]? = some call → AnsweredUnavailable call →
      (∀ r ∈ (Run.final Client.step s actions).requests, r.call = c → r.replayed = true) →
      (Run.final Client.step s actions).executions c = 0 := by
  have hstart : InOrder s := by
    refine ⟨fun r hr ↦ ?_, fun c call hc ↦ ?_, fun c call hc ↦ ?_⟩
    · rw [hidle.requests] at hr
      cases hr
    · rw [hidle.calls] at hc
      cases hc
    · rw [hidle.calls] at hc
      cases hc
  have horder := Run.invariant (I := InOrder) (fun _ _ hs hok ↦ inOrder_step hs hok) hstart h
  generalize Run.final Client.step s actions = s at horder
  have hzero (c : ℕ) (hnone : ∀ r ∈ s.requests, r.call ≠ c) : s.executions c = 0 :=
    Nat.le_zero.1 (sends_eq_zero_of_not_mem hnone ▸ executions_le_sends s c)
  refine ⟨fun c ↦ ?_, fun c call _ _ hown ↦ hzero c fun r hr hcall ↦ ?_⟩
  · rcases hc : s.calls[c]? with _ | call
    · -- requests belong to calls
      rw [hzero c fun r hr hcall ↦ ?_]
      · exact Nat.zero_le _
      · rw [← hcall, List.getElem?_eq_none_iff] at hc
        exact Nat.not_lt.2 hc (horder.ofCalls r hr).1
    · exact Nat.le_trans (executions_le_sends s c) (horder.le_one hc)
  · have hreplayed := hown r hr hcall
    rw [(horder.ofCalls r hr).2] at hreplayed
    cases hreplayed

/-- A call whose first attempt cannot be sent, and whose second one times out and is executed
later. -/
theorem executed_at_most_once_late :
    (Run.final Client.step ({} : Client Unit)
      [.sendRequest 5000 .normal, .proceed 0, .proceed 0, .proceed 0,
        .sendFailed 0 "Failed to send request to storage runtime", .tick 20, .proceed 0, .sent 0,
        .tick 5000, .expire 0, .proceed 0, .execute 0]).executions 0 = 1 ∧
    ∀ c, (Run.final Client.step ({} : Client Unit)
      [.sendRequest 5000 .normal, .proceed 0, .proceed 0, .proceed 0,
        .sendFailed 0 "Failed to send request to storage runtime", .tick 20, .proceed 0, .sent 0,
        .tick 5000, .expire 0, .proceed 0, .execute 0]).executions c ≤ 1 :=
  ⟨by decide +kernel, (executed_at_most_once ({} : Client Unit) ⟨rfl, rfl⟩
    [.sendRequest 5000 .normal, .proceed 0, .proceed 0, .proceed 0,
      .sendFailed 0 "Failed to send request to storage runtime", .tick 20, .proceed 0, .sent 0,
      .tick 5000, .expire 0, .proceed 0, .execute 0] (by decide +kernel)).1⟩

/-- The response channel is dropped after the execution, and the retry is executed too. In the
second run a call is answered as unavailable without an attempt, and executed when a later call has
succeeded. -/
theorem executed_twice_or_after_unavailable :
    (Run.final Client.step ({} : Client Unit)
      [.sendRequest 5000 .normal, .proceed 0, .proceed 0, .proceed 0, .sent 0, .execute 0, .drop 0,
        .receive 0, .tick 20, .proceed 0, .sent 0, .execute 1]).executions 0 = 2 ∧
    (Run.final Client.step
      ({ recoveryManager := { state := .unavailable, lastSuccess := some 0 } } : Client Unit)
      [.sendRequest 30000 .normal, .proceed 0, .proceed 0, .proceed 0]).calls.map
        (fun call ↦ match call.phase with
          | .done (.error error) => some error
          | _ => none) =
      [some (.channel "Storage unavailable and no fallback available")] ∧
    (Run.final Client.step
      ({ recoveryManager := { state := .unavailable, lastSuccess := some 0 } } : Client Unit)
      [.sendRequest 30000 .normal, .proceed 0, .proceed 0, .proceed 0, .tick 10000,
        .sendRequest 30000 .normal, .proceed 1, .proceed 1, .proceed 1, .sent 1, .execute 0,
        .respond 0 (.ok ()), .receive 1,
        .sendRequest 30000 .normal, .proceed 2, .proceed 2, .proceed 2, .sent 2, .execute 1,
        .respond 1 (.ok ()), .receive 2,
        .replay 0 true, .execute 2]).executions 0 = 1 := by
  decide +kernel

end Kiwi.Runtime
