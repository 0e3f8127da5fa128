import Kiwi.Net.ReplyWrites

/-!
# Whether replies reach the client

What a stream accepts of a batch is the concatenation of the accepted parts of the replies
(`accepted_processCommandBatchTo`), since the loop goes on after a short write as after a whole one.
So the client gets the replies if and only if every write is accepted whole.
-/

namespace Kiwi.Net

open Resp

variable {St : Type} (server : Server St) (stream : Stream)

/-- The encoded reply to a command. -/
def encodedReply (session : Session St) (command : ParsedCommand) : Bytes :=
  let (reply, client, _) := processCommand server command session.client session.storage
  server.encode client.version reply

/-- The encoded replies of a batch. -/
def encodedReplies : List ParsedCommand → Session St → List Bytes
  | [], _ => []
  | command :: commands, session =>
    encodedReply server session command :: encodedReplies commands (serve server session command)

/-- The step lemma: the session goes on as without a stream, and its reply is offered once. -/
theorem serveTo_eq (session : Session St) (out : Output) (command : ParsedCommand) :
    serveTo server stream (session, out) command =
      (serve server session command,
        (clientWrite stream out (encodedReply server session command)).2) := rfl

/-- What a stream accepts of one reply after the other, from the `n`-th write on. -/
def acceptedOf : ℕ → List Bytes → Bytes
  | _, [] => []
  | n, reply :: replies => reply.take (stream.accepts n reply) ++ acceptedOf (n + 1) replies

theorem accepted_processCommandBatchTo (commands : List ParsedCommand) (session : Session St)
    (out : Output) :
    processCommandBatchTo server stream commands session out =
      (commands.foldl (serve server) session,
        ⟨out.accepted ++ acceptedOf stream out.writes (encodedReplies server commands session),
          out.writes + commands.length⟩) := by
  induction commands generalizing session out with
  | nil => simp [processCommandBatchTo, encodedReplies, acceptedOf]
  | cons command commands ih =>
    rw [processCommandBatchTo, List.foldl_cons, serveTo_eq]
    refine (ih (serve server session command) _).trans ?_
    rw [clientWrite, encodedReplies, acceptedOf, List.append_assoc, List.foldl_cons, List.length_cons,
      Nat.add_right_comm]
    rfl

theorem length_acceptedOf_le (n : ℕ) (replies : List Bytes) :
    (acceptedOf stream n replies).length ≤ replies.flatten.length := by
  induction replies generalizing n with
  | nil => exact le_rfl
  | cons reply replies ih =>
    rw [acceptedOf, List.flatten_cons, List.length_append, List.length_append, List.length_take]
    exact Nat.add_le_add (min_le_right _ _) (ih (n + 1))

/-- Nothing is missing if and only if no write was short. -/
theorem acceptedOf_eq_flatten_iff (n : ℕ) (replies : List Bytes) :
    acceptedOf stream n replies = replies.flatten ↔
      ∀ i reply, replies[i]? = some reply → stream.accepts (n + i) reply = reply.length := by
  induction replies generalizing n with
  | nil => simp [acceptedOf]
  | cons reply replies ih =>
    have hrest : (∀ i r, (reply :: replies)[i]? = some r → stream.accepts (n + i) r = r.length) ↔
        stream.accepts n reply = reply.length ∧
          acceptedOf stream (n + 1) replies = replies.flatten := by
      rw [ih]
      constructor
      · refine fun h ↦ ⟨h 0 reply rfl, fun i r hr ↦ ?_⟩
        rw [Nat.add_right_comm]
        exact h (i + 1) r hr
      · rintro ⟨hfirst, hrest⟩ i r hr
        cases i with
        | zero =>
          obtain rfl : reply = r := Option.some.inj hr
          exact hfirst
        | succ i =>
          have h := hrest i r hr
          rwa [Nat.add_right_comm] at h
    rw [hrest, acceptedOf, List.flatten_cons]
    constructor
    · intro h
      have hlength := congrArg List.length h
      have hle := length_acceptedOf_le stream (n + 1) replies
      have haccepts := stream.le n reply
      simp only [List.length_append, List.length_take] at hlength
      have hwhole : stream.accepts n reply = reply.length := by omega
      rw [hwhole, List.take_length] at h
      exact ⟨hwhole, List.append_cancel_left h⟩
    · rintro ⟨hwhole, hrest⟩
      rw [hwhole, List.take_length, hrest]

/-- **Replies reach the client completely** if and only if the stream accepts every one of them
whole in its one write. -/
theorem replies_complete_iff (commands : List ParsedCommand) (session : Session St) :
    (processCommandBatchTo server stream commands session .new).2.accepted =
        (encodedReplies server commands session).flatten ↔
      ∀ i reply, (encodedReplies server commands session)[i]? = some reply →
        stream.accepts i reply = reply.length := by
  rw [accepted_processCommandBatchTo]
  simpa [Output.new] using acceptedOf_eq_flatten_iff stream 0 (encodedReplies server commands session)

/-- A server that answers `PING`. -/
def pongServer : Server PUnit where
  requirepass := none
  lower := id
  upper := id
  isStorageCommand _ := false
  perform _ storage := (.null, storage)
  clientCommand _ name := (.null, name)
  encode _ reply :=
    match reply with
    | .simpleString data => 0x2B :: data ++ [13, 10]
    | _ => []
  limits := .default
  isF64 _ := false

/-- A stream that accepts two bytes at a time. -/
def narrowStream : Stream where
  accepts _ data := min 2 data.length
  pos _ _ h := by
    have := List.length_pos_of_ne_nil h
    omega
  le _ _ := min_le_right _ _

/-- Two replies to `PING` on a stream that accepts two bytes at a time: the client gets `+P` twice.
-/
theorem pong_truncated :
    let ping : ParsedCommand := ⟨text "ping", [text "ping"]⟩
    (processCommandBatchTo pongServer narrowStream [ping, ping] (.new pongServer ⟨⟩)
        .new).2.accepted = text "+P" ++ text "+P" ∧
      encodedReplies pongServer [ping, ping] (.new pongServer ⟨⟩) =
        [text "+PONG\r\n", text "+PONG\r\n"] := by
  decide +kernel

end Kiwi.Net
