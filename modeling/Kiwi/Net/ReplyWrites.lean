import Kiwi.Net.Connection

/-!
# Replies on the stream

`process_command_batch` hands every encoded reply to `Client::write`, which writes to the stream
once. A stream may accept less than it is offered and says how much it took.
-/

namespace Kiwi.Net

variable {St : Type}

/-- A stream, by the number of bytes it accepts of what a write offers. -/
structure Stream where
  /-- The number of accepted bytes, by the number of the write and the bytes offered. -/
  accepts : ℕ → Bytes → ℕ
  /-- Something is accepted of what is not empty. -/
  pos : ∀ n {data}, data ≠ [] → 0 < accepts n data
  le : ∀ n data, accepts n data ≤ data.length

/-- What a stream has seen. -/
structure Output where
  accepted : Bytes
  writes : ℕ

/-- A stream before its first write. -/
def Output.new : Output := ⟨[], 0⟩

/-- `Client::write`, which is one `write` of the stream: the number of bytes that were accepted. -/
def clientWrite (stream : Stream) (out : Output) (data : Bytes) : ℕ × Output :=
  let n := stream.accepts out.writes data
  (n, ⟨out.accepted ++ data.take n, out.writes + 1⟩)

variable (server : Server St) (stream : Stream)

/-- One command of `process_command_batch` with the write of its reply. What the write returns is
logged and not looked at. -/
def serveTo (state : Session St × Output) (command : ParsedCommand) : Session St × Output :=
  let (reply, client, storage) := processCommand server command state.1.client state.1.storage
  let encodedResponse := server.encode client.version reply
  let (_, out) := clientWrite stream state.2 encodedResponse
  (⟨client, storage, state.1.served ++ [⟨command, encodedResponse, storage⟩]⟩, out)

/-- `process_command_batch` on a stream, without cancellation and write errors. -/
def processCommandBatchTo (commands : List ParsedCommand) (session : Session St) (out : Output) :
    Session St × Output :=
  commands.foldl (serveTo server stream) (session, out)

end Kiwi.Net
