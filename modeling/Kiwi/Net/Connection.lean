import Kiwi.Resp.Parse

/-!
# Connections

`process_network_connection_until_cancelled`: a loop over reads. What a read brings is parsed;
commands are collected and executed in batches, when there are ten of them, after a blocking
command, and at the end of the read. Every command of a batch is checked for authentication,
executed, and answered, before the next one. A malformed frame ends the connection at once.

`PING`, `AUTH` and `HELLO` need no authentication; they and `CLIENT` run in the connection. All
other commands go to the storage, and what they do there is a parameter (`Server.perform`), as are
the case mappings of names, the encoding of replies, and which names are storage commands. There is
no cancellation.
-/

namespace Kiwi.Net

open Resp

variable {St : Type}

inductive RespVersion
  | resp2
  | resp3
  deriving DecidableEq

structure ParsedCommand where
  cmdName : Bytes
  /-- The arguments, with the name. -/
  argv : List Bytes
  deriving DecidableEq

/-- What the connection needs of the server. -/
structure Server (St : Type) where
  requirepass : Option Bytes
  /-- `String::from_utf8_lossy` and `to_lowercase`. -/
  lower : Bytes → Bytes
  /-- `to_uppercase`. -/
  upper : Bytes → Bytes
  /-- Whether the command table has a storage command of this name. -/
  isStorageCommand : Bytes → Bool
  /-- A storage command: the checks of `execute_network`, and its execution by the storage. -/
  perform : ParsedCommand → St → RespData × St
  /-- `CLIENT`, which reads or sets the name of the connection. -/
  clientCommand : List Bytes → Bytes → RespData × Bytes
  /-- `RespEncoder`. -/
  encode : RespVersion → RespData → Bytes
  limits : RespLimits
  isF64 : Bytes → Bool

/-- `Client`: what a connection knows of its client. -/
structure Client where
  authenticated : Bool
  /-- The version that replies are encoded in. -/
  version : RespVersion
  name : Bytes

/-! ### Commands -/

/-- The commands of the table. -/
inductive Cmd
  | ping
  | auth
  | hello
  | client
  | storage

/-- `CmdFlags::NO_AUTH`. -/
def Cmd.noAuth : Cmd → Bool
  | ping | auth | hello => true
  | client | storage => false

variable (server : Server St)

/-- The client of a new connection. Without a password it is authenticated. -/
def Client.new : Client := ⟨server.requirepass.isNone, .resp2, []⟩

/-- `cmd_table.get`. -/
def lookup (name : Bytes) : Option Cmd :=
  if name = text "ping" then some .ping
  else if name = text "auth" then some .auth
  else if name = text "hello" then some .hello
  else if name = text "client" then some .client
  else if server.isStorageCommand name then some .storage
  else none

/-- `PingCmd`. -/
def ping (argv : List Bytes) : RespData :=
  match argv with
  | [_] => .simpleString (text "PONG")
  | [_, arg] => .bulkString (some arg)
  | _ => .error (text "ERR wrong number of arguments for 'ping' command")

/-- `WRONGPASS`. -/
def wrongPass : Bytes := text "WRONGPASS invalid username-password pair or user is disabled."

/-- `AuthCmd`, and the check of its number of arguments. -/
def auth (argv : List Bytes) (client : Client) : RespData × Client :=
  match argv with
  | [_, password] =>
    match server.requirepass with
    | none => (.error (text "ERR AUTH called without any password configured"), client)
    | some requirepass =>
      if password = requirepass then
        (.simpleString (text "OK"), { client with authenticated := true })
      else (.error wrongPass, client)
  | [_, _, _] => (.error (text "ERR ACL authentication is not supported"), client)
  | _ => (.error (text "ERR wrong number of arguments for 'auth' command"), client)

/-- The version that the first argument of a `HELLO` asks for, and the other arguments. -/
def helloVersion : List Bytes → Except Bytes (Option RespVersion × List Bytes)
  | [] => .ok (none, [])
  | first :: args =>
    if !isUtf8 first then .error (text "Invalid protocol version")
    else if first = text "2" then .ok (some .resp2, args)
    else if first = text "3" then .ok (some .resp3, args)
    else .ok (none, first :: args)

/-- What the arguments of a `HELLO` ask for. -/
structure HelloRequest where
  authAttempted : Bool
  /-- `pending_set_name`. -/
  setName : Option Bytes

/-- `authenticate` of `HelloCmd`: why an `AUTH` clause is rejected. -/
def authenticate (username password : Bytes) : Option Bytes :=
  if username ≠ text "default" then some wrongPass
  else match server.requirepass with
    | none => some (text "ERR HELLO AUTH called without any password configured")
    | some requirepass => if password = requirepass then none else some wrongPass

/-- The loop of `handle_hello` over its arguments. -/
def helloArgs (request : HelloRequest) : List Bytes → Except Bytes HelloRequest
  | [] => .ok request
  | arg :: args =>
    if !isUtf8 arg then .error (text "Invalid argument")
    else if server.upper arg = text "AUTH" then
      match args with
      | [] => .error (text "AUTH requires username")
      | [_] => .error (text "AUTH requires password")
      | username :: password :: args =>
        match authenticate server username password with
        | some message => .error message
        | none => helloArgs { request with authAttempted := true } args
    else if server.upper arg = text "SETNAME" then
      match args with
      | [] => .error (text "SETNAME requires client name")
      | name :: args =>
        if !isUtf8 name then .error (text "Invalid client name")
        else helloArgs { request with setName := some name } args
    else .error (text "Unknown HELLO argument: " ++ server.upper arg)

/-- The fields of the reply to a `HELLO`. -/
def helloFields (proto : ℤ) : List (RespData × RespData) :=
  let field : String → RespData → RespData × RespData := fun name value ↦
    (.bulkString (some (text name)), value)
  let string : String → RespData := fun value ↦ .bulkString (some (text value))
  [field "server" (string "kiwi"), field "version" (string "1.0.0"),
    field "proto" (.integer proto), field "id" (.integer 1), field "mode" (string "standalone"),
    field "role" (string "master"), field "modules" (.array (some []))]

/-- `build_resp2_hello_response` and `build_resp3_hello_response`. -/
def helloResponse : RespVersion → RespData
  | .resp2 => .array (some ((helloFields 2).flatMap fun field ↦ [field.1, field.2]))
  | .resp3 => .map (helloFields 3)

/-- `HelloCmd` and `handle_hello`. -/
def hello (argv : List Bytes) (client : Client) : RespData × Client :=
  match helloVersion argv.tail with
  | .error message => (.error message, client)
  | .ok (requested, args) =>
    match helloArgs server ⟨false, none⟩ args with
    | .error message => (.error message, client)
    | .ok request =>
      if server.requirepass.isSome && !request.authAttempted && !client.authenticated then
        (.error (text ("NOAUTH HELLO must be called with the client already authenticated, " ++
          "otherwise the HELLO <proto> AUTH <user> <pass> option can be used to authenticate " ++
          "the client and select the RESP protocol version at the same time")), client)
      else
        let version := requested.getD client.version
        (helloResponse version, ⟨true, version, request.setName.getD client.name⟩)

def handleNetworkCommand (command : ParsedCommand) (client : Client) (storage : St) :
    RespData × Client × St :=
  let name := server.lower command.cmdName
  match lookup server name with
  | none => (.error (text "ERR unknown command `" ++ name ++ text "`"), client, storage)
  | some .ping => (ping command.argv, client, storage)
  | some .auth =>
    let (reply, client) := auth server command.argv client
    (reply, client, storage)
  | some .hello =>
    let (reply, client) := hello server command.argv client
    (reply, client, storage)
  | some .client =>
    let (reply, clientName) := server.clientCommand command.argv client.name
    (reply, { client with name := clientName }, storage)
  | some .storage =>
    let (reply, storage) := server.perform command storage
    (reply, client, storage)

/-- The authentication check of `process_command_batch`. -/
def authRejected (command : ParsedCommand) (client : Client) : Bool :=
  !client.authenticated &&
    match lookup server (server.lower command.cmdName) with
    | some cmd => !cmd.noAuth
    | none => false

/-- One command of a batch. -/
def processCommand (command : ParsedCommand) (client : Client) (storage : St) :
    RespData × Client × St :=
  if authRejected server command client then
    (.error (text "NOAUTH Authentication required."), client, storage)
  else handleNetworkCommand server command client storage

/-! ### The loop -/

/-- A command that was executed, the reply that was written, and the storage after it. -/
structure Served (St : Type) where
  command : ParsedCommand
  written : Bytes
  storage : St

/-- What a connection has done: the state that commands work on. -/
structure Session (St : Type) where
  client : Client
  /-- The storage behind the connection. -/
  storage : St
  served : List (Served St)

/-- A session without commands. -/
def Session.new (storage : St) : Session St := ⟨Client.new server, storage, []⟩

/-- One command of `process_command_batch`, with its reply. -/
def serve (session : Session St) (command : ParsedCommand) : Session St :=
  let (reply, client, storage) := processCommand server command session.client session.storage
  ⟨client, storage, session.served ++ [⟨command, server.encode client.version reply, storage⟩]⟩

/-- Why a connection was closed. -/
inductive Closed
  /-- By the client. -/
  | endOfInput
  | malformed
  | limit
  deriving DecidableEq

/-- The state of `process_network_connection_until_cancelled`. -/
structure Connection (St : Type) where
  session : Session St
  /-- `resp_parser`. -/
  parser : RespParse
  /-- `pending_commands`. -/
  pending : List ParsedCommand
  /-- Whether the connection is closed. -/
  closed : Option Closed

/-- A new connection. -/
def Connection.new (storage : St) : Connection St := ⟨Session.new server storage, ⟨[], 0⟩, [], none⟩

/-- `process_command_batch`, and the clearing of the batch. -/
def processCommandBatch (conn : Connection St) : Connection St :=
  { conn with session := conn.pending.foldl (serve server) conn.session, pending := [] }

def isBlockingCommand (name : Bytes) : Bool :=
  [text "blpop", text "brpop", text "brpoplpush", text "bzpopmin", text "bzpopmax"].contains name

def shouldProcessBatch (commands : List ParsedCommand) : Bool :=
  10 ≤ commands.length || commands.any fun command ↦ isBlockingCommand (server.lower command.cmdName)

def extractCommandFromData : RespData → Option ParsedCommand
  | .array (some (.bulkString (some cmdName) :: params)) =>
    some ⟨cmdName, cmdName :: params.map fun p ↦
      match p with
      | .bulkString (some d) => d
      | _ => []⟩
  | _ => none

/-- A command that was parsed: it is put in the batch, which is processed if it is time. -/
def collect (conn : Connection St) (data : RespData) : Connection St :=
  match extractCommandFromData data with
  | none => conn
  | some command =>
    let conn := { conn with pending := conn.pending ++ [command] }
    if shouldProcessBatch server conn.pending then processCommandBatch server conn else conn

/-- `parse_client_request`; `none` if the buffer of an unauthenticated client would be too long. -/
def parseClientRequest (conn : Connection St) (data : Bytes) :
    Option (RespParseResult × RespParse) :=
  if !conn.session.client.authenticated &&
    conn.parser.buffer.length + data.length > 1024 * 1024 then none
  else some (parse server.limits server.isF64 conn.parser data)

/-- The parse loop of one read. Every complete frame takes at least one byte of the buffer. -/
def parseLoop : ℕ → Connection St → Bytes → Connection St
  | 0, conn, _ => conn
  | fuel + 1, conn, data =>
    match parseClientRequest server conn data with
    | none => { conn with closed := some .limit }
    | some (.error limit, parser) =>
      { conn with parser := parser, closed := some (if limit then .limit else .malformed) }
    | some (.incomplete, parser) => { conn with parser := parser }
    | some (.complete data, parser) =>
      parseLoop fuel (collect server { conn with parser := parser } data) []

/-- One read, and the flush after it. A read of nothing is the end of the input. -/
def onRead (conn : Connection St) (data : Bytes) : Connection St :=
  if conn.closed.isSome then conn
  else if data = [] then { processCommandBatch server conn with closed := some .endOfInput }
  else
    let conn := parseLoop server (conn.parser.buffer.length + data.length + 1) conn data
    if conn.closed.isSome then conn else processCommandBatch server conn

/-- `process_network_connection_until_cancelled`, on the reads of a connection. -/
def processNetworkConnection (storage : St) (reads : List Bytes) : Connection St :=
  reads.foldl (onRead server) (Connection.new server storage)

end Kiwi.Net
