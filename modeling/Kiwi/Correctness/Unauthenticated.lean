import Mathlib.Data.List.TakeWhile
import Kiwi.Net.Connection

/-!
# Clients without the password

A connection that starts without authentication learns nothing about the storage and does not change
it, until a command presents the password. The result compares two runs on the same reads over two
storages. They stay alike (`Alike`): the clients, parsers and batches are the same and the storages
are untouched. When a command presents the password, both runs have executed the same commands and
written the same bytes up to it (`Agree`), and as what has been written only grows, nothing later
changes this (`Apart`).
-/

namespace Kiwi.Net

open Resp

variable {St : Type} (server : Server St) (password : Bytes)

/-! ### Commands that present the password -/

/-- Whether the clauses of a `HELLO` are an `AUTH` clause with the password, after names that are
set. -/
def clausesPresent : List Bytes → Bool
  | [] => false
  | arg :: args =>
    if server.upper arg = text "AUTH" then
      match args with
      | username :: given :: _ => username = text "default" && given = password
      | _ => false
    else if server.upper arg = text "SETNAME" then
      match args with
      | _ :: args => clausesPresent args
      | [] => false
    else false

/-- The arguments of a `HELLO` after the version. -/
def helloClauses : List Bytes → List Bytes
  | [] => []
  | first :: args => if first = text "2" ∨ first = text "3" then args else first :: args

/-- `AUTH` with the password, or `HELLO` with an `AUTH` clause with it. -/
def presentsPassword (command : ParsedCommand) : Bool :=
  let name := server.lower command.cmdName
  (name = text "auth" && command.argv.tail = [password]) ||
    (name = text "hello" && clausesPresent server password (helloClauses command.argv.tail))

variable {server password}

section

variable (hpass : server.requirepass = some password)

include hpass

theorem authenticate_eq_none {username given : Bytes}
    (h : authenticate server username given = none) :
    username = text "default" ∧ given = password := by
  rw [authenticate, hpass] at h
  split_ifs at h with huser
  dsimp only at h
  split_ifs at h with hgiven
  exact ⟨not_not.1 huser, hgiven⟩

theorem helloArgs_authAttempted {request result : HelloRequest} {args : List Bytes}
    (hargs : clausesPresent server password args = false) (hrequest : request.authAttempted = false)
    (h : helloArgs server request args = .ok result) : result.authAttempted = false := by
  fun_induction helloArgs server request args with
  | case1 => cases h; exact hrequest
  | case2 | case3 | case4 | case5 | case7 | case8 | case10 => cases h
  | case6 request arg _ hauth username given args haccepted ih =>
    -- an `AUTH` clause is accepted only with the password
    obtain ⟨rfl, rfl⟩ := authenticate_eq_none hpass haccepted
    rw [clausesPresent, if_pos hauth] at hargs
    simp at hargs
  | case9 request arg _ hauth hname name args _ ih =>
    unfold clausesPresent at hargs
    rw [if_neg hauth, if_pos hname] at hargs
    exact ih hargs hrequest h

end

theorem helloClauses_of_helloVersion {args rest : List Bytes} {requested : Option RespVersion}
    (h : helloVersion args = .ok (requested, rest)) : helloClauses args = rest := by
  cases args with
  | nil => cases h; rfl
  | cons first args =>
    rw [helloVersion] at h
    rw [helloClauses]
    split_ifs at h with _ h2 h3
    · cases h
      exact if_pos (.inl h2)
    · cases h
      exact if_pos (.inr h3)
    · cases h
      exact if_neg (not_or.2 ⟨h2, h3⟩)

section

variable {argv : List Bytes} (hpass : server.requirepass = some password)

include hpass

/-- `HELLO` without the password fails. -/
theorem hello_fails {client : Client} (hclient : client.authenticated = false)
    (hargv : clausesPresent server password (helloClauses argv.tail) = false) :
    ∃ reply, hello server argv client = (reply, client) := by
  rw [hello]
  split
  · exact ⟨_, rfl⟩
  · rename_i requested args hversion
    rw [helloClauses_of_helloVersion hversion] at hargv
    split
    · exact ⟨_, rfl⟩
    · rename_i request hargs
      have hattempted := helloArgs_authAttempted hpass hargv rfl hargs
      rw [hattempted, hclient, hpass]
      exact ⟨_, rfl⟩

/-- `AUTH` without the password fails. -/
theorem auth_fails (client : Client) (hargv : argv.tail ≠ [password]) :
    ∃ reply, auth server argv client = (reply, client) := by
  unfold auth
  split
  · rename_i given
    have hgiven : given ≠ password := fun h ↦ hargv (by rw [h]; rfl)
    rw [hpass]
    dsimp only
    rw [if_neg hgiven]
    exact ⟨_, rfl⟩
  · exact ⟨_, rfl⟩
  · exact ⟨_, rfl⟩

end

variable {name : Bytes}

theorem lookup_eq_auth (h : lookup server name = some .auth) : name = text "auth" := by
  rw [lookup] at h
  split_ifs at h with hping hname
  · cases h
  · exact hname
  all_goals cases h

theorem lookup_eq_hello (h : lookup server name = some .hello) : name = text "hello" := by
  rw [lookup] at h
  split_ifs at h with hping hauth hname
  · cases h
  · cases h
  · exact hname
  all_goals cases h

variable {command : ParsedCommand}

/-- **One command without the password.** The reply does not depend on the storage, and neither the
client nor the storage changes. -/
theorem processCommand_unauthenticated (hpass : server.requirepass = some password)
    {client : Client} (hclient : client.authenticated = false)
    (hcommand : presentsPassword server password command = false) :
    ∃ reply, ∀ storage, processCommand server command client storage = (reply, client, storage) := by
  obtain ⟨hauth, hhello⟩ := Bool.or_eq_false_iff.1 hcommand
  simp only [processCommand, authRejected, handleNetworkCommand, hclient, Bool.not_false,
    Bool.true_and]
  rcases hlookup : lookup server (server.lower command.cmdName) with _ | cmd
  · exact ⟨_, fun _ ↦ rfl⟩
  cases cmd with
  | ping => exact ⟨_, fun _ ↦ rfl⟩
  | auth =>
    rw [lookup_eq_auth hlookup] at hauth
    have htail : command.argv.tail ≠ [password] := by simpa using hauth
    obtain ⟨reply, hreply⟩ := auth_fails hpass client htail
    exact ⟨reply, fun _ ↦ by simp [Cmd.noAuth, hreply]⟩
  | hello =>
    rw [lookup_eq_hello hlookup] at hhello
    have hclauses : clausesPresent server password (helloClauses command.argv.tail) = false := by
      simpa using hhello
    obtain ⟨reply, hreply⟩ := hello_fails hpass hclient hclauses
    exact ⟨reply, fun _ ↦ by simp [Cmd.noAuth, hreply]⟩
  | client | storage => exact ⟨_, fun _ ↦ rfl⟩

/-! ### What two runs have written -/

variable (server password)

/-- What was executed before the first command that presents the password. -/
def quiet (served : List (Served St)) : List (Served St) :=
  served.takeWhile fun e ↦ !presentsPassword server password e.command

/-- Whether a command has presented the password. -/
def Presented (served : List (Served St)) : Prop :=
  ∃ e ∈ served, presentsPassword server password e.command = true

/-- Before the first command that presents the password, two runs execute the same commands and
write the same bytes, and their storages stay as they were. -/
structure Agree (storage₁ storage₂ : St) (served₁ served₂ : List (Served St)) : Prop where
  /-- The commands and the replies are the same. -/
  same : (quiet server password served₁).map (fun e ↦ (e.command, e.written)) =
    (quiet server password served₂).map fun e ↦ (e.command, e.written)
  /-- The storage of the first run stays. -/
  left : ∀ e ∈ quiet server password served₁, e.storage = storage₁
  /-- The storage of the second run stays. -/
  right : ∀ e ∈ quiet server password served₂, e.storage = storage₂

variable {server password}

variable {served₁ served₂ served₁' served₂' : List (Served St)}

theorem Agree.congr {storage₁ storage₂ : St}
    (h : Agree server password storage₁ storage₂ served₁ served₂)
    (h₁ : quiet server password served₁' = quiet server password served₁)
    (h₂ : quiet server password served₂' = quiet server password served₂) :
    Agree server password storage₁ storage₂ served₁' served₂' := by
  refine ⟨?_, ?_, ?_⟩
  · rw [h₁, h₂]
    exact h.same
  · rw [h₁]
    exact h.left
  · rw [h₂]
    exact h.right

variable {served : List (Served St)}

theorem quiet_of_not_presented (h : ¬ Presented server password served) :
    quiet server password served = served := by
  refine List.takeWhile_eq_self_iff.2 fun e he ↦ ?_
  rw [Bool.not_eq_true']
  exact eq_false_of_ne_true fun hpresents ↦ h ⟨e, he, hpresents⟩

theorem quiet_append_of_presented (h : Presented server password served) (more : List (Served St)) :
    quiet server password (served ++ more) = quiet server password served := by
  obtain ⟨e, he, hpresents⟩ := h
  rw [quiet, List.takeWhile_append, if_neg]
  · rfl
  · intro hlength
    have hself := List.IsPrefix.eq_of_length (List.takeWhile_prefix _) hlength
    have hquiet := List.takeWhile_eq_self_iff.1 hself e he
    rw [hpresents] at hquiet
    cases hquiet

theorem quiet_append_of_not_presented (h : ¬ Presented server password served) (e : Served St) :
    quiet server password (served ++ [e]) =
      if presentsPassword server password e.command then served else served ++ [e] := by
  have hself := quiet_of_not_presented h
  rw [quiet] at hself ⊢
  rw [List.takeWhile_append, hself, if_pos rfl]
  cases hp : presentsPassword server password e.command <;> simp [hp]

theorem Presented.append (h : Presented server password served)
    (more : List (Served St)) : Presented server password (served ++ more) := by
  obtain ⟨e, he, hpresents⟩ := h
  exact ⟨e, List.mem_append_left _ he, hpresents⟩

/-! ### What has been written only grows -/

theorem serve_served (session : Session St) (command : ParsedCommand) :
    session.served <+: (serve server session command).served := List.prefix_append _ _

theorem foldl_serve_served (commands : List ParsedCommand) (session : Session St) :
    session.served <+: (commands.foldl (serve server) session).served := by
  induction commands generalizing session with
  | nil => exact List.prefix_rfl
  | cons command commands ih => exact (serve_served session command).trans (ih _)

theorem collect_served (server : Server St) (conn : Connection St) (data : RespData) :
    conn.session.served <+: (collect server conn data).session.served := by
  rw [collect]
  split
  · exact List.prefix_rfl
  · dsimp only
    split_ifs
    · exact foldl_serve_served _ _
    · exact List.prefix_rfl

theorem parseLoop_served (fuel : ℕ) (conn : Connection St) (data : Bytes) :
    conn.session.served <+: (parseLoop server fuel conn data).session.served := by
  induction fuel generalizing conn data with
  | zero => exact List.prefix_rfl
  | succ fuel ih =>
    rw [parseLoop]
    rcases parseClientRequest server conn data with _ | ⟨data | _ | limit, parser⟩
    · exact List.prefix_rfl
    · have hcollect := collect_served server { conn with parser := parser } data
      exact hcollect.trans (ih _ _)
    · exact List.prefix_rfl
    · exact List.prefix_rfl

theorem onRead_served (conn : Connection St) (data : Bytes) :
    conn.session.served <+: (onRead server conn data).session.served := by
  rw [onRead]
  split_ifs
  · exact List.prefix_rfl
  · exact foldl_serve_served _ _
  · dsimp only
    split_ifs
    · exact parseLoop_served _ _ _
    · exact (parseLoop_served _ _ _).trans (foldl_serve_served _ _)

/-! ### Two runs -/

variable (server password) (storage₁ storage₂ : St)

/-- The password has been presented in both runs. -/
structure Apart (served₁ served₂ : List (Served St)) : Prop where
  /-- Up to it they agree. -/
  agree : Agree server password storage₁ storage₂ served₁ served₂
  left : Presented server password served₁
  right : Presented server password served₂

/-- Two sessions in which the password has not been presented. -/
structure Alike (session₁ session₂ : Session St) : Prop where
  agree : Agree server password storage₁ storage₂ session₁.served session₂.served
  client : session₁.client = session₂.client
  unauthenticated : session₁.client.authenticated = false
  /-- The first storage is untouched. -/
  left : session₁.storage = storage₁
  /-- The second storage is untouched. -/
  right : session₂.storage = storage₂
  /-- Not presented in the first run. -/
  quietLeft : ¬ Presented server password session₁.served
  /-- Not presented in the second run. -/
  quietRight : ¬ Presented server password session₂.served

/-- Two connections in which the password has not been presented: also the control is the same. -/
structure AlikeConn (conn₁ conn₂ : Connection St) : Prop where
  session : Alike server password storage₁ storage₂ conn₁.session conn₂.session
  parser : conn₁.parser = conn₂.parser
  pending : conn₁.pending = conn₂.pending
  closed : conn₁.closed = conn₂.closed

/-- Two connections that were alike as long as the password was not presented. -/
def Related (conn₁ conn₂ : Connection St) : Prop :=
  AlikeConn server password storage₁ storage₂ conn₁ conn₂ ∨
    Apart server password storage₁ storage₂ conn₁.session.served conn₂.session.served

variable {server password storage₁ storage₂}

theorem Apart.grow (h : Apart server password storage₁ storage₂ served₁ served₂)
    (h₁ : served₁ <+: served₁')
    (h₂ : served₂ <+: served₂') : Apart server password storage₁ storage₂ served₁' served₂' := by
  obtain ⟨more₁, rfl⟩ := h₁
  obtain ⟨more₂, rfl⟩ := h₂
  exact ⟨h.agree.congr (quiet_append_of_presented h.left _) (quiet_append_of_presented h.right _),
    h.left.append _, h.right.append _⟩

variable {session₁ session₂ : Session St}

theorem Alike.serve_presents (h : Alike server password storage₁ storage₂ session₁ session₂)
    (hcommand : presentsPassword server password command = true) :
    Apart server password storage₁ storage₂ (serve server session₁ command).served
      (serve server session₂ command).served := by
  have hquiet : ∀ {session : Session St}, ¬ Presented server password session.served →
      quiet server password (serve server session command).served =
        quiet server password session.served := fun hsession ↦ by
    rw [serve, quiet_append_of_not_presented hsession, if_pos hcommand,
      quiet_of_not_presented hsession]
  have hpresented : ∀ session : Session St,
      Presented server password (serve server session command).served := fun session ↦
    ⟨_, List.mem_append_right _ (List.mem_singleton_self _), hcommand⟩
  exact ⟨h.agree.congr (hquiet h.quietLeft) (hquiet h.quietRight), hpresented _, hpresented _⟩

section

variable (hpass : server.requirepass = some password)

include hpass

theorem Alike.serve_quiet (h : Alike server password storage₁ storage₂ session₁ session₂)
    (hcommand : presentsPassword server password command = false) :
    Alike server password storage₁ storage₂ (serve server session₁ command)
      (serve server session₂ command) := by
  obtain ⟨reply, hreply⟩ := processCommand_unauthenticated hpass h.unauthenticated hcommand
  have hserve₁ : serve server session₁ command = ⟨session₁.client, session₁.storage,
      session₁.served ++ [⟨command, server.encode session₁.client.version reply,
        session₁.storage⟩]⟩ := by
    rw [serve, hreply]
  have hserve₂ : serve server session₂ command = ⟨session₁.client, session₂.storage,
      session₂.served ++ [⟨command, server.encode session₁.client.version reply,
        session₂.storage⟩]⟩ := by
    rw [serve, ← h.client, hreply]
  have hnot : ∀ {served : List (Served St)} {e : Served St}, e.command = command →
      ¬ Presented server password served → ¬ Presented server password (served ++ [e]) := by
    rintro served e rfl hserved ⟨e', he', hpresents⟩
    rcases List.mem_append.1 he' with he' | he'
    · exact hserved ⟨e', he', hpresents⟩
    · rw [List.mem_singleton.1 he', hcommand] at hpresents
      cases hpresents
  have hsame := h.agree.same
  have hleft := h.agree.left
  have hright := h.agree.right
  rw [quiet_of_not_presented h.quietLeft] at hsame hleft
  rw [quiet_of_not_presented h.quietRight] at hsame hright
  rw [hserve₁, hserve₂]
  have hquiet₁ := hnot (e := ⟨command, server.encode session₁.client.version reply,
    session₁.storage⟩) rfl h.quietLeft
  have hquiet₂ := hnot (e := ⟨command, server.encode session₁.client.version reply,
    session₂.storage⟩) rfl h.quietRight
  refine ⟨⟨?_, ?_, ?_⟩, rfl, h.unauthenticated, h.left, h.right, hquiet₁, hquiet₂⟩
  · rw [quiet_of_not_presented hquiet₁, quiet_of_not_presented hquiet₂, List.map_append,
      List.map_append, hsame]
    rfl
  · rw [quiet_of_not_presented hquiet₁]
    exact List.forall_mem_append.2 ⟨hleft, List.forall_mem_singleton.2 h.left⟩
  · rw [quiet_of_not_presented hquiet₂]
    exact List.forall_mem_append.2 ⟨hright, List.forall_mem_singleton.2 h.right⟩

theorem Alike.foldl_serve (commands : List ParsedCommand)
    (h : Alike server password storage₁ storage₂ session₁ session₂) :
    Alike server password storage₁ storage₂ (commands.foldl (serve server) session₁)
        (commands.foldl (serve server) session₂) ∨
      Apart server password storage₁ storage₂ (commands.foldl (serve server) session₁).served
        (commands.foldl (serve server) session₂).served := by
  induction commands generalizing session₁ session₂ with
  | nil => exact .inl h
  | cons command commands ih =>
    cases hcommand : presentsPassword server password command with
    | false => exact ih (h.serve_quiet hpass hcommand)
    | true =>
      exact .inr ((h.serve_presents hcommand).grow (foldl_serve_served _ _)
        (foldl_serve_served _ _))

end

variable {conn₁ conn₂ : Connection St}

section

variable (hpass : server.requirepass = some password)
  (h : AlikeConn server password storage₁ storage₂ conn₁ conn₂)

include hpass h

theorem AlikeConn.processCommandBatch :
    Related server password storage₁ storage₂ (processCommandBatch server conn₁)
      (processCommandBatch server conn₂) := by
  have hbatch := h.session.foldl_serve hpass conn₁.pending
  rw [Net.processCommandBatch, Net.processCommandBatch, ← h.pending]
  exact hbatch.imp (fun hsession ↦ ⟨hsession, h.parser, rfl, h.closed⟩) id

theorem AlikeConn.collect (data : RespData) :
    Related server password storage₁ storage₂ (collect server conn₁ data)
      (collect server conn₂ data) := by
  rw [Net.collect, Net.collect]
  cases extractCommandFromData data with
  | none => exact .inl h
  | some command =>
    have hpending : AlikeConn server password storage₁ storage₂
        { conn₁ with pending := conn₁.pending ++ [command] }
        { conn₂ with pending := conn₂.pending ++ [command] } :=
      ⟨h.session, h.parser, by rw [h.pending], h.closed⟩
    dsimp only
    rw [← h.pending] at hpending ⊢
    split_ifs
    · exact hpending.processCommandBatch hpass
    · exact .inl hpending

end

theorem AlikeConn.parseClientRequest (h : AlikeConn server password storage₁ storage₂ conn₁ conn₂)
    (data : Bytes) :
    parseClientRequest server conn₁ data = parseClientRequest server conn₂ data := by
  rw [Net.parseClientRequest, Net.parseClientRequest, h.session.client, h.parser]

section

variable (hpass : server.requirepass = some password)

include hpass

theorem AlikeConn.parseLoop (fuel : ℕ)
    (h : AlikeConn server password storage₁ storage₂ conn₁ conn₂) (data : Bytes) :
    Related server password storage₁ storage₂ (parseLoop server fuel conn₁ data)
      (parseLoop server fuel conn₂ data) := by
  induction fuel generalizing conn₁ conn₂ data with
  | zero => exact .inl h
  | succ fuel ih =>
    rw [Net.parseLoop, Net.parseLoop, ← h.parseClientRequest]
    rcases Net.parseClientRequest server conn₁ data with _ | ⟨data | _ | limit, parser⟩
    · exact .inl ⟨h.session, h.parser, h.pending, rfl⟩
    · have hparser : AlikeConn server password storage₁ storage₂ { conn₁ with parser := parser }
          { conn₂ with parser := parser } := ⟨h.session, rfl, h.pending, h.closed⟩
      rcases hparser.collect hpass data with hcollect | hcollect
      · exact ih hcollect []
      · exact .inr (hcollect.grow (parseLoop_served _ _ _) (parseLoop_served _ _ _))
    · exact .inl ⟨h.session, rfl, h.pending, h.closed⟩
    · exact .inl ⟨h.session, rfl, h.pending, rfl⟩

/-- **One read** of the same bytes leaves two such connections alike, whatever the storages hold. -/
theorem Related.onRead (h : Related server password storage₁ storage₂ conn₁ conn₂) (data : Bytes) :
    Related server password storage₁ storage₂ (onRead server conn₁ data)
      (onRead server conn₂ data) := by
  rcases h with h | h
  · rw [Net.onRead, Net.onRead, ← h.closed, ← h.parser]
    split_ifs
    · exact .inl h
    · exact (h.processCommandBatch hpass).imp
        (fun hbatch ↦ ⟨hbatch.session, hbatch.parser, hbatch.pending, rfl⟩) id
    · dsimp only
      rcases h.parseLoop hpass (conn₁.parser.buffer.length + data.length + 1) data with
        hloop | hloop
      · rw [← hloop.closed]
        split_ifs
        · exact .inl hloop
        · exact hloop.processCommandBatch hpass
      · refine .inr (hloop.grow ?_ ?_)
        · split_ifs
          · exact List.prefix_rfl
          · exact foldl_serve_served _ _
        · split_ifs
          · exact List.prefix_rfl
          · exact foldl_serve_served _ _
  · exact .inr (h.grow (onRead_served _ _) (onRead_served _ _))

theorem related_foldl_onRead (reads : List Bytes)
    (h : Related server password storage₁ storage₂ conn₁ conn₂) :
    Related server password storage₁ storage₂ (reads.foldl (onRead server) conn₁)
      (reads.foldl (onRead server) conn₂) := by
  induction reads generalizing conn₁ conn₂ with
  | nil => exact h
  | cons data reads ih => exact ih (h.onRead hpass data)

theorem related_new :
    Related server password storage₁ storage₂ (Connection.new server storage₁)
      (Connection.new server storage₂) := by
  have hnone : ¬ Presented server password ([] : List (Served St)) := by
    rintro ⟨e, he, -⟩
    cases he
  refine .inl ⟨⟨⟨rfl, ?_, ?_⟩, rfl, ?_, rfl, rfl, hnone, hnone⟩, rfl, rfl, rfl⟩
  · intro e he
    cases he
  · intro e he
    cases he
  · show server.requirepass.isNone = false
    rw [hpass]
    rfl

end

/-- **Unauthenticated clients learn and change nothing.** For all reads and any two storages, up to
the first command that presents the password both runs execute the same commands and write the same
bytes, and each storage is as it was after every one of them. If no command presents the password,
that is the whole run, in the other one none does either, and both end in the same way. -/
theorem unauthenticated_learns_nothing (server : Server St) (password : Bytes)
    (hpass : server.requirepass = some password) (storage₁ storage₂ : St) (reads : List Bytes) :
    let conn₁ := processNetworkConnection server storage₁ reads
    let conn₂ := processNetworkConnection server storage₂ reads
    Agree server password storage₁ storage₂ conn₁.session.served conn₂.session.served ∧
      (¬ Presented server password conn₁.session.served →
        ¬ Presented server password conn₂.session.served ∧
        conn₁.session.served.map (·.written) = conn₂.session.served.map (·.written) ∧
        conn₁.session.storage = storage₁ ∧ conn₂.session.storage = storage₂ ∧
        conn₁.closed = conn₂.closed) := by
  intro conn₁ conn₂
  have hnew : Related server password storage₁ storage₂ _ _ := related_new hpass
  rcases related_foldl_onRead hpass reads hnew with h | h
  · refine ⟨h.session.agree, fun _ ↦ ⟨h.session.quietRight, ?_, h.session.left, h.session.right,
      h.closed⟩⟩
    have hsame := h.session.agree.same
    rw [quiet_of_not_presented h.session.quietLeft, quiet_of_not_presented h.session.quietRight]
      at hsame
    have hwritten := congrArg (List.map Prod.snd) hsame
    rwa [List.map_map, List.map_map] at hwritten
  · exact ⟨h.agree, fun hnot ↦ absurd h.left hnot⟩

/-- A server whose storage is one text, with a command that reads it and the password `pw`. -/
def textServer : Server Bytes where
  requirepass := some (text "pw")
  lower := id
  upper := id
  isStorageCommand name := name = text "get"
  perform _ storage := (.bulkString (some storage), storage)
  clientCommand _ name := (.null, name)
  encode _ reply :=
    match reply with
    | .simpleString data | .error data | .bulkString (some data) => data
    | _ => []
  limits := .default
  isF64 _ := false

theorem get_without_password :
    let reads := [encodeCommand [text "ping"] ++ [0x2A], (encodeCommand [text "get"]).tail]
    let conn₁ := processNetworkConnection textServer (text "a") reads
    let conn₂ := processNetworkConnection textServer (text "b") reads
    textServer.requirepass = some (text "pw") ∧ conn₁.session.served.length = 2 ∧
      conn₁.session.served.map (·.written) = conn₂.session.served.map (·.written) ∧
      conn₁.session.storage = text "a" := by
  intro reads conn₁ conn₂
  have hquiet : (conn₁.session.served.any fun e ↦
      presentsPassword textServer (text "pw") e.command) = false := by decide +kernel
  have hnot : ¬ Presented textServer (text "pw") conn₁.session.served := by
    rintro ⟨e, he, hpresents⟩
    exact List.any_eq_false.1 hquiet e he hpresents
  obtain ⟨-, hwhole⟩ :=
    unauthenticated_learns_nothing textServer (text "pw") rfl (text "a") (text "b") reads
  exact ⟨rfl, by decide +kernel, (hwhole hnot).2.1, (hwhole hnot).2.2.1⟩

end Kiwi.Net
