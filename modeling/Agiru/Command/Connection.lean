import Agiru.Transaction.Boundaries

/-! A session's boundaries over a connection that may fail at every statement.

The coming statements have their fates written down: to be served, to be refused, or to be lost with the
connection, before the server has them or before their answer is back. The members of `Boundaries` are
those of `Agiru.Transaction`, sent over this connection; a lost connection ends the server's block, and
`commits` keeps what the blocks that the server committed held, the latest first. -/
namespace Agiru.Command
open Transaction (Boundaries Connected)
open Savepoints (Statement Server)

/-- Why a command raises. -/
inductive Failure
  | boundaries (failure : Transaction.Failure)
  | noLease
  | owned
  | closed
  | active
  | notIdle
  | ended
  | unfinished
  | inactiveUser
  | denied
  deriving DecidableEq

/-- The error's text; a refused statement carries the server's, and a command's authority its own. -/
def Failure.text (refused : Bytes) : Failure → Bytes
  | boundaries failure => failure.text refused
  | noLease => Bytes.ascii "the connection is closed"
  | owned => Bytes.ascii "an owned session is already active"
  | closed => Bytes.ascii "session command requires an open connection"
  | active => Bytes.ascii "session command is already active"
  | notIdle => Bytes.ascii "session command requires an idle transaction"
  | ended => Bytes.ascii "session command has already ended"
  | unfinished => Bytes.ascii "session command has an unfinished nested boundary"
  | inactiveUser => Bytes.ascii "session user is not active"
  | denied => refused

/-- How a statement ends; the connection is lost before the server executes it, or after. -/
inductive Fate
  | served
  | refused
  | lost (executed : Bool)
  deriving Repr, DecidableEq

/-- A connection works, is lost, or is closed. -/
inductive Link
  | usable
  | broken
  | closed
  deriving Repr, DecidableEq

structure State (δ : Type) where
  boundaries : Boundaries := {}
  /-- A command is active, and has the connection. -/
  attached : Bool := false
  /-- The session has a connection of its own. -/
  owned : Bool := false
  /-- The command has an authority that locks its commits. -/
  authority : Bool := false
  link : Link := .usable
  server : Server Bytes δ
  commits : List δ := []
  fates : List Fate := []
  /-- Whether the coming checks, of the user and of the authority, refuse. -/
  refusals : List Bool := []

abbrev Run (δ α : Type) := Procedure Failure (State δ) α

variable {δ : Type}

/-- What is sent: statements of the boundaries, the command's own end, and what reads or writes data. -/
inductive Sql (δ : Type)
  | statement (st : Statement Bytes)
  | rollback
  | data (f : δ → δ)

/-- The server at the end of a block that is not kept. -/
def dropped (server : Server Bytes δ) : Server Bytes δ := ⟨server.committed, server.committed, false, false, []⟩

/-- The server after it executed a statement; `none` is its own refusal. -/
def Sql.executed (server : Server Bytes δ) : Sql δ → Option (Server Bytes δ)
  | statement st => Savepoints.execute st server
  | rollback => some (dropped server)
  | data f => if server.failed then none else some (Savepoints.write f server)

/-- The server after it refused one; a refused commit ends its block. -/
def Sql.refused (server : Server Bytes δ) : Sql δ → Server Bytes δ
  | statement .commit => dropped server
  | _ => Savepoints.refuse server

/-- What the server has committed by a statement. -/
def Sql.log (server : Server Bytes δ) : Sql δ → List δ
  | statement .commit => [server.data]
  | _ => []

/-- The state after the server executed a statement. -/
def State.serve (s : State δ) (sql : Sql δ) : Option (State δ) :=
  (sql.executed s.server).map fun server => {s with server, commits := sql.log server ++ s.commits}

def State.depth (s : State δ) : Nat := s.boundaries.names.length

/-- The fate that is due, and the state without it. -/
def State.fate (s : State δ) : Fate := s.fates.headD .served

def State.used (s : State δ) : State δ := {s with fates := s.fates.tail}

/-- The state after a statement was refused, and after the connection was lost. -/
def State.refuse (s : State δ) (sql : Sql δ) : State δ := {s with server := sql.refused s.server}

def State.lose (s : State δ) : State δ := {s with link := .broken, server := dropped s.server}

/-- `Connection::Run`. -/
def send (sql : Sql δ) : Run δ Unit := do
  let s ← get
  if s.link ≠ .usable then throw (.boundaries .database)
  match s.fate with
  | .served =>
    match s.used.serve sql with
    | some t => set t
    | none =>
      set (s.used.refuse sql)
      throw (.boundaries .database)
  | .refused =>
    set (s.used.refuse sql)
    throw (.boundaries .database)
  | .lost executed =>
    set (if executed then (s.used.serve sql).getD s.used else s.used).lose
    throw (.boundaries .database)

/-- `Connection::InTransaction`. -/
def inTransaction : Run δ Bool := do
  let s ← get
  if s.link = .closed then throw .noLease
  return s.server.inTransaction

/-- `Connection::InFailedTransaction`. -/
def inFailedTransaction : Run δ Bool := do
  let s ← get
  if s.link = .closed then throw .noLease
  return s.server.failed

/-- A check that may refuse. -/
def check (failure : Failure) : Run δ Unit := do
  let s ← get
  set {s with refusals := s.refusals.tail}
  if s.refusals.headD false then throw failure

/-- `LockCommandCommit`: the authority asks whether its client is still there, and locks the user's row and the
client's own in the command's transaction. -/
def lockCommandCommit : Run δ Unit := do
  if (← get).authority then
    check .denied
    if !(← inTransaction) then throw .denied
    send (.data id)
    check .denied
    check .denied
    send (.data id)
    check .denied

/-- The members of `Boundaries` are sent over this connection. -/
instance : Connected Failure (State δ) where
  boundaries := State.boundaries
  update f s := {s with boundaries := f s.boundaries}
  raise := .boundaries
  run st := send (.statement st)
  inTransaction := inTransaction
  inFailedTransaction := inFailedTransaction
  lockCommandCommit := lockCommandCommit

@[simp] theorem boundaries_state (s : State δ) : Connected.boundaries s = s.boundaries := rfl

@[simp] theorem update_state (f : Boundaries → Boundaries) (s : State δ) :
    Connected.update f s = {s with boundaries := f s.boundaries} := rfl

end Agiru.Command
