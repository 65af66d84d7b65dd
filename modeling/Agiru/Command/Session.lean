import Agiru.Command.Connection

/-! A session command: its construction, its end, and what its body does in between.

A body is any sequence of operations on the session. What an operation raises is swallowed there, and a body
that does not swallow it ends; its scopes end innermost first. -/
namespace Agiru.Command
open Transaction (openBoundary release rollback write markConsistent modifyBoundaries commit clearCommand)

variable {δ : Type}

/-- `Connection::Close`; the server ends the block of a connection that goes. -/
def close : Run δ Unit := modify fun s => {s with link := .closed, server := dropped s.server}

/-- `Session::Attach`. -/
def attach : Run δ Unit := do
  let s ← get
  if s.owned then throw .owned
  if s.link ≠ .usable then throw .closed
  if s.attached then throw .active
  if s.depth ≠ 0 || s.server.inTransaction then throw .notIdle
  modify fun s => {s with attached := true}

/-- `SessionCommand::Detach`. -/
def detach : Run δ Unit := do
  clearCommand
  modify fun s => {s with attached := false}

/-- `Session::ResolveUser`. -/
def resolveUser : Run δ Unit := do
  send (.data id)
  check .inactiveUser

/-- The rollback of what the command leaves, on a connection that works. -/
def abandon : Run δ Unit := do
  let s ← get
  if s.link = .usable && s.server.inTransaction then send .rollback

/-- A lost connection is closed. -/
def closeLost : Run δ Unit := do
  if (← get).link ≠ .usable then close

/-- `~SessionCommand`. -/
def destroy : Run δ Unit := do
  if (← get).attached then
    try abandon catch _ => close
    closeLost
    detach

/-- `SessionCommand`; from the attached session on, what raises is followed by the destructor. -/
def construct : Run δ Unit := do
  attach
  try
    let _ ← openBoundary
    resolveUser
  catch failure =>
    destroy
    throw failure

/-- `SessionCommand::Keep`, on a thread whose current session is the command's or another. -/
def keep (current : Bool) : Run δ Unit := do
  let s ← get
  if !s.attached then throw .ended
  else if !current || s.depth ≠ 1 then throw .unfinished
  else do
    release 1
    commit
    detach

/-! ### The body -/

/-- What a body does: its scopes, and their ends, kept or rolled back; its statements; and the session's own
operations. -/
inductive Op (δ : Type)
  | opens
  | ends (kept : Bool)
  | write (f : δ → δ)
  | read
  | mark (table : Bytes) (consistent : Bool)
  | floor (depth : Nat)
  | commit
  | keep (current : Bool)

/-- A command in its course: the depths of the scopes that have not ended, innermost first; the data of the last
`Commit` that returned, with no floor under it; what the session held when `Keep` returned. -/
structure Course (δ : Type) where
  state : State δ
  scopes : List Nat := []
  settled : δ
  kept : Option δ := none
  /-- A `Commit` or a `Keep` raised although the server had committed for it. -/
  torn : Bool := false
  /-- A `Commit` or a `Keep` raised, and left fewer boundaries than it found. -/
  bereft : Bool := false

/-- The end of a scope at a depth. -/
def endScope (kept : Bool) (depth : Nat) : Run δ Unit := if kept then release depth else rollback depth

/-- One operation on the session; the scope that ends is the one at `depth`. -/
def perform (depth : Nat) : Op δ → Run δ Unit
  | .opens => do let _ ← openBoundary
  | .ends kept => endScope kept depth
  | .write f => do
    write
    send (.data f)
  | .read => send (.data id)
  | .mark table consistent => markConsistent table consistent
  | .floor depth => modifyBoundaries fun b => {b with isolationFloor := depth}
  | .commit => commit
  | .keep current => keep current

/-- The scopes after an operation. -/
def Op.scopes (op : Op δ) (scopes : List Nat) (returned : Bool) (depth : Nat) : List Nat :=
  match op with
  | .opens => if returned then depth :: scopes else scopes
  | .ends _ => scopes.tail
  | _ => scopes

/-- `Commit` and `Keep`. -/
def Op.commits : Op δ → Bool
  | .commit | .keep _ => true
  | _ => false

/-- The course once an operation has ended, and left a state. -/
def Course.after (c : Course δ) (op : Op δ) (returned : Bool) (t : State δ) : Course δ :=
  let s := c.state
  let lost := !returned && op.commits
  { state := t
    scopes := op.scopes c.scopes returned t.depth
    settled :=
      match op, returned with
      | .commit, true => if s.boundaries.isolationFloor = 0 then s.server.data else c.settled
      | _, _ => c.settled
    kept :=
      match op, returned with
      | .keep _, true => some s.server.data
      | _, _ => c.kept
    torn := c.torn || lost && t.commits.length ≠ s.commits.length
    bereft := c.bereft || lost && t.depth < s.depth }

/-- One operation, whichever way it ends. A command that has ended does nothing any more. -/
def step (op : Op δ) (c : Course δ) : Course δ :=
  if c.state.attached then
    let (result, t) := Procedure.exec (perform (c.scopes.headD 0) op) c.state
    c.after op result.isOk t
  else c

def run (c : Course δ) : List (Op δ) → Course δ
  | [] => c
  | op :: rest => run (step op c) rest

/-- The command's end, at the end of its body. -/
def finish (c : Course δ) : Course δ := {c with state := (Procedure.exec destroy c.state).2}

/-- A session and a connection that a command can begin with: nothing is pending on either, and the log of commits
begins with the command. -/
structure Idle (s : State δ) : Prop where
  detached : s.attached = false
  own : s.owned = false
  usable : s.link = .usable
  boundaries : s.boundaries.names = []
  block : s.server.inTransaction = false
  sound : s.server.failed = false
  settled : s.server.data = s.server.committed
  fresh : s.commits = []

/-- Where a command begins that was constructed. -/
def begun (s : State δ) : Course δ :=
  {state := (Procedure.exec construct s).2, settled := s.server.committed}

end Agiru.Command
