import Agiru.Library.Bytes
import Agiru.Library.Procedure
import Agiru.Library.Undo

/-! The nested transaction boundaries of a session, and what they send.

A boundary is a savepoint on the session's own connection. `openBoundary`,
`release`, `rollback`, `write` and `commit` are the members of `Boundaries`, over any
session that is `Connected`; each is a procedure, which keeps what was done before an
exception, as C++ does. `Session` is one whose statements all reach the server, and
which has no command authority, whose commit lock `commit` would take first. -/
namespace Agiru.Transaction
open Savepoints (Statement Server)

/-- Why a member of `Boundaries` raises; `database` is a refused statement. -/
inductive Failure
  | database
  | lostIsolation
  | failedCommit
  | inconsistent (table : Bytes)
  | notKept
  deriving DecidableEq

/-- The error's text; a refused statement carries the server's. -/
def Failure.text (refused : Bytes) : Failure → Bytes
  | database => refused
  | lostIsolation => Bytes.ascii
      "the test isolation transaction was lost; execution cannot continue inside this runner"
  | failedCommit => Bytes.ascii
      "the transaction cannot be committed because a statement inside it failed"
  | inconsistent table => Bytes.ascii
      "The transaction cannot be completed because it will cause inconsistencies in the " ++ table ++
      Bytes.ascii " table. Check where and how the CONSISTENT function is used in the transaction " ++
      Bytes.ascii "to find the error."
  | notKept =>
      Bytes.ascii "the transaction cannot be kept, a statement inside it failed and the " ++
      Bytes.ascii "failure was swallowed: " ++ refused

structure Boundary where
  name : Bytes
  inconsistentBefore : List Bytes
  writingBefore : Bool

structure Boundaries where
  names : List Boundary := []
  inconsistent : List Bytes := []
  cursorEpoch : UInt64 := 0
  isolationFloor : Nat := 0
  writing : Bool := false
  issued : Nat := 0

def nextName (issued : Nat) : Bytes := Bytes.ascii "al_" ++ Bytes.natText issued

/-- A session that the members of `Boundaries` work on: their state in it, how they
raise, and what they ask of its connection. -/
class Connected (ε : outParam Type) (σ : Type) where
  boundaries : σ → Boundaries
  update : (Boundaries → Boundaries) → σ → σ
  raise : Failure → ε
  run : Statement Bytes → Procedure ε σ Unit
  inTransaction : Procedure ε σ Bool
  inFailedTransaction : Procedure ε σ Bool
  lockCommandCommit : Procedure ε σ Unit

section
open Connected
variable {ε σ : Type} [Connected ε σ]

def modifyBoundaries (f : Boundaries → Boundaries) : Procedure ε σ Unit := modify (update f)

def refuse (failure : Failure) : Procedure ε σ Unit := throw (raise σ failure)

/-- `Boundaries::Open`. -/
def openBoundary : Procedure ε σ Nat := do
  let b := boundaries (← get)
  if b.isolationFloor > b.names.length then refuse .lostIsolation
  modifyBoundaries fun b => {b with issued := b.issued + 1}
  let next : Boundary := ⟨nextName (b.issued + 1), b.inconsistent, b.writing⟩
  if !(← inTransaction) then run .begin
  run (.savepoint next.name)
  modifyBoundaries fun b => {b with names := b.names ++ [next]}
  return (boundaries (← get)).names.length

/-- `Boundaries::Rollback`. -/
def rollback (depth : Nat) : Procedure ε σ Unit := do
  if depth = 0 then return
  let some held := (boundaries (← get)).names[depth - 1]? | return
  run (.rollbackTo held.name)
  run (.release held.name)
  modifyBoundaries fun b => {b with
    writing := held.writingBefore
    names := b.names.take (depth - 1)
    inconsistent := held.inconsistentBefore
    cursorEpoch := b.cursorEpoch + 1}

/-- `Boundaries::Release`. -/
def release (depth : Nat) : Procedure ε σ Unit := do
  if depth = 0 then return
  let some held := (boundaries (← get)).names[depth - 1]? | return
  try run (.release held.name)
  catch _ =>
    rollback depth
    refuse .notKept
  modifyBoundaries fun b => {b with names := b.names.take (depth - 1)}

/-- `Boundaries::MarkConsistent`. -/
def markConsistent (table : Bytes) (consistent : Bool) : Procedure ε σ Unit :=
  modifyBoundaries fun b => {b with
    inconsistent :=
      if consistent then b.inconsistent.erase table
      else if table ∈ b.inconsistent then b.inconsistent
      else b.inconsistent ++ [table]}

/-- `Boundaries::Write`. -/
def write : Procedure ε σ Unit := do
  if !(← inTransaction) then run .begin
  modifyBoundaries fun b => {b with writing := true}

/-- The boundaries `Commit` opens again: as many as stood above the floor, under
names not yet issued. -/
def renew (inconsistent : List Bytes) (issued : Nat) : Nat → List Boundary
  | 0 => []
  | count + 1 => ⟨nextName (issued + 1), inconsistent, false⟩ :: renew inconsistent (issued + 1) count

/-- The savepoints of the renewed boundaries, outermost first. -/
def reopen : List Boundary → Procedure ε σ Unit
  | [] => return
  | boundary :: rest => do
    run (.savepoint boundary.name)
    modifyBoundaries fun b => {b with names := b.names ++ [boundary]}
    reopen rest

/-- The commit of the block, if one is open. -/
def endBlock : Procedure ε σ Unit := do
  if ← inTransaction then
    run .commit
    modifyBoundaries fun b => {b with cursorEpoch := b.cursorEpoch + 1}

/-- The end of the block, where no floor stands under the boundaries. -/
def commitBlock (renewed : List Boundary) : Procedure ε σ Unit := do
  endBlock
  modifyBoundaries fun b => {b with names := [], writing := false}
  if !renewed.isEmpty then run .begin

/-- The release of what stands above a floor. -/
def releaseAbove (floor : Nat) : Procedure ε σ Unit := do
  let some above := (boundaries (← get)).names[floor]? | return
  run (.release above.name)
  modifyBoundaries fun b => {b with names := b.names.take floor}

/-- The body of `Commit` once nothing forbids it. -/
def commitKept (floor : Nat) (renewed : List Boundary) : Procedure ε σ Unit := do
  if floor = 0 then commitBlock renewed else releaseAbove floor
  reopen renewed
  modifyBoundaries fun b => {b with writing := false}

/-- What forbids a commit. -/
def mayCommit (b : Boundaries) : Procedure ε σ Unit := do
  if b.isolationFloor > b.names.length then refuse .lostIsolation
  else do
    let failed ← inFailedTransaction
    if failed then refuse .failedCommit
    else
      match b.inconsistent with
      | table :: _ => refuse (.inconsistent table)
      | [] => return

/-- What a commit that failed forgets, once no block is open. -/
def forget : Procedure ε σ Unit := do
  if !(← inTransaction) then
    modifyBoundaries fun b => {b with
      names := []
      inconsistent := []
      writing := false
      cursorEpoch := b.cursorEpoch + 1}

/-- `Boundaries::Commit`. -/
def commit : Procedure ε σ Unit := do
  lockCommandCommit
  let b := boundaries (← get)
  mayCommit b
  let count := b.names.length - b.isolationFloor
  modifyBoundaries fun b => {b with issued := b.issued + count}
  try commitKept b.isolationFloor (renew b.inconsistent b.issued count)
  catch failure =>
    forget
    throw failure

/-- `Boundaries::IsolationFloor`, answering the previous floor. -/
def setIsolationFloor (depth : Nat) : Procedure ε σ Nat := do
  let previous := (boundaries (← get)).isolationFloor
  modifyBoundaries fun b => {b with isolationFloor := depth}
  return previous

/-- `Boundaries::ClearCommand`. -/
def clearCommand : Procedure ε σ Unit :=
  modifyBoundaries fun b => {b with
    names := []
    inconsistent := []
    isolationFloor := 0
    writing := false
    cursorEpoch := b.cursorEpoch + 1}

end

/-! ### A session of its own -/

/-- The session: its boundaries, the server, and the statements sent so far. -/
structure Session (δ : Type) where
  boundaries : Boundaries
  server : Server Bytes δ
  sent : List (Statement Bytes) := []

abbrev Run (δ α : Type) := Procedure Failure (Session δ) α

variable {δ : Type}

/-- `Connection::Run`. -/
def send (st : Statement Bytes) : Run δ Unit := do
  let s ← get
  match Savepoints.execute st s.server with
  | some server => set {s with server := server, sent := s.sent ++ [st]}
  | none =>
    set {s with server := Savepoints.refuse s.server, sent := s.sent ++ [st]}
    throw Failure.database

/-- `Boundaries::Depth`. -/
def Session.depth (s : Session δ) : Nat := s.boundaries.names.length

instance : Connected Failure (Session δ) where
  boundaries := Session.boundaries
  update f s := {s with boundaries := f s.boundaries}
  raise := id
  run := send
  inTransaction := return (← get).server.inTransaction
  inFailedTransaction := return (← get).server.failed
  lockCommandCommit := return

section
open Procedure
variable (s : Session δ)

@[simp] theorem boundaries_session : Connected.boundaries s = s.boundaries := rfl

@[simp] theorem exec_modifyBoundaries (f : Boundaries → Boundaries) :
    exec (modifyBoundaries f) s = (.ok (), {s with boundaries := f s.boundaries}) := rfl

@[simp] theorem exec_refuse (failure : Failure) : exec (refuse failure) s = (.error failure, s) := rfl

@[simp] theorem exec_run (st : Statement Bytes) : exec (Connected.run st) s = exec (send st) s := rfl

@[simp] theorem exec_inTransaction : exec Connected.inTransaction s = (.ok s.server.inTransaction, s) := rfl

@[simp] theorem exec_inFailedTransaction :
    exec Connected.inFailedTransaction s = (.ok s.server.failed, s) := rfl

@[simp] theorem exec_lockCommandCommit : exec Connected.lockCommandCommit s = (.ok (), s) := rfl

end

end Agiru.Transaction
