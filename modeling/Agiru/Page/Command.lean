import Agiru.Library.Undo

/-! Commands of a page: `PageCommandHost::Write`.

A page context has its revision in memory and in the database, and a receipt in the database
for every command that was admitted. The receipt is started in a transaction of its own,
completed in the transaction of the command, and failed in one after it. Each statement of
`Write` is a step; each can fail, and a statement that commits can fail after it has done so.
Requests to one context do not overlap: `Write` holds the context's lock. -/
namespace Agiru.Page
open Undo

/-! ### The database -/

inductive Outcome (Html : Type)
  | started
  | complete (html : Html) (pageId : Int)
  | failed
  deriving DecidableEq

/-- A row of `page_commands`. -/
structure Receipt (Html : Type) where
  payloadDigest : String
  outcome : Outcome Html
  deriving DecidableEq

/-- The context's row of `page_contexts`, its receipts, and all other data. -/
structure Database (Html Change : Type) where
  revision : Nat := 0
  invalidated : Bool := false
  receipts : String → Option (Receipt Html) := fun _ => none
  data : List Change := []

/-- What a command's transaction writes. -/
inductive Write (Html Change : Type)
  | data (change : Change)
  | revision (value : Nat)
  | complete (command : String) (html : Html) (pageId : Int)

/-- A committed transaction of a command: what it wrote, and whether the executed code asked for
the commit. -/
structure Transaction (Html Change : Type) where
  command : String
  explicit : Bool
  writes : List (Write Html Change)

variable {Body Html Change : Type}

namespace Database

/-- `UPDATE page_commands SET outcome`. -/
def setOutcome (db : Database Html Change) (command : String) (outcome : Outcome Html) :
    Database Html Change :=
  {db with
    receipts := Function.update db.receipts command
      ((db.receipts command).map fun receipt => {receipt with outcome})}

def apply (db : Database Html Change) : Write Html Change → Database Html Change
  | .data change => {db with data := db.data ++ [change]}
  | .revision value => {db with revision := value}
  | .complete command html pageId => db.setOutcome command (.complete html pageId)

/-- `COMMIT`. -/
def commit (db : Database Html Change) (writes : List (Write Html Change)) : Database Html Change :=
  writes.foldl apply db

end Database

/-! ### Requests -/

/-- The parameters of a request that `Write` itself looks at. -/
structure Values where
  revision : String
  command : String
  csrf : String

/-- `Number`: decimal digits of an `int64_t`. -/
def number (text : String) : Option Nat :=
  if text.toList ≠ [] ∧ text.toList.all Char.isDigit then
    let value := text.toList.foldl (fun value digit => 10 * value + (digit.toNat - 48)) 0
    if value ≤ 9223372036854775807 then some value else none
  else none

/-- The context in memory. -/
structure Context where
  csrf : String
  commandPrefix : String
  revision : Nat := 0
  invalid : Bool := false

/-- A command id that the context has issued: its prefix, `_` and a number. -/
def Context.issued (context : Context) (command : String) : Bool :=
  (context.commandPrefix ++ "_").toList.isPrefixOf command.toList &&
    (number (String.ofList (command.toList.drop (context.commandPrefix.length + 1)))).isSome

/-- What a client is told: a page, or an error with an outcome. An error that is not the page
host's own is reported with the outcome `unknown`, wherever it was thrown. -/
inductive Answer (Html : Type)
  | html (html : Html)
  | refused
  | failed
  | unknown

/-- A request that was answered, with the receipt that it found under its command, and whether
its protected block was begun. -/
structure Response (Body Html : Type) where
  body : Body
  stored : Option (Receipt Html)
  begun : Bool
  answer : Answer Html

/-- The next statement of `Write`. -/
inductive Pc (Body Html : Type)
  | idle
  | owned (body : Body) (values : Values)
  | replay (body : Body) (command : String) (html : Html) (pageId : Int)
  | insert (body : Body) (command : String)
  | attach (body : Body) (command : String)
  | execute (body : Body) (command : String)
  | render (body : Body) (command : String)
  | updateRevision (body : Body) (command : String) (html : Html) (pageId : Int)
  | complete (body : Body) (command : String) (html : Html) (pageId : Int)
  | keep (body : Body) (command : String) (html : Html) (pageId : Int)
  | invalidate (body : Body) (command : String)
  | markFailed (body : Body) (command : String)

/-- The request and command of a statement in the protected block. -/
def Pc.trying : Pc Body Html → Option (Body × String)
  | .attach body command | .execute body command | .render body command
  | .updateRevision body command .. | .complete body command .. | .keep body command .. =>
    some (body, command)
  | _ => none

structure State (Body Html Change : Type) where
  context : Context
  database : Database Html Change := {}
  /-- What the open transaction has written. -/
  pending : List (Write Html Change) := []
  pc : Pc Body Html := .idle
  /-- The commands that were executed, the transactions that were committed, and the requests
  that were answered, the newest first: no step reads them. -/
  executed : List String := []
  commits : List (Transaction Html Change) := []
  responses : List (Response Body Html) := []

namespace State

/-- `Ownership`: the context is valid, here and in the database, and at one revision. -/
structure Owned (s : State Body Html Change) : Prop where
  valid : s.context.invalid = false
  row : s.database.invalidated = false
  revision : s.database.revision = s.context.revision

/-- The open transaction of the command ends, committed or not. -/
def settle (s : State Body Html Change) (command : String) (explicit kept : Bool) :
    State Body Html Change :=
  if kept then
    {s with
      database := s.database.commit s.pending
      commits := ⟨command, explicit, s.pending⟩ :: s.commits
      pending := []}
  else {s with pending := []}

/-- The request is answered. -/
def answer (s : State Body Html Change) (response : Response Body Html) : State Body Html Change :=
  {s with pc := .idle, responses := response :: s.responses}

/-- `Invalidate` begins. -/
def invalidating (s : State Body Html Change) (body : Body) (command : String) :
    State Body Html Change :=
  {s with context := {s.context with invalid := true}, pc := .invalidate body command}

end State

/-- One statement of `Write`. -/
inductive Step (parse : Body → Option Values) (digest : Body → String)
    (s : State Body Html Change) : State Body Html Change → Prop
  /-- A request that is not understood, or whose client does not own the context. -/
  | refuse (body : Body) (answer : Answer Html) : s.pc = .idle → answer ∈ [.refused, .unknown] →
    Step parse digest s (s.answer
      ⟨body, (parse body).bind fun values => s.database.receipts values.command, false, answer⟩)
  | own (body : Body) (values : Values) : s.pc = .idle → parse body = some values → s.Owned →
    values.csrf = s.context.csrf → Step parse digest s {s with pc := .owned body values}
  /-- `Replay` finds no complete receipt of this body, or the request is not the next. -/
  | leave (body : Body) (values : Values) (answer : Answer Html) : s.pc = .owned body values →
    answer ∈ [.refused, .unknown] →
    Step parse digest s (s.answer ⟨body, s.database.receipts values.command, false, answer⟩)
  | found (body : Body) (values : Values) (html : Html) (pageId : Int) :
    s.pc = .owned body values →
    s.database.receipts values.command = some ⟨digest body, .complete html pageId⟩ →
    Step parse digest s {s with pc := .replay body values.command html pageId}
  | replay (body : Body) (command : String) (html : Html) (pageId : Int) :
    s.pc = .replay body command html pageId → s.Owned →
    Step parse digest s (s.answer
      ⟨body, some ⟨digest body, .complete html pageId⟩, false, .html html⟩)
  | leaveReplay (body : Body) (command : String) (html : Html) (pageId : Int) (answer : Answer Html) :
    s.pc = .replay body command html pageId → answer ∈ [.refused, .unknown] →
    Step parse digest s (s.answer ⟨body, some ⟨digest body, .complete html pageId⟩, false, answer⟩)
  /-- The request is a new command at the context's revision. -/
  | receive (body : Body) (values : Values) : s.pc = .owned body values →
    s.database.receipts values.command = none →
    number values.revision = some s.context.revision →
    s.context.issued values.command = true →
    Step parse digest s {s with pc := .insert body values.command}
  /-- `INSERT INTO page_commands ... 'started'`. -/
  | insert (body : Body) (command : String) : s.pc = .insert body command →
    Step parse digest s {s with
      database := {s.database with
        receipts := Function.update s.database.receipts command (some ⟨digest body, .started⟩)}
      pc := .attach body command}
  /-- The insertion fails, before or after its commit. -/
  | insertFails (body : Body) (command : String) (kept : Bool) (answer : Answer Html) :
    s.pc = .insert body command → answer ∈ [.refused, .unknown] →
    Step parse digest s
      ({s with database := if kept then {s.database with
          receipts := Function.update s.database.receipts command (some ⟨digest body, .started⟩)}
        else s.database}.answer ⟨body, none, false, answer⟩)
  /-- The command's transaction begins. -/
  | attach (body : Body) (command : String) : s.pc = .attach body command → s.Owned →
    Step parse digest s {s with pc := .execute body command, executed := command :: s.executed}
  /-- `Execute` writes. -/
  | change (body : Body) (command : String) (change : Change) : s.pc = .execute body command →
    Step parse digest s {s with pending := s.pending ++ [.data change]}
  /-- A nested transaction of the executed code is rolled back. -/
  | rollback (body : Body) (command : String) (kept : List (Write Html Change)) :
    s.pc = .execute body command → kept <+: s.pending → Step parse digest s {s with pending := kept}
  /-- An explicit `Commit` of the executed code. -/
  | commit (body : Body) (command : String) : s.pc = .execute body command →
    Step parse digest s (s.settle command true true)
  | commitFails (body : Body) (command : String) (kept : Bool) : s.pc = .execute body command →
    Step parse digest s ((s.settle command true kept).invalidating body command)
  /-- `++context->revision`, and a new prefix. -/
  | count (body : Body) (command commandPrefix : String) : s.pc = .execute body command →
    s.context.revision ≠ 9223372036854775807 →
    Step parse digest s {s with
      context := {s.context with revision := s.context.revision + 1, commandPrefix}
      pc := .render body command}
  | render (body : Body) (command : String) (html : Html) (pageId : Int) :
    s.pc = .render body command →
    Step parse digest s {s with pc := .updateRevision body command html pageId}
  /-- `UPDATE page_contexts SET revision = $2 WHERE revision = $2 - 1`. -/
  | updateRevision (body : Body) (command : String) (html : Html) (pageId : Int) :
    s.pc = .updateRevision body command html pageId →
    s.database.revision + 1 = s.context.revision →
    Step parse digest s {s with
      pending := s.pending ++ [.revision s.context.revision]
      pc := .complete body command html pageId}
  /-- `UPDATE page_commands SET outcome = 'complete'`. -/
  | complete (body : Body) (command : String) (html : Html) (pageId : Int) :
    s.pc = .complete body command html pageId →
    Step parse digest s {s with
      pending := s.pending ++ [.complete command html pageId]
      pc := .keep body command html pageId}
  /-- `command.Keep()`. -/
  | keep (body : Body) (command : String) (html : Html) (pageId : Int) :
    s.pc = .keep body command html pageId →
    Step parse digest s ((s.settle command false true).answer ⟨body, none, true, .html html⟩)
  /-- The commit fails, before or after its effect. -/
  | keepFails (body : Body) (command : String) (html : Html) (pageId : Int) (kept : Bool) :
    s.pc = .keep body command html pageId →
    Step parse digest s ((s.settle command false kept).invalidating body command)
  /-- A statement of the protected block fails: its transaction is rolled back. -/
  | fails (body : Body) (command : String) : s.pc.trying = some (body, command) →
    Step parse digest s ((s.settle command false false).invalidating body command)
  /-- `UPDATE page_contexts SET invalidated = true`. -/
  | invalidate (body : Body) (command : String) : s.pc = .invalidate body command →
    Step parse digest s {s with
      database := {s.database with invalidated := true}
      pc := .markFailed body command}
  | invalidateFails (body : Body) (command : String) (kept : Bool) :
    s.pc = .invalidate body command →
    Step parse digest s
      ({s with database := {s.database with invalidated := s.database.invalidated || kept}}.answer
        ⟨body, none, true, .unknown⟩)
  /-- `UPDATE page_commands SET outcome = 'failed' WHERE outcome = 'started'`. -/
  | markFailed (body : Body) (command payloadDigest : String) : s.pc = .markFailed body command →
    s.database.receipts command = some ⟨payloadDigest, .started⟩ →
    Step parse digest s
      ({s with database := s.database.setOutcome command .failed}.answer ⟨body, none, true, .failed⟩)
  | markFailedFails (body : Body) (command payloadDigest : String) :
    s.pc = .markFailed body command →
    s.database.receipts command = some ⟨payloadDigest, .started⟩ →
    Step parse digest s
      ({s with database := s.database.setOutcome command .failed}.answer ⟨body, none, true, .unknown⟩)
  /-- No receipt is there to mark, or the statement fails. -/
  | markNone (body : Body) (command : String) : s.pc = .markFailed body command →
    Step parse digest s (s.answer ⟨body, none, true, .unknown⟩)

/-- The runs of a context, from the time it was opened. -/
abbrev Reached (parse : Body → Option Values) (digest : Body → String) (s : State Body Html Change) :
    Prop :=
  Reachable (fun first : State Body Html Change => ∃ csrf commandPrefix,
    first = {context := {csrf, commandPrefix}}) (Step parse digest) s

end Agiru.Page
