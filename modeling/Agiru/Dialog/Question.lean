import Agiru.Library.Undo
import Agiru.Values.Field

/-! Dialogs of a page call.

`Ask` publishes a question, in memory and as a row of `page_dialogs`, waits for an answer, takes
the question back and closes the row. A request answers: it holds the call's mutex while it
records the choice in the row and, where the row took it, in memory. One call is modelled, with
its session and any number of requests; other calls may write rows of their own. Every
statement is a step of its own, and may fail before or after it took effect. -/
namespace Agiru.Dialog
open Bytes

structure DialogRow where
  call : Bytes
  user : Guid
  host : Bytes
  choices : Nat
  answer : Option Nat := none
  closed : Bool := false
  expiresAt : Int
  deriving DecidableEq

/-- `page_dialogs`, by handle. -/
abbrev Dialogs := Bytes → Option DialogRow

structure PageQuestion where
  handle : Bytes
  kind : Bytes
  prompt : Bytes
  choices : List Bytes
  defaultChoice : Int := 0
  answer : Option Nat := none
  deriving DecidableEq

abbrev maximumChoices : Nat := 128
abbrev transportBytes : Nat := 1048576

/-- What `Ask` accepts for the transport. -/
def PageQuestion.fits (question : PageQuestion) : Bool :=
  question.prompt.length + (question.choices.map List.length).sum ≤ transportBytes &&
    question.choices.length ≤ maximumChoices && 0 ≤ question.defaultChoice &&
    question.defaultChoice < question.choices.length

structure PageCall where
  handle : Bytes
  user : Guid
  host : Bytes
  question : Option PageQuestion := none
  questions : Nat := 0
  finished : Bool := false
  cancelled : Bool := false

/-! ### Requests -/

/-- The text before the last `_` of a command, and the text after it. -/
def splitCommand (command : Bytes) : Option (Bytes × Bytes) :=
  match command.reverse.span (· ≠ 95) with
  | (_, []) => none
  | (value, _ :: handle) => some (handle.reverse, value.reverse)

/-- `std::from_chars`, of a choice that is written as `std::to_string` writes it. -/
def choiceOf (value : Bytes) : Option Nat :=
  if value ≠ [] ∧ value.all isDigit ∧ digitsValue value < 2 ^ 31 ∧ value = natText (digitsValue value) then
    some (digitsValue value)
  else none

/-- The dialog and the choice that a request names. -/
def parseAnswer (command control : Bytes) : Option (Bytes × Nat) :=
  match splitCommand command with
  | none => none
  | some (handle, value) =>
    if control ≠ ascii "$agiru.answer_" ++ command then none
    else (choiceOf value).map fun choice => (handle, choice)

inductive Response
  /-- The choice was recorded by this request. -/
  | recorded
  /-- The choice was recorded before. -/
  | replayed
  /-- `PageHostInput`: the open question does not offer the choice. -/
  | input
  /-- `PageHostDialogStale`. -/
  | stale
  /-- Turned away by the host, or names no choice, or a statement failed. -/
  | failed
  deriving DecidableEq

/-- A request that ended, with the row that its last statement saw, and when. -/
structure Answered where
  handle : Bytes
  choice : Nat
  row : Option DialogRow
  time : Int
  response : Response

/-- The next statement of `AcceptPageAnswer`. -/
inductive RequestPc
  | idle
  | update (handle : Bytes) (choice : Nat)
  | replay (handle : Bytes) (choice : Nat)
  deriving DecidableEq

/-! ### The session -/

inductive AskOutcome
  | returned (choice : Nat)
  | raised
  deriving DecidableEq

/-- The next statement of `Ask`. -/
inductive AskPc
  | idle
  | waiting
  /-- The question was taken back. -/
  | closing (question : PageQuestion) (answered : Bool)
  deriving DecidableEq

structure State where
  clock : Int := 0
  dialogs : Dialogs := fun _ => none
  call : PageCall
  asking : AskPc := .idle
  /-- The request that holds the call's mutex. -/
  mutex : Option Nat := none
  requests : Nat → RequestPc := fun _ => .idle
  /-- The questions that were asked and the requests that ended, the newest first: no step
  reads them. -/
  asked : List (PageQuestion × AskOutcome) := []
  answers : List Answered := []

namespace State

/-- A row that a statement of the call names. -/
def owns (s : State) (row : DialogRow) : Prop :=
  row.call = s.call.handle ∧ row.user = s.call.user ∧ row.host = s.call.host

instance (s : State) (row : DialogRow) : Decidable (s.owns row) := inferInstanceAs (Decidable (_ ∧ _ ∧ _))

/-- Whether a request finds the question open. -/
def active (s : State) (handle : Bytes) : Bool :=
  !s.call.finished && !s.call.cancelled && s.call.question.any fun question => question.handle = handle

/-- The row of a new question. -/
def rowOf (s : State) (question : PageQuestion) (expiresAt : Int) : DialogRow where
  call := s.call.handle
  user := s.call.user
  host := s.call.host
  choices := question.choices.length
  expiresAt := expiresAt

/-- A row is written. -/
def write (s : State) (handle : Bytes) (row : DialogRow) : State :=
  {s with dialogs := Function.update s.dialogs handle (some row)}

/-- A question ends. -/
def tell (s : State) (question : PageQuestion) (outcome : AskOutcome) : State :=
  {s with asking := .idle, asked := (question, outcome) :: s.asked}

/-- A request ends and gives the mutex back. -/
def respond (s : State) (request : Nat) (answered : Answered) : State :=
  {s with
    mutex := none
    requests := Function.update s.requests request .idle
    answers := answered :: s.answers}

/-- What the condition of the update asks of a row. -/
def takes (s : State) (choice : Nat) (row : DialogRow) : Prop :=
  s.owns row ∧ row.closed = false ∧ row.answer = none ∧ s.clock < row.expiresAt ∧ choice < row.choices

instance (s : State) (choice : Nat) (row : DialogRow) : Decidable (s.takes choice row) :=
  inferInstanceAs (Decidable (_ ∧ _ ∧ _ ∧ _ ∧ _))

/-- The row that a `SELECT` for a replay finds. -/
def seen (s : State) (handle : Bytes) : Option DialogRow :=
  (s.dialogs handle).filter fun row => s.owns row ∧ s.clock < row.expiresAt

end State

/-- Tables that differ in other calls' rows only. -/
def SameFor (call : Bytes) (before after : Dialogs) : Prop :=
  (∀ handle row, before handle = some row → row.call = call → after handle = some row) ∧
    ∀ handle row, after handle = some row → row.call = call → before handle = some row

/-- One statement. -/
inductive Step (s : State) : State → Prop
  | time (clock : Int) : s.clock ≤ clock → Step s {s with clock}
  /-- Another call writes. -/
  | other (dialogs : Dialogs) : SameFor s.call.handle s.dialogs dialogs → Step s {s with dialogs}
  | cancel : s.mutex = none → Step s {s with call := {s.call with cancelled := true}}
  | finish : s.mutex = none → s.asking = .idle → Step s {s with call := {s.call with finished := true}}
  /-- `Ask` refuses a question, or cannot publish it: the row may have been inserted. -/
  | decline (question : PageQuestion) : s.asking = .idle → Step s (s.tell question .raised)
  | publishFails (question : PageQuestion) (expiresAt : Int) : s.asking = .idle → s.mutex = none →
    s.call.question = none → question.fits → question.answer = none → s.dialogs question.handle = none →
    Step s ((s.write question.handle (s.rowOf question expiresAt)).tell question .raised)
  | publish (question : PageQuestion) (expiresAt : Int) : s.asking = .idle → s.mutex = none →
    s.call.question = none → s.call.finished = false → s.call.cancelled = false → question.fits →
    question.answer = none → s.dialogs question.handle = none → s.clock < expiresAt →
    Step s {s.write question.handle (s.rowOf question expiresAt) with
      call := {s.call with question := some question, questions := s.call.questions + 1}
      asking := .waiting}
  /-- The wait ends: an answer, a cancellation, the deadline, or an authority that is gone. What
  is in memory is looked at and taken back under the mutex. -/
  | wake (question : PageQuestion) (ready : Bool) : s.asking = .waiting → s.mutex = none →
    s.call.question = some question →
    Step s {s with
      call := {s.call with question := none}
      asking := .closing question (ready && !s.call.cancelled && question.answer.isSome)}
  /-- `CloseQuestion`, and what `Ask` returns then. -/
  | close (question : PageQuestion) (answered : Bool) (row : DialogRow) :
    s.asking = .closing question answered → s.dialogs question.handle = some row →
    Step s ((s.write question.handle {row with closed := true}).tell question
      (match answered, question.answer with
        | true, some choice => .returned choice
        | _, _ => .raised))
  | closeFails (question : PageQuestion) (answered kept : Bool) (row : DialogRow) :
    s.asking = .closing question answered → s.dialogs question.handle = some row →
    Step s ((s.write question.handle {row with closed := row.closed || kept}).tell question .raised)
  /-- A request that the host turns away, or that names no choice. -/
  | turnAway (handle : Bytes) (choice : Nat) :
    Step s {s with answers := ⟨handle, choice, none, s.clock, .failed⟩ :: s.answers}
  /-- A choice that the open question does not offer. -/
  | unoffered (command control handle : Bytes) (choice : Nat) (question : PageQuestion) :
    s.mutex = none → parseAnswer command control = some (handle, choice) → s.active handle = true →
    s.call.question = some question → question.choices.length ≤ choice →
    Step s {s with answers := ⟨handle, choice, none, s.clock, .input⟩ :: s.answers}
  | beginActive (request : Nat) (command control handle : Bytes) (choice : Nat) (question : PageQuestion) :
    s.requests request = .idle → s.mutex = none → parseAnswer command control = some (handle, choice) →
    s.active handle = true → s.call.question = some question → choice < question.choices.length →
    Step s {s with
      mutex := some request
      requests := Function.update s.requests request (.update handle choice)}
  | beginInactive (request : Nat) (command control handle : Bytes) (choice : Nat) :
    s.requests request = .idle → s.mutex = none → parseAnswer command control = some (handle, choice) →
    s.active handle = false →
    Step s {s with
      mutex := some request
      requests := Function.update s.requests request (.replay handle choice)}
  /-- `UPDATE page_dialogs SET answer`, and then the answer in memory. -/
  | update (request : Nat) (handle : Bytes) (choice : Nat) (row : DialogRow) (question : PageQuestion) :
    s.requests request = .update handle choice → s.dialogs handle = some row → s.takes choice row →
    s.call.question = some question →
    Step s ({s.write handle {row with answer := some choice} with
        call := {s.call with question := some {question with answer := some choice}}}.respond request
      ⟨handle, choice, some row, s.clock, .recorded⟩)
  /-- No row took the choice. -/
  | updateNone (request : Nat) (handle : Bytes) (choice : Nat) : s.requests request = .update handle choice →
    (∀ row, s.dialogs handle = some row → ¬ s.takes choice row) →
    Step s {s with requests := Function.update s.requests request (.replay handle choice)}
  | updateFails (request : Nat) (handle : Bytes) (choice : Nat) : s.requests request = .update handle choice →
    Step s (s.respond request ⟨handle, choice, none, s.clock, .failed⟩)
  /-- The row took the choice and the request does not learn of it. -/
  | updateLost (request : Nat) (handle : Bytes) (choice : Nat) (row : DialogRow) :
    s.requests request = .update handle choice → s.dialogs handle = some row → s.takes choice row →
    Step s ((s.write handle {row with answer := some choice}).respond request
      ⟨handle, choice, none, s.clock, .failed⟩)
  /-- `SELECT answer FROM page_dialogs`. -/
  | replay (request : Nat) (handle : Bytes) (choice : Nat) : s.requests request = .replay handle choice →
    Step s (s.respond request ⟨handle, choice, s.dialogs handle, s.clock,
      if (s.seen handle).any fun row => row.answer = some choice then .replayed else .stale⟩)
  | replayFails (request : Nat) (handle : Bytes) (choice : Nat) : s.requests request = .replay handle choice →
    Step s (s.respond request ⟨handle, choice, none, s.clock, .failed⟩)

/-- The runs of a call, from its beginning, with any rows of other calls. -/
abbrev Reached (s : State) : Prop :=
  Undo.Reachable (fun first : State => ∃ clock handle user host dialogs,
    (∀ h row, dialogs h = some row → row.call ≠ handle) ∧
    first = {clock, call := {handle, user, host}, dialogs}) Step s

end Agiru.Dialog
