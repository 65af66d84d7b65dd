import Agiru.Library.Undo
import Mathlib.Algebra.Group.Nat.Defs

/-! Modal pages of a call.

The session thread of a call runs the modal pages that its code opens, one in another, and
executes their commands; request threads hand them in. What is done under the call's mutex is
one step, and so is each statement of the thread that is sent outside of it; the steps come in
any order. A statement that fails may have done its work or not. -/
namespace Agiru.Modal
open Undo

/-! ### Tables -/

structure PageModalInput where
  modal : String := ""
  command : String
  operation : String
  control : String
  text : String
  digest : String
  deriving DecidableEq

inductive Outcome
  | queued
  | processed (html : String)
  | failed (html code text : String)
  deriving DecidableEq

/-- A row of `page_modal_commands`. -/
structure Receipt where
  payloadDigest : String
  outcome : Outcome
  deriving DecidableEq

/-- A row of `page_modals`. `expired` is whether `expires_at` has passed. -/
structure ModalRow where
  revision : Nat := 0
  commandPrefix : String
  active : Bool := true
  expired : Bool := false
  deriving DecidableEq

/-! ### The call and its modals -/

structure PageModal where
  commandPrefix : String := ""
  revision : Nat := 0
  input : Option PageModalInput := none
  busy : Bool := true

/-- The next statement of a run of a modal. The page's own code runs while it opens and while
it executes an input, and may run another modal. -/
inductive Pc
  | publish
  | opening
  | snapshot
  | wait
  | start (input : PageModalInput)
  | run (input : PageModalInput)
  | complete (input : PageModalInput) (failure : Option (String × String)) (closed : Bool)
  | close
  | restore
  /-- An error was thrown, and `Restore` is next. -/
  | unwind
  | closeUnwind
  deriving DecidableEq

def Pc.runsCode : Pc → Bool
  | .opening | .run _ => true
  | _ => false

/-- An error may leave the statement. -/
def Pc.throws : Pc → Bool
  | .opening | .snapshot | .wait | .start _ | .run _ | .complete .. => true
  | _ => false

/-- A run of a modal. `parent` is the call's modals as it began. -/
structure Frame where
  handle : String
  parent : List String
  published : Bool := false
  pc : Pc := .publish

/-- An input that was admitted, and the revision of the modal at that time. -/
structure Admission where
  revision : Nat
  input : PageModalInput
  deriving DecidableEq

/-- An input that a modal executed, at a revision of the modal. -/
structure Execution where
  handle : String
  revision : Nat
  input : PageModalInput
  deriving DecidableEq

structure State where
  modals : String → Option ModalRow
  commands : String → String → Option Receipt
  /-- The modal objects, by their handles. -/
  objects : String → PageModal
  /-- `call.modal` and its parents. -/
  modal : List String
  /-- The runs that the thread is in, the innermost first. -/
  frames : List Frame
  finished : Bool := false
  cancelled : Bool := false
  question : Bool := false
  /-- What no step reads: the handles that were drawn, the inputs admitted and executed, and the
  modals whose runs have ended with their receipts closed, the newest first. -/
  handles : List String
  admitted : List Admission
  executed : List Execution
  ended : List String

def State.setModal (s : State) (handle : String) (modal : PageModal) : State :=
  {s with objects := Function.update s.objects handle modal}

def State.setReceipt (s : State) (handle command : String) (receipt : Receipt) : State :=
  {s with commands :=
    Function.update s.commands handle (Function.update (s.commands handle) command (some receipt))}

/-! ### Accepting an input -/

/-- How the statements of `AcceptPageModal` fare. -/
inductive Fault
  | none
  /-- A statement before the insertion fails. -/
  | select
  /-- The call has no capacity left. -/
  | capacity
  /-- The page's context is invalidated, or has expired. -/
  | context
  /-- The insertion fails, or its acknowledgement is lost. -/
  | insert (kept : Bool)
  deriving DecidableEq

inductive Answer
  /-- `finished`, the error, and the body of the response. -/
  | receipt (finished : Bool) (error : Option (String × String)) (body : Option String)
  | fresh
  | refused (code : String)
  | databaseError
  deriving DecidableEq

/-- The response of a receipt's page. -/
def bodyOf (html : String) : Option String := if html = "" then none else some html

def Outcome.answer : Outcome → Answer
  | .queued => .receipt false none none
  | .processed html => .receipt true none (bodyOf html)
  | .failed html code text => .receipt true (some (code, text)) (bodyOf html)

def replayInput (receipt : Receipt) (input : PageModalInput) : Answer :=
  if receipt.payloadDigest ≠ input.digest then .refused "PageHostReplay"
  else receipt.outcome.answer

/-- The receipt of a command, while its modal's row has not expired. -/
def State.replay (s : State) (handle command : String) : Option Receipt :=
  match s.modals handle with
  | some row => if row.expired then none else s.commands handle command
  | none => none

/-- A command's ordinal follows the modal's prefix: `from_chars` reads it, to its end. -/
def ordinalOf (commandPrefix command : String) : Option (List Char) :=
  (commandPrefix ++ "_").toList.isPrefixOf? command.toList

def digitsFit (digits : List Char) : Bool :=
  !digits.isEmpty && digits.all Char.isDigit &&
    digits.foldl (fun value c => 10 * value + (c.toNat - '0'.toNat)) 0 < 2 ^ 64

/-- The row that the insertion selects. -/
def State.selects (s : State) (handle : String) (modal : PageModal) : Bool :=
  match s.modals handle with
  | some row => row.revision = modal.revision && row.commandPrefix = modal.commandPrefix &&
      row.active && !row.expired
  | none => false

/-- The receipt is inserted, and the modal has its input. -/
def State.takes (s : State) (handle : String) (input : PageModalInput) : State :=
  let modal := s.objects handle
  {(s.setReceipt handle input.command ⟨input.digest, .queued⟩).setModal handle
      {modal with input := some input, busy := true} with
    admitted := ⟨modal.revision, input⟩ :: s.admitted}

def State.acceptPageModal (s : State) (handle revision : String) (candidate : PageModalInput)
    (fault : Fault) : State × Answer :=
  let input := {candidate with modal := handle}
  if fault = .select then (s, .databaseError)
  else match s.replay handle input.command with
  | some receipt => (s, replayInput receipt input)
  | none =>
    match s.modal with
    | [] => (s, .refused "PageHostModalStale")
    | current :: _ =>
      let modal := s.objects current
      if s.finished || s.cancelled || s.question || current ≠ handle || modal.busy then
        (s, .refused "PageHostModalStale")
      else match ordinalOf modal.commandPrefix input.command with
        | none => (s, .refused "PageHostRevision")
        | some ordinal =>
          if revision ≠ toString modal.revision then (s, .refused "PageHostRevision")
          else if !digitsFit ordinal then (s, .refused "PageHostInput")
          else if fault = .capacity then (s, .refused "PageHostCapacity")
          else if fault = .context || !s.selects handle modal then
            (s, .refused "PageHostModalStale")
          else if (s.commands handle input.command).isSome then (s, .databaseError)
          else match fault with
            | .insert false => (s, .databaseError)
            | .insert true =>
              (s.setReceipt handle input.command ⟨input.digest, .queued⟩, .databaseError)
            | _ => (s.takes handle input, .fresh)

/-! ### The statements of a run -/

def outcomeOf (html : String) : Option (String × String) → Outcome
  | none => .processed html
  | some (code, text) => .failed html code text

/-- `CompleteInput`, with the number of receipts that it has written. -/
def State.completeInput (s : State) (handle : String) (input : PageModalInput)
    (commandPrefix html : String) (failure : Option (String × String)) (closed : Bool) : State × Nat :=
  match s.modals handle with
  | none => (s, 0)
  | some row =>
    if row.revision = (s.objects handle).revision && row.active then
      let next := {row with revision := row.revision + 1, commandPrefix, active := !closed}
      let fenced := {s with modals := Function.update s.modals handle (some next)}
      match s.commands handle input.command with
      | none => (fenced, 0)
      | some receipt =>
        if receipt.payloadDigest = input.digest && receipt.outcome = .queued then
          (fenced.setReceipt handle input.command ⟨receipt.payloadDigest, outcomeOf html failure⟩, 1)
        else (fenced, 0)
    else (s, 0)

def Receipt.abandoned (receipt : Receipt) : Receipt :=
  if receipt.outcome = .queued then
    ⟨receipt.payloadDigest,
      .failed "" "UiDialogCancelled" "Modal call unwound; reconcile the root command"⟩
  else receipt

/-- `CloseModalReceipt`, with the number of modals that it has closed. -/
def State.closeModalReceipt (s : State) (handle : String) : State × Nat :=
  match s.modals handle with
  | none => (s, 0)
  | some row =>
    let abandoned command := (s.commands handle command).map Receipt.abandoned
    ({s with
      modals := Function.update s.modals handle (some {row with active := false})
      commands := Function.update s.commands handle abandoned}, 1)

/-! ### Steps -/

/-- The thread runs code that may open a modal: of the call's command, or of a modal's page. -/
def State.runsCode (s : State) : Bool :=
  match s.frames with
  | [] => !s.finished
  | f :: _ => f.pc.runsCode

/-- The innermost run goes on. -/
def State.goes (s : State) (f : Frame) (rest : List Frame) (pc : Pc) : State :=
  {s with frames := {f with pc} :: rest}

/-- The innermost run ends, by its result or by an error. -/
def State.ends (s : State) (f : Frame) (rest : List Frame) (closed : Bool) : State :=
  {s with frames := rest, ended := if closed then f.handle :: s.ended else s.ended}

inductive Action
  | accept (handle revision : String) (input : PageModalInput) (fault : Fault) (answer : Answer)
  /-- `Run` ends; `closed` is whether it has closed its receipts, where it has published any. -/
  | exit (f : Frame) (closed : Bool)
  | other

inductive Step (s : State) : Action → State → Prop
  | accept (handle revision input fault) :
      Step s (.accept handle revision input fault
        (s.acceptPageModal handle revision input fault).2)
        (s.acceptPageModal handle revision input fault).1
  | expire (handle row) (hrow : s.modals handle = some row) :
      Step s .other
        {s with modals := Function.update s.modals handle (some {row with expired := true})}
  | cancel : Step s .other {s with cancelled := true}
  | finish (h : s.frames = []) : Step s .other {s with finished := true}
  /-- The code asks a question, or has its answer. -/
  | ask (question) (h : s.runsCode = true) : Step s .other {s with question}
  | enter (handle commandPrefix) (h : s.runsCode = true) (hnew : handle ∉ s.handles)
      (hcall : s.cancelled = false ∧ s.finished = false ∧ s.question = false) :
      Step s .other {s.setModal handle {commandPrefix} with
        modal := handle :: s.modal
        frames := {handle, parent := s.modal} :: s.frames
        handles := handle :: s.handles}
  | publish (f rest) (h : s.frames = f :: rest) (hpc : f.pc = .publish) :
      Step s .other {s with
        modals := Function.update s.modals f.handle
          (some {commandPrefix := (s.objects f.handle).commandPrefix})
        frames := {f with published := true, pc := .opening} :: rest}
  | publishFails (f rest) (kept : Bool) (h : s.frames = f :: rest) (hpc : f.pc = .publish) :
      Step s .other {s.goes f rest .unwind with
        modals := if kept then Function.update s.modals f.handle
          (some {commandPrefix := (s.objects f.handle).commandPrefix}) else s.modals}
  | opened (f rest) (h : s.frames = f :: rest) (hpc : f.pc = .opening) :
      Step s .other (s.goes f rest .snapshot)
  | snapshot (f rest) (h : s.frames = f :: rest) (hpc : f.pc = .snapshot) :
      Step s .other
        ((s.goes f rest .wait).setModal f.handle {s.objects f.handle with busy := false})
  | wait (f rest input) (h : s.frames = f :: rest) (hpc : f.pc = .wait)
      (hcall : s.cancelled = false) (hinput : (s.objects f.handle).input = some input) :
      Step s .other
        ((s.goes f rest (.start input)).setModal f.handle {s.objects f.handle with input := none})
  | execute (f rest input) (h : s.frames = f :: rest) (hpc : f.pc = .start input)
      (hrevision : (s.objects f.handle).revision ≠ 2 ^ 63 - 1) :
      Step s .other {s.goes f rest (.run input) with
        executed := ⟨f.handle, (s.objects f.handle).revision, input⟩ :: s.executed}
  /-- The page has done the command, or has refused it by a validation; or it is closed. -/
  | executed (f rest input failure closed) (h : s.frames = f :: rest) (hpc : f.pc = .run input)
      (hresult : failure = none ∨ closed = false) :
      Step s .other (s.goes f rest (.complete input failure closed))
  | complete (f rest input failure closed commandPrefix html) (h : s.frames = f :: rest)
      (hpc : f.pc = .complete input failure closed)
      (hwritten : (s.completeInput f.handle input commandPrefix html failure closed).2 = 1) :
      Step s .other
        (((s.completeInput f.handle input commandPrefix html failure closed).1.goes f rest
          (if closed then .close else .wait)).setModal f.handle
          {s.objects f.handle with
            revision := (s.objects f.handle).revision + 1
            commandPrefix
            busy := closed})
  /-- The statement fails, or it has written no receipt. -/
  | completeFails (f rest input failure closed commandPrefix html) (kept : Bool) (h : s.frames = f :: rest)
      (hpc : f.pc = .complete input failure closed) :
      Step s .other
        ((if kept then (s.completeInput f.handle input commandPrefix html failure closed).1
          else s).goes f rest .unwind)
  | close (f rest) (h : s.frames = f :: rest) (hpc : f.pc = .close)
      (hclosed : (s.closeModalReceipt f.handle).2 = 1) :
      Step s .other ((s.closeModalReceipt f.handle).1.goes f rest .restore)
  | closeFails (f rest) (kept : Bool) (h : s.frames = f :: rest) (hpc : f.pc = .close) :
      Step s .other ((if kept then (s.closeModalReceipt f.handle).1 else s).goes f rest .unwind)
  | restore (f rest) (h : s.frames = f :: rest) (hpc : f.pc = .restore) :
      Step s (.exit f true) {s.ends f rest true with modal := f.parent}
  | throw (f rest) (h : s.frames = f :: rest) (hpc : f.pc.throws = true) :
      Step s .other (s.goes f rest .unwind)
  | unwind (f rest) (h : s.frames = f :: rest) (hpc : f.pc = .unwind)
      (hpublished : f.published = true) :
      Step s .other {s.goes f rest .closeUnwind with modal := f.parent}
  | unwound (f rest) (h : s.frames = f :: rest) (hpc : f.pc = .unwind)
      (hpublished : f.published = false) :
      Step s (.exit f true) {s.ends f rest true with modal := f.parent}
  | closeUnwind (f rest) (h : s.frames = f :: rest) (hpc : f.pc = .closeUnwind)
      (hclosed : (s.closeModalReceipt f.handle).2 = 1) :
      Step s (.exit f true) ((s.closeModalReceipt f.handle).1.ends f rest true)
  | closeUnwindFails (f rest) (kept : Bool) (h : s.frames = f :: rest) (hpc : f.pc = .closeUnwind) :
      Step s (.exit f false)
        ((if kept then (s.closeModalReceipt f.handle).1 else s).ends f rest false)

/-- A call that has not opened a modal. -/
def State.initial : State where
  modals _ := none
  commands _ _ := none
  objects _ := {}
  modal := []
  frames := []
  handles := []
  admitted := []
  executed := []
  ended := []

def Reached (s : State) : Prop :=
  Reachable (· = .initial) (fun s t => ∃ action, Step s action t) s

end Agiru.Modal
