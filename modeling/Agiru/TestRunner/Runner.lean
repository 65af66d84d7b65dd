import Agiru.TestRunner.Settled

/-! The test runner: registered codeunits, their isolation, and what a run reports.

`traces` keeps, for each part of a run, the session before and after it and its code's course; the program keeps
none of it. -/
namespace Agiru.TestRunner
open Procedure
open Transaction (Session)

/-- What a test's code raises. -/
inductive Raised
  | boundaries (failure : Transaction.Failure)
  | error (text : Bytes)
  | exception (text : Bytes)
  | foreign

inductive TransactionModel
  | autoCommit
  | autoRollback
  | none
  deriving DecidableEq

inductive TestIsolation
  | disabled
  | codeunit
  | function
  deriving DecidableEq

structure TestResult where
  codeunit : Bytes
  method : Bytes
  passed : Bool
  error : Bytes := []
  deriving Repr, DecidableEq

structure TestRun where
  results : List TestResult := []
  passed : Nat := 0
  failed : Nat := 0
  deriving Repr, DecidableEq

variable {δ : Type}

/-- What code does at a depth, where it is called: its acts, what it raises, and the handlers that never ran. -/
structure Behaviour (δ : Type) (depth : Nat) where
  acts : List (Act δ)
  above : ∀ act ∈ acts, act.Above depth
  raised : Option Raised := none
  missed : List Bytes := []

/-- Code, by what the session holds when it is called. -/
abbrev Code (δ : Type) := (s : Session δ) → Behaviour δ s.depth

structure TestMethod (δ : Type) where
  name : Bytes
  model : Option TransactionModel := none
  invoke : Code δ

structure TestCatalogue (δ : Type) where
  name : Bytes
  requiredTestIsolation : Bytes := []
  onRun : Option (Code δ) := none
  methods : List (TestMethod δ)

/-- A part of a run. -/
inductive Part
  | onRun
  | method (name : Bytes) (model : Option TransactionModel)
  | codeunit
  | refused (method : Bytes)
  deriving DecidableEq

structure Trace (δ : Type) where
  part : Part
  before : Session δ
  course : Course δ
  after : Session δ
  passed : Bool

structure Runner (δ : Type) where
  session : Session δ
  run : TestRun := {}
  /-- The course of the code called last. -/
  course : Course δ
  traces : List (Trace δ) := []

abbrev Run (δ α : Type) := Procedure Raised (Runner δ) α

/-- A member of the session's boundaries. -/
def boundaries {α : Type} (p : Transaction.Run δ α) : Run δ α := do
  let r ← get
  let (result, session) := exec p r.session
  set {r with session}
  match result with
  | .ok a => return a
  | .error failure => throw (.boundaries failure)

/-- What a body comes to, raised or not. -/
def attempt {α : Type} (p : Run δ α) : Run δ (Except Raised α) :=
  tryCatch (Except.ok <$> p) fun e => pure (.error e)

def rethrow {α : Type} : Except Raised α → Run δ α
  | .ok a => return a
  | .error e => throw e

/-- The code of a test. -/
def call (auto : Bool) (code : Code δ) : Run δ (List Bytes) := do
  let r ← get
  let behaviour := code r.session
  let course := (Course.start r.session).run auto behaviour.acts
  set {r with session := course.now, course}
  match behaviour.raised with
  | some raised => throw raised
  | none => return behaviour.missed

/-- A part of the run, traced. -/
def traced {α : Type} (part : Part) (passed : α → Bool) (p : Run δ α) : Run δ α := do
  let before := (← get).session
  modify fun r => {r with course := .start before}
  let outcome ← attempt p
  modify fun r => {r with traces := r.traces ++
    [⟨part, before, r.course, r.session, match outcome with | .ok a => passed a | .error _ => false⟩]}
  rethrow outcome

/-- A `Scope` that an exception leaves. -/
def unwinding {α : Type} (depth : Nat) (p : Run δ α) : Run δ α :=
  tryCatch p fun raised => do
    let _ ← attempt (boundaries (Transaction.rollback depth))
    throw raised

/-- An `IsolationFloor`. -/
def withFloor {α : Type} (depth : Nat) (p : Run δ α) : Run δ α := do
  let previous ← boundaries (Transaction.setIsolationFloor depth)
  let outcome ← attempt p
  let _ ← boundaries (Transaction.setIsolationFloor previous)
  rethrow outcome

/-- A `Scope` with its `IsolationFloor`, which is rolled back in the end. -/
def isolated {α : Type} (p : Run δ α) : Run δ α := do
  let depth ← boundaries Transaction.openBoundary
  withFloor depth do
    let a ← unwinding depth p
    boundaries (Transaction.rollback depth)
    return a

/-! ### Results -/

/-- The text of a raised error; a refused statement carries the server's. -/
def Raised.text (refused : Bytes) : Raised → Bytes
  | boundaries failure => failure.text refused
  | error text => text
  | exception text => text
  | foreign => []

/-- `RunOne`'s diagnostic. -/
def Raised.diagnostic (refused : Bytes) : Raised → Bytes
  | exception text =>
    Bytes.ascii "this case left a C++ exception rather than an AL error, which is a defect in the runtime " ++
      Bytes.ascii "and not in the test: " ++ text
  | raised => raised.text refused

def missedText (names : List Bytes) : Bytes :=
  Bytes.ascii "The handler(s) " ++ List.intercalate (Bytes.ascii ", ") names ++
    Bytes.ascii " were named and never ran (board:0054)"

/-- `AppendResult`. -/
def appendResult (result : TestResult) : Run δ Unit :=
  modify fun r => {r with run :=
    { results := r.run.results ++ [result]
      passed := if result.passed then r.run.passed + 1 else r.run.passed
      failed := if result.passed then r.run.failed else r.run.failed + 1 }}

def isolationName : TestIsolation → Bytes
  | .disabled => Bytes.ascii "Disabled"
  | .codeunit => Bytes.ascii "Codeunit"
  | .function => Bytes.ascii "Function"

/-- `IsolationError`, where there is one. -/
def isolationError (required : Bytes) (isolation : TestIsolation) : Option Bytes :=
  if required.isEmpty || Bytes.sameText required (Bytes.ascii "None") ||
      Bytes.sameText required (isolationName isolation) then none
  else if !([.disabled, .codeunit, .function].any fun known => Bytes.sameText required (isolationName known)) then
    some (Bytes.ascii "Invalid RequiredTestIsolation: " ++ required)
  else some (Bytes.ascii "RequiredTestIsolation " ++ required ++
    Bytes.ascii " is incompatible with TestIsolation " ++ isolationName isolation)

/-- `Named`. -/
def named (list name : Bytes) : Bool := name ∈ list.splitOn Bytes.Ch.comma

/-! ### The runner -/

section
variable (refused : Bytes)

/-- The end of `RunOne`, for code that returned in the scope at `depth`. -/
def returned (result : Bool → Bytes → TestResult) (auto commitOnSuccess : Bool) (depth : Nat)
    (missed : List Bytes) : Run δ TestResult := do
  if !missed.isEmpty then
    boundaries (Transaction.rollback depth)
    return result false (missedText missed)
  else if auto then
    boundaries (Transaction.rollback depth)
    return result true []
  else
    match ← attempt (if commitOnSuccess then boundaries Transaction.commit else pure ()) with
    | .error raised =>
      boundaries (Transaction.rollback depth)
      return result false (raised.text refused)
    | .ok _ =>
      boundaries (Transaction.release depth)
      return result true []

/-- `RunOne`. -/
def runOne (codeunit : Bytes) (method : TestMethod δ) (commitOnSuccess : Bool) : Run δ TestResult := do
  let result (passed : Bool) (error : Bytes) : TestResult := ⟨codeunit, method.name, passed, error⟩
  let auto : Bool := method.model = some .autoRollback
  let depth ← boundaries Transaction.openBoundary
  match ← attempt (call auto method.invoke) with
  | .error .foreign => unwinding depth (throw .foreign)
  | .error raised =>
    boundaries (Transaction.rollback depth)
    return result false (raised.diagnostic refused)
  | .ok missed => returned refused result auto commitOnSuccess depth missed

/-- `RunSelectedMethod`. -/
def runSelectedMethod (codeunit : Bytes) (method : TestMethod δ) (isolation : TestIsolation) : Run δ TestResult :=
  traced (.method method.name method.model) TestResult.passed <|
    if isolation = .function then isolated (runOne refused codeunit method false)
    else runOne refused codeunit method (isolation = .disabled && method.model ≠ some .none)

/-- The methods of a codeunit, those selected. -/
def runMethods (codeunit : Bytes) (isolation : TestIsolation) (only : Option Bytes) :
    List (TestMethod δ) → Run δ Unit
  | [] => return
  | method :: rest => do
    if (only.map fun list => named list method.name).getD true then
      appendResult (← runSelectedMethod refused codeunit method isolation)
    runMethods codeunit isolation only rest

/-- The `OnRun` of a codeunit; one that fails answers the result to append. -/
def runOnRun (catalogue : TestCatalogue δ) : Run δ (Option TestResult) :=
  match catalogue.onRun with
  | none => return none
  | some code => do
    match ← attempt (traced .onRun (fun _ => true) (call false code)) with
    | .ok _ => return none
    | .error .foreign => throw .foreign
    | .error raised => return some ⟨catalogue.name, Bytes.ascii "OnRun", false, raised.text refused⟩

/-- The parts of a codeunit; an `OnRun` that fails ends it. -/
def runParts (catalogue : TestCatalogue δ) (isolation : TestIsolation) (only : Option Bytes) :
    Run δ (Option TestResult) := do
  let failed ← runOnRun refused catalogue
  if failed.isNone then runMethods refused catalogue.name isolation only catalogue.methods
  return failed

/-- The isolation of a codeunit. -/
def runIsolated (catalogue : TestCatalogue δ) (isolation : TestIsolation) (only : Option Bytes) :
    Run δ (Option TestResult) :=
  if isolation = .codeunit then isolated (runParts refused catalogue isolation only)
  else runParts refused catalogue isolation only

/-- The refusal of a codeunit that requires another isolation. -/
def refuseMethods (codeunit refusal : Bytes) : List (TestMethod δ) → Run δ Unit
  | [] => return
  | method :: rest => do
    traced (.refused method.name) (fun _ => false) (appendResult ⟨codeunit, method.name, false, refusal⟩)
    refuseMethods codeunit refusal rest

/-- `RunRegisteredTests`, over the codeunits in their order. -/
def runRegisteredTests (codeunit : Bytes) (isolation : TestIsolation) (only : Option Bytes) :
    List (TestCatalogue δ) → Run δ Unit
  | [] => return
  | catalogue :: rest => do
    if codeunit.isEmpty || catalogue.name = codeunit then
      match isolationError catalogue.requiredTestIsolation isolation with
      | some refusal => refuseMethods catalogue.name refusal catalogue.methods
      | none =>
        match ← traced .codeunit (fun _ => true) (runIsolated refused catalogue isolation only) with
        | some result => appendResult result
        | none => pure ()
    runRegisteredTests codeunit isolation only rest

end

end Agiru.TestRunner
