import Agiru.Library.Delimited
import Agiru.Library.Digits
import Agiru.Library.Undo

/-! The scratch databases of the test runner.

A runner clones its source database under a name of its own, marks the clone with a comment, and drops only what
carries that mark. Each statement is a step, and the statements of any number of runners, of any roles, follow each
other in any order, with those of others between them. A runner holds the advisory lock of its name from the look at
the database to the end of its connection; others leave a database alone whose lock is held. -/
namespace Agiru.Runner
open Bytes Undo

/-! ### What the server has -/

/-- `kMaintenance`. -/
def maintenance : Bytes := ascii "postgres"

/-- `kRunnerMarker`. -/
def runnerMarker : Bytes := ascii "agiru.runner.v1.from."

/-- A row of `pg_database`, with its comment. -/
structure Database where
  oid : Nat
  template : Bool
  owner : Bytes
  comment : Bytes
  deriving DecidableEq

/-- `DatabaseIdentity`, as a role sees it. -/
structure DatabaseIdentity where
  oid : Bytes
  template : Bool
  owned : Bool
  marker : Bytes

/-- `FindDatabase`, of a database that is there. -/
def Database.identity (database : Database) (role : Bytes) : DatabaseIdentity where
  oid := natText database.oid
  template := database.template
  owned := decide (database.owner = role)
  marker := database.comment

/-- `MayReplace`. -/
def DatabaseIdentity.mayReplace (identity : DatabaseIdentity) (marker : Bytes) : Bool :=
  !identity.template && identity.owned && decide (identity.marker = marker)

theorem mayReplace_iff {database : Database} {role marker : Bytes} :
    (database.identity role).mayReplace marker = true ↔
      database.template = false ∧ database.owner = role ∧ database.comment = marker := by
  rw [DatabaseIdentity.mayReplace, Bool.and_eq_true, Bool.and_eq_true, Bool.not_eq_true', decide_eq_true_eq, and_assoc]
  exact and_congr_right fun _ => and_congr_left fun _ => decide_eq_true_iff

/-! ### Its statements -/

/-- `Quoted`. -/
def quoted (name : Bytes) : Bytes := Delimited.delimited Ch.doubleQuote name

def dropText (name : Bytes) : Bytes := ascii "DROP DATABASE " ++ quoted name

def createText (name source : Bytes) : Bytes :=
  ascii "CREATE DATABASE " ++ quoted name ++ ascii " TEMPLATE " ++ quoted source

def commentText (name marker : Bytes) : Bytes :=
  ascii "COMMENT ON DATABASE " ++ quoted name ++ ascii " IS '" ++ marker ++ [Ch.quote]

inductive Statement
  | drop (name : Bytes)
  | create (name source : Bytes)
  | comment (name text : Bytes)
  deriving DecidableEq

/-- The server reads a quoted identifier, and cuts one that is too long. -/
def readName (cut : Bytes → Bytes) (text : Bytes) : Option (Bytes × Bytes) :=
  (Delimited.readDelimited Ch.doubleQuote text).map fun read => (cut read.1, read.2)

def readKeyword (keyword text : Bytes) : Option Bytes :=
  if text.take keyword.length = keyword then some (text.drop keyword.length) else none

def readDrop (cut : Bytes → Bytes) (text : Bytes) : Option Statement := do
  let text ← readKeyword (ascii "DROP DATABASE ") text
  let (name, text) ← readName cut text
  if text = [] then some (.drop name) else none

def readCreate (cut : Bytes → Bytes) (text : Bytes) : Option Statement := do
  let text ← readKeyword (ascii "CREATE DATABASE ") text
  let (name, text) ← readName cut text
  let text ← readKeyword (ascii " TEMPLATE ") text
  let (source, text) ← readName cut text
  if text = [] then some (.create name source) else none

def readComment (cut : Bytes → Bytes) (text : Bytes) : Option Statement := do
  let text ← readKeyword (ascii "COMMENT ON DATABASE ") text
  let (name, text) ← readName cut text
  let text ← readKeyword (ascii " IS ") text
  let (comment, text) ← Delimited.readDelimited Ch.quote text
  if text = [] then some (.comment name comment) else none

/-- How the server reads the statements that change databases. -/
def readStatement (cut : Bytes → Bytes) (text : Bytes) : Option Statement :=
  (readDrop cut text).or ((readCreate cut text).or (readComment cut text))

/-- A statement is executed for a role, the server choosing the new database's number. -/
inductive Executes (role : Bytes) (databases : Bytes → Option Database) :
    Statement → (Bytes → Option Database) → Prop
  | drop (name : Bytes) : databases name ≠ none →
    Executes role databases (.drop name) (Function.update databases name none)
  | create (name source : Bytes) (oid : Nat) : databases name = none → databases source ≠ none →
    (∀ other database, databases other = some database → database.oid ≠ oid) →
    Executes role databases (.create name source) (Function.update databases name (some ⟨oid, false, role, []⟩))
  | comment (name text : Bytes) (database : Database) : databases name = some database →
    Executes role databases (.comment name text)
      (Function.update databases name (some {database with comment := text}))

/-! ### A runner -/

/-- The next statement of a runner. -/
inductive Pc
  | checkName | lockScratch | findSource | find | drop | create | comment | findClone
  /-- The runner has its database. -/
  | held
  | lockHeld | findHeld | dropHeld
  /-- The constructor has raised. -/
  | failed
  deriving DecidableEq

/-- `RunnerDatabase`, and where its program stands. -/
structure RunnerDatabase where
  role : Bytes
  source : Bytes
  name : Bytes
  fresh : Bool
  pc : Pc := .checkName
  /-- Its connection holds the lock of its name. -/
  locked : Bool := false
  marker : Bytes := []
  identity : Bytes := []
  cloned : Bool := false
  /-- The clone that its `CREATE DATABASE` made: no statement reads it. -/
  made : Option Nat := none

/-- What the constructor goes on with: names that `CheckDatabase` accepts, and that differ. -/
def RunnerDatabase.Admitted (r : RunnerDatabase) : Prop :=
  r.source ≠ [] ∧ 0 ∉ r.source ∧ r.name ≠ [] ∧ 0 ∉ r.name ∧ r.name ≠ r.source ∧ r.name ≠ maintenance

/-- The connection is closed. -/
def RunnerDatabase.closed (r : RunnerDatabase) (pc : Pc) : RunnerDatabase := {r with pc, locked := false}

/-- A statement of a runner that sees these databases under its name and that of its source, and what it has the
server execute. -/
inductive Turn (maxIdentifierLength : Nat) (found source : Option Database) (r : RunnerDatabase) :
    Option Bytes → RunnerDatabase → Prop
  | checkName : r.pc = .checkName → r.name.length ≤ maxIdentifierLength →
    Turn maxIdentifierLength found source r none {r with pc := .lockScratch}
  | lockScratch : r.pc = .lockScratch →
    Turn maxIdentifierLength found source r none {r with pc := .findSource, locked := true}
  | findSource (database : Database) : r.pc = .findSource → source = some database →
    Turn maxIdentifierLength found source r none
      {r with pc := .find, marker := runnerMarker ++ (database.identity r.role).oid}
  | absent : r.pc = .find → found = none →
    Turn maxIdentifierLength found source r none {r with pc := .create}
  /-- A clone of an earlier runner is used again. -/
  | existing (database : Database) : r.pc = .find → found = some database →
    (database.identity r.role).mayReplace r.marker = true → r.fresh = false →
    Turn maxIdentifierLength found source r none
      {r.closed .held with identity := (database.identity r.role).oid}
  | replaced (database : Database) : r.pc = .find → found = some database →
    (database.identity r.role).mayReplace r.marker = true → r.fresh = true →
    Turn maxIdentifierLength found source r none {r with pc := .drop}
  | drop : r.pc = .drop →
    Turn maxIdentifierLength found source r (some (dropText r.name)) {r with pc := .create}
  | create (oid : Nat) : r.pc = .create →
    Turn maxIdentifierLength found source r (some (createText r.name r.source))
      {r with pc := .comment, made := some oid}
  | comment : r.pc = .comment →
    Turn maxIdentifierLength found source r (some (commentText r.name r.marker)) {r with pc := .findClone}
  | findClone (database : Database) : r.pc = .findClone → found = some database →
    (database.identity r.role).mayReplace r.marker = true →
    Turn maxIdentifierLength found source r none
      {r.closed .held with identity := (database.identity r.role).oid, cloned := true}
  /-- `Drop` is called. -/
  | call : r.pc = .held → Turn maxIdentifierLength found source r none {r with pc := .lockHeld}
  | lockHeld : r.pc = .lockHeld →
    Turn maxIdentifierLength found source r none {r with pc := .findHeld, locked := true}
  | gone : r.pc = .findHeld → found = none →
    Turn maxIdentifierLength found source r none (r.closed .held)
  | findHeld (database : Database) : r.pc = .findHeld → found = some database →
    (database.identity r.role).mayReplace r.marker = true → (database.identity r.role).oid = r.identity →
    Turn maxIdentifierLength found source r none {r with pc := .dropHeld}
  | dropHeld : r.pc = .dropHeld →
    Turn maxIdentifierLength found source r (some (dropText r.name)) (r.closed .held)
  /-- A statement of the constructor fails, or what it finds is refused. -/
  | fail : r.pc ∉ [Pc.held, .lockHeld, .findHeld, .dropHeld] →
    Turn maxIdentifierLength found source r none (r.closed .failed)
  /-- A statement of `Drop` fails, or what it finds is refused. -/
  | failHeld : r.pc ∈ [Pc.lockHeld, .findHeld, .dropHeld] →
    Turn maxIdentifierLength found source r none (r.closed .held)

/-! ### Any number of runners -/

/-- What is not of this program: how advisory locks are hashed, and identifiers that are too long cut. -/
structure Postgres where
  hashed : Bytes → Int
  maxIdentifierLength : Nat
  cut : Bytes → Bytes
  cut_short : ∀ name, name.length ≤ maxIdentifierLength → cut name = name

section
variable {ι : Type} [DecidableEq ι] (postgres : Postgres)

structure Server (ι : Type) where
  databases : Bytes → Option Database
  runners : ι → Option RunnerDatabase := fun _ => none

/-- The advisory lock of a name. -/
def lockKey (name : Bytes) : Int := postgres.hashed (ascii "agiru.runner:" ++ name)

/-- A runner holds the lock of the name. -/
def Server.Locked (s : Server ι) (name : Bytes) : Prop :=
  ∃ i r, s.runners i = some r ∧ r.locked = true ∧ lockKey postgres r.name = lockKey postgres name

/-- What a runner has executed, if anything, it executes for its role. -/
def Asked (role : Bytes) (text : Option Bytes) (databases databases' : Bytes → Option Database) : Prop :=
  match text with
  | none => databases' = databases
  | some text => ∃ statement, readStatement postgres.cut text = some statement ∧
      Executes role databases statement databases'

/-- A runner executes a statement; it waits for a lock that is held. -/
inductive RunnerStep (i : ι) (s : Server ι) : Server ι → Prop
  | construct (r : RunnerDatabase) : s.runners i = none → r.Admitted → r.pc = .checkName → r.locked = false →
    RunnerStep i s {s with runners := Function.update s.runners i (some r)}
  | turn (r r' : RunnerDatabase) (text : Option Bytes) (databases : Bytes → Option Database) : s.runners i = some r →
    Turn postgres.maxIdentifierLength (s.databases r.name) (s.databases r.source) r text r' →
    (r.locked = false → r'.locked = true → ¬ s.Locked postgres r.name) →
    Asked postgres r.role text s.databases databases →
    (r'.pc = .comment → r'.made = (databases r.name).map Database.oid) →
    RunnerStep i s ⟨databases, Function.update s.runners i (some r')⟩

/-- A step of a runner, or one of others, who leave alone what is locked. -/
inductive Step (s : Server ι) : Server ι → Prop
  | runner (i : ι) (s' : Server ι) : RunnerStep postgres i s s' → Step s s'
  | others (databases : Bytes → Option Database) :
    (∀ name, s.Locked postgres name → databases name = s.databases name) → Step s {s with databases}

/-- The runs of any number of runners, from any databases. -/
abbrev Reached (s : Server ι) : Prop :=
  Reachable (fun first : Server ι => ∃ databases, first = {databases}) (Step postgres) s

end

end Agiru.Runner
