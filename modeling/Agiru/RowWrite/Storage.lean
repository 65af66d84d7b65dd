import Agiru.Library.Undo

/-! Optimistic writes to a table with a row version.

A row carries the version that its last write gave it and the token of the transaction that
wrote it. `ModifyRow`, `RenameRow` and `DeleteRow` are one statement each, whose predicate
accepts a row that has the observed version or the transaction's own token; where it finds no
row, a second statement looks whether a row with the key is there. Any number of sessions
step in any order, a statement at a time. What a transaction writes, and the token it has
drawn, is its own until it commits, and is undone with its savepoints. -/
namespace Agiru.RowWrite
open Undo

/-! ### Tables and rows -/

/-- A table with a row version, by its other stored columns. -/
structure Table where
  columns : Nat
  /-- `PlatformOwned`: a row keeps these columns as they were when it was inserted. -/
  owned : Fin columns → Bool
  key : List (Fin columns)

abbrev FieldValues (table : Table) := Fin table.columns → Option String

abbrev Key := List (Option String)

structure Row (table : Table) where
  fields : FieldValues table
  version : Int
  /-- The token of the transaction that wrote the row. -/
  owner : Option Nat

variable {table : Table}

def keyOf (values : FieldValues table) : Key := table.key.map values

def Row.key (row : Row table) : Key := keyOf row.fields

/-- `WrittenAssignments`. -/
def writtenAssignments (values : FieldValues table) (row : Row table) (version : Int)
    (token : Option Nat) : Row table :=
  ⟨fun column => if table.owned column then row.fields column else values column, version, token⟩

/-- `WritePredicate`, where `token` is what `write_transaction_v1()` returned, if it was called. -/
def Row.writePredicate (row : Row table) (observedVersion : Int) (token : Option Nat) : Bool :=
  row.version = observedVersion || (token.isSome && row.owner = token)

/-! ### Transactions -/

/-- What a write did to a key: the row it found there and the row it left. `observed` is the
version it was called with, and there is none where a row is inserted or moved to the key. -/
structure Write (table : Table) where
  key : Key
  observed : Option Int
  found : Option (Row table)
  after : Option (Row table)

/-- What a transaction does, and a rollback to a savepoint undoes. -/
inductive Effect (table : Table)
  | token (token : Nat)
  | write (write : Write table)

/-- The write that an effect is, if it is one to the key. -/
def Effect.writeTo (key : Key) : Effect table → Option (Write table)
  | .token _ => none
  | .write w => if w.key = key then some w else none

def Effect.tokenOf : Effect table → Option Nat
  | .token drawn => some drawn
  | .write _ => none

/-- The last write to a key. -/
def lastWrite (effects : List (Effect table)) (key : Key) : Option (Write table) :=
  effects.findSome? (Effect.writeTo key)

/-- `agiru.write_transaction_v1`, as it stands in the transaction. -/
def heldToken (effects : List (Effect table)) : Option Nat := effects.findSome? Effect.tokenOf

/-- The row with a key, as the transaction sees it. -/
def rowOf (committed : Key → Option (Row table)) (effects : List (Effect table)) (key : Key) :
    Option (Row table) :=
  match lastWrite effects key with
  | some w => w.after
  | none => committed key

/-! ### Calls -/

inductive Call (table : Table)
  | modify (values : FieldValues table) (observedVersion : Int)
  | rename (values : FieldValues table) (oldKey : Key) (observedVersion : Int)
  | delete (key : Key) (observedVersion : Int)

/-- The key of the row that is to be written. -/
def Call.key : Call table → Key
  | .modify values _ => keyOf values
  | .rename _ oldKey _ => oldKey
  | .delete key _ => key

def Call.observedVersion : Call table → Int
  | .modify _ observedVersion | .rename _ _ observedVersion | .delete _ observedVersion =>
    observedVersion

/-- The row that a call leaves of the row it finds. -/
def Call.updated (row : Row table) (version : Int) (token : Option Nat) :
    Call table → Option (Row table)
  | .modify values _ | .rename values _ _ => some (writtenAssignments values row version token)
  | .delete .. => none

/-- What a call writes, the newest first: a row that is given another key leaves its own. -/
def Call.writes (call : Call table) (row : Row table) : Option (Row table) → List (Write table)
  | none => [⟨call.key, some call.observedVersion, some row, none⟩]
  | some after =>
    if after.key = call.key then [⟨call.key, some call.observedVersion, some row, some after⟩]
    else [⟨after.key, none, none, some after⟩,
      ⟨call.key, some call.observedVersion, some row, none⟩]

inductive Outcome (table : Table)
  /-- The row as it now is, of which the platform's columns are returned. -/
  | written (after : Option (Row table))
  /-- The statement has found no row, and `RefuseStaleWrite` is next. -/
  | missed
  | noRow
  | recordConflict
  /-- The database refuses the statement: the new key is taken, a deadlock, a timeout. -/
  | refused

/-! ### Sessions -/

structure Session (table : Table) where
  active : Bool := false
  log : Log (Effect table) := []
  /-- A statement was refused, and only a rollback goes on. -/
  failed : Bool := false
  /-- The call that is in `RefuseStaleWrite`. -/
  missed : Option (Call table) := none

structure State (table : Table) (n : Nat) where
  committed : Key → Option (Row table)
  /-- The versions and the tokens that were ever given; no step reads which. -/
  issued : List Int
  drawn : List Nat
  sessions : Fin n → Session table

variable {n : Nat}

def State.effects (s : State table n) (i : Fin n) : List (Effect table) := done (s.sessions i).log

def State.row (s : State table n) (i : Fin n) (key : Key) : Option (Row table) :=
  rowOf s.committed (s.effects i) key

def State.put (s : State table n) (i : Fin n) (session : Session table) : State table n :=
  {s with sessions := Function.update s.sessions i session}

/-- A statement runs in a session. -/
def State.Runs (s : State table n) (i : Fin n) (missed : Option (Call table)) : Prop :=
  (s.sessions i).active = true ∧ (s.sessions i).failed = false ∧ (s.sessions i).missed = missed

/-- No other transaction has written the row, so that no statement waits for it. -/
def State.Free (s : State table n) (i : Fin n) (key : Key) : Prop :=
  ∀ j, j ≠ i → lastWrite (s.effects j) key = none

/-- `write_transaction_v1()` may return the token: the one that is held, or else a new one. -/
def State.Returns (s : State table n) (i : Fin n) (token : Nat) : Prop :=
  heldToken (s.effects i) = some token ∨ heldToken (s.effects i) = none ∧ token ∉ s.drawn

/-- The state in which a call of `write_transaction_v1()` leaves a session. -/
def State.drew (s : State table n) (i : Fin n) : Option Nat → State table n
  | none => s
  | some token =>
    if heldToken (s.effects i) = some token then s
    else {s.put i {s.sessions i with log := .effect (.token token) :: (s.sessions i).log} with
      drawn := token :: s.drawn}

def State.write (s : State table n) (i : Fin n) (w : Write table) : State table n :=
  {s.put i {s.sessions i with log := .effect (.write w) :: (s.sessions i).log} with
    issued := (w.after.map Row.version).toList ++ s.issued}

def State.wrote (s : State table n) (i : Fin n) (writes : List (Write table)) : State table n :=
  writes.foldr (fun w s => s.write i w) s

/-! ### Steps -/

inductive Action (table : Table)
  /-- A statement that begins, marks, undoes or ends a transaction. -/
  | boundary
  | insert (values : FieldValues table)
  | call (call : Call table) (outcome : Outcome table)

inductive Step (s : State table n) : Fin n → Action table → State table n → Prop
  | begin (i) (h : (s.sessions i).active = false) : Step s i .boundary (s.put i {active := true})
  | savepoint (i) (h : s.Runs i none) :
      Step s i .boundary (s.put i {s.sessions i with log := .savepoint :: (s.sessions i).log})
  | rollbackTo (i) (h : (s.sessions i).active = true) (hmissed : (s.sessions i).missed = none) :
      Step s i .boundary
        (s.put i {s.sessions i with log := undo (s.sessions i).log, failed := false})
  | release (i) (h : s.Runs i none) :
      Step s i .boundary (s.put i {s.sessions i with log := release (s.sessions i).log})
  | commit (i) (h : s.Runs i none) :
      Step s i .boundary {s.put i {} with committed := s.row i}
  /-- A `ROLLBACK`, a `COMMIT` of a failed transaction, or a lost connection. -/
  | rollback (i) : Step s i .boundary (s.put i {})
  | insert (i values version token) (h : s.Runs i none) (hfree : s.Free i (keyOf values))
      (hrow : s.row i (keyOf values) = none) (hversion : version ∉ s.issued)
      (htoken : s.Returns i token) :
      Step s i (.insert values) ((s.drew i (some token)).wrote i
        [⟨keyOf values, none, none, some ⟨values, version, some token⟩⟩])
  /-- `ON CONFLICT DO NOTHING`, at the key or at another unique index. -/
  | insertNone (i values token) (h : s.Runs i none) (htoken : s.Returns i token) :
      Step s i (.insert values) (s.drew i (some token))
  | insertRefused (i values) (h : s.Runs i none) :
      Step s i (.insert values) (s.put i {s.sessions i with failed := true})
  | written (i call row version token) (h : s.Runs i none) (hfree : s.Free i call.key)
      (hrow : s.row i call.key = some row) (hversion : version ∉ s.issued)
      (htoken : ∀ t, token = some t → s.Returns i t)
      (hcalled : (call.updated row version token).isSome → token.isSome)
      (hpredicate : row.writePredicate call.observedVersion token = true)
      (hmoved : ∀ after, call.updated row version token = some after → after.key ≠ call.key →
        s.Free i after.key ∧ s.row i after.key = none) :
      Step s i (.call call (.written (call.updated row version token)))
        ((s.drew i token).wrote i (call.writes row (call.updated row version token)))
  | missed (i call token) (h : s.Runs i none) (htoken : ∀ t, token = some t → s.Returns i t)
      (hrow : ∀ row, s.row i call.key = some row → s.Free i call.key ∧ token.isSome ∧
        row.writePredicate call.observedVersion token = false) :
      Step s i (.call call .missed)
        ((s.drew i token).put i {(s.drew i token).sessions i with missed := some call})
  | recordConflict (i call row) (h : s.Runs i (some call)) (hrow : s.row i call.key = some row) :
      Step s i (.call call .recordConflict) (s.put i {s.sessions i with missed := none})
  | noRow (i call) (h : s.Runs i (some call)) (hrow : s.row i call.key = none) :
      Step s i (.call call .noRow) (s.put i {s.sessions i with missed := none})
  | refused (i call missed) (h : s.Runs i missed) (hcall : missed = none ∨ missed = some call) :
      Step s i (.call call .refused) (s.put i {s.sessions i with failed := true, missed := none})

/-- Where runs start: rows that are committed, and no session in a transaction. -/
structure Start (s : State table n) : Prop where
  sessions : ∀ i, s.sessions i = {}
  key : ∀ key row, s.committed key = some row → row.key = key
  issued : ∀ key row, s.committed key = some row → row.version ∈ s.issued
  drawn : ∀ key row token, s.committed key = some row → row.owner = some token → token ∈ s.drawn

/-- A state of a run, in which the sessions step in any order. -/
def Reached (s : State table n) : Prop :=
  Reachable Start (fun s t => ∃ i action, Step s i action t) s

end Agiru.RowWrite
