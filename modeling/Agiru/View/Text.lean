import Agiru.Library.Procedure
import Agiru.Library.Scan
import Agiru.Record.State

/-! The view of a record as a text.

`viewOf` writes the sort fields, the direction and the current group's filters of a
record; `applyView` reads them back, clause by clause. A filter stands in the text as it
is, and the reader finds its end by counting parentheses. -/
namespace Agiru.View
open Bytes

variable {table : TableDef}

/-- Why a view is refused. `outOfRange` is what `std::stoi` raises. -/
inductive ViewError
  | unknownField (wanted : Bytes)
  | outOfRange
  | unopened (view : Bytes)
  | unclosed (view : Bytes)
  | noSorting
  | notSortable
  | noField
  | flowField (field : Bytes)
  | noEquals (term : Bytes)
  | unknownClause (keyword : Bytes)
  deriving DecidableEq

def ViewError.text (table : TableDef) : ViewError → Bytes
  | unknownField wanted =>
    ascii "The view names a field " ++ wanted ++ ascii " that " ++ table.name ++ ascii " does not have"
  | outOfRange => ascii "stoi"
  | unopened view => ascii "The view " ++ view ++ ascii " has a clause without its parentheses"
  | unclosed view => ascii "The view " ++ view ++ ascii " has a clause that never closes"
  | noSorting => ascii "The view clause SORTING() names no field of " ++ table.name
  | notSortable =>
    ascii "SetView: the requested fields of " ++ table.name ++ ascii " are not sortable"
  | noField => ascii "SetCurrentKey requires at least one field"
  | flowField field =>
    ascii "SetCurrentKey: FlowField sorting is not implemented for " ++ table.name ++
      ascii "." ++ field
  | noEquals term => ascii "The view term " ++ term ++ ascii " has no '='"
  | unknownClause keyword =>
    ascii "The view clause " ++ keyword ++ ascii " is not one of VERSION, SORTING, ORDER, WHERE"

/-! ### Writing -/

/-- `ViewName`. -/
def viewName (field : FieldDef) (useNames : Bool) : Bytes :=
  if !useNames then ascii "Field" ++ natText field.no
  else if field.caption = [] then field.name else field.caption

/-- The name a view gives a field number. -/
def nameOf (table : TableDef) (useNames : Bool) (no : FieldNo) : Bytes :=
  match table.field no with
  | none => ascii "Field" ++ natText no
  | some field => viewName field useNames

/-- The fields a record sorts by: its own, or those of the primary key. -/
def sortNumbers (state : Option (RecordState table)) : List FieldNo :=
  match state with
  | none => table.primaryKey
  | some state => if state.key ≠ [] then state.key.map (·.field) else table.primaryKey

def joined (parts : List Bytes) : Bytes := List.intercalate [Ch.comma] parts

/-- A filter as a term of the `WHERE` clause. -/
def termOf (useNames : Bool) (filter : FieldFilter table) : Bytes :=
  nameOf table useNames filter.field ++ ascii "=FILTER(" ++ filter.text ++ ascii ")"

def directionOf (state : Option (RecordState table)) : Bytes :=
  if state.all (·.ascending) then ascii "Ascending" else ascii "Descending"

/-- `ViewOf`. -/
def viewOf (state : Option (RecordState table)) (useNames : Bool) : Bytes :=
  let order := ascii "VERSION(1) SORTING(" ++
    joined ((sortNumbers state).map (nameOf table useNames)) ++ ascii ") ORDER(" ++
    directionOf state ++ ascii ")"
  match state with
  | none => order
  | some state =>
    let terms := (state.filters.filter (·.group = state.group)).map (termOf useNames)
    if terms = [] then order else order ++ (ascii " WHERE(" ++ joined terms ++ ascii ")")

/-! ### Reading -/

/-- A field number that a table declares. -/
abbrev Declared (table : TableDef) := {no : FieldNo // (table.field no).isSome}

theorem isSome_declared {table : TableDef} (field : Declared table) : (table.field field.1).isSome := field.2

/-- `Unquoted`. -/
def unquoted (text : Bytes) : Bytes :=
  let text := trim text
  if 2 ≤ text.length ∧ text.head? = some Ch.doubleQuote ∧ text.getLast? = some Ch.doubleQuote then
    (text.drop 1).dropLast
  else text

def declared (table : TableDef) (test : FieldDef → Bool) : Option (Declared table) :=
  (table.fields.attach.find? fun field => test field.1).map fun field =>
    ⟨field.1.no, by rw [TableDef.field_of_mem field.2]; rfl⟩

/-- `std::stoi` of a text that begins with a digit. -/
def readNumber (digits : Bytes) : Nat := digitsValue (digits.takeWhile isDigit)

/-- `FieldOfView`. -/
def fieldOfView (table : TableDef) (spelled : Bytes) : Except ViewError (Declared table) :=
  let wanted := unquoted spelled
  match declared table fun f => sameText f.name wanted || sameText f.caption wanted with
  | some field => .ok field
  | none =>
    if (ascii "Field").isPrefixOf wanted ∨ (ascii "field").isPrefixOf wanted then
      let digits := wanted.drop 5
      if digits.head?.any isDigit then
        if 2 ^ 31 ≤ readNumber digits then .error .outOfRange
        else
          match declared table fun f => f.no = readNumber digits with
          | some field => .ok field
          | none => .error (.unknownField wanted)
      else .error (.unknownField wanted)
    else .error (.unknownField wanted)

def weight (c : UInt8) : Int :=
  if c = Ch.openParen then 1 else if c = Ch.closeParen then -1 else 0

/-- The separator outside parentheses. -/
def parts (separator c : UInt8) (depth : Int) : Bool := c = separator && depth = 0

/-- The parenthesis that closes a clause. -/
def closes (c : UInt8) (depth : Int) : Bool := c = Ch.closeParen && depth = 0

/-- `SplitOutsideParentheses`. -/
def splitOutsideParentheses (text : Bytes) (separator : UInt8) : List Bytes :=
  Scan.splitAll weight (parts separator) 0 [] text

structure Clause where
  keyword : Bytes
  inside : Bytes
  deriving DecidableEq

/-- The clauses of the rest of a view. Each takes a parenthesis at least. -/
def clausesFrom (view : Bytes) : Nat → Bytes → Except ViewError (List Clause)
  | 0, _ => .ok []
  | fuel + 1, rest =>
    let rest := rest.dropWhile isSpace
    if rest = [] then .ok []
    else
      match rest.dropWhile (· ≠ Ch.openParen) with
      | [] => .error (.unopened view)
      | _ :: opened =>
        match Scan.closing weight closes 1 opened with
        | none => .error (.unclosed view)
        | some (inside, after) =>
          (clausesFrom view fuel after).map fun clauses =>
            {keyword := trim (rest.takeWhile (· ≠ Ch.openParen)), inside} :: clauses

/-- `ClausesOf`. -/
def clausesOf (view : Bytes) : Except ViewError (List Clause) :=
  clausesFrom view (view.length + 1) view

/-- `SelectionChanged`. -/
def selectionChanged (state : RecordState table) : RecordState table :=
  {state with viewDirty := true}

/-- The filters of the current group on a field. -/
def isOn (state : RecordState table) (field : Declared table) (one : FieldFilter table) : Bool :=
  one.field = field.1 ∧ one.group = state.group

/-- Whether a field has that filter already, or none. -/
def carries (state : RecordState table) (field : Declared table) (text : Bytes) : Bool :=
  match state.filters.find? (isOn state field) with
  | none => text = []
  | some previous => previous.text = text

/-- `Narrow`. -/
def narrow (state : RecordState table) (field : Declared table) (text : Bytes) : RecordState table :=
  if carries state field text then state
  else
    {selectionChanged state with
      filters := (state.filters.filter fun one => !isOn state field one) ++
        if text = [] then [] else [⟨field.1, state.group, text, field.2⟩]}

/-- The fields of the first enabled key that begins with some, or these. -/
def extended (fields : List (Declared table)) : List (Declared table) :=
  match table.keys.attach.find? fun key =>
    key.1.enabled && (fields.map (·.1)).isPrefixOf key.1.fields with
  | none => fields
  | some key => key.1.fields.attach.map fun no => ⟨no.1, TableDef.key_declared key.2 no.2⟩

/-- Whether a field can be sorted by. -/
def sortable (field : FieldDef) : Except ViewError Bool :=
  if field.type = .blob ∨ field.fieldClass = .flowFilter then .ok false
  else if field.fieldClass = .flowField then .error (.flowField field.name)
  else .ok true

/-- Whether all fields can, up to the first that cannot. -/
def allSortable : List (Declared table) → Except ViewError Bool
  | [] => .ok true
  | field :: fields =>
    match sortable ((table.field field.1).get field.2) with
    | .ok true => allSortable fields
    | other => other

/-- `SetCurrentKey`, of declared fields. -/
def setCurrentKey (fields : List (Declared table)) : Procedure ViewError (RecordState table) Bool := do
  if fields = [] then throw .noField
  match allSortable fields with
  | .error e => throw e
  | .ok false => return false
  | .ok true =>
    modify fun state => {selectionChanged state with
      key := (extended fields).map fun field => ⟨field.1, true, field.2⟩}
    return true

/-- `ViewSorting`. -/
def viewSorting (sorting : Bytes) : Procedure ViewError (RecordState table) PUnit := do
  let named := (splitOutsideParentheses sorting Ch.comma).filter fun field => trim field ≠ []
  match named.mapM (fieldOfView table) with
  | .error e => throw e
  | .ok fields =>
    if fields = [] then throw .noSorting
    if !(← setCurrentKey fields) then throw .notSortable

/-- The filter of a term, without what stands around it. -/
def filterOf (term : Bytes) : Bytes :=
  let value := trim ((term.dropWhile (· ≠ Ch.equals)).drop 1)
  match value.dropWhile (· ≠ Ch.openParen) with
  | [] => value
  | _ :: opened => if opened.getLast? = some Ch.closeParen then trim opened.dropLast else value

/-- A term of the `WHERE` clause. -/
def applyTerm (term : Bytes) : Procedure ViewError (RecordState table) PUnit :=
  if Ch.equals ∉ term then throw (.noEquals term)
  else
    match fieldOfView table (term.takeWhile (· ≠ Ch.equals)) with
    | .error e => throw e
    | .ok field => modify fun state => narrow state field (filterOf term)

def applyClause (clause : Clause) : Procedure ViewError (RecordState table) PUnit :=
  if sameText clause.keyword (ascii "VERSION") then pure ⟨⟩
  else if sameText clause.keyword (ascii "SORTING") then viewSorting clause.inside
  else if sameText clause.keyword (ascii "ORDER") then
    modify fun state => {state with
      ascending := !sameText (trim clause.inside) (ascii "Descending")}
  else if sameText clause.keyword (ascii "WHERE") then
    (splitOutsideParentheses clause.inside Ch.comma).forM applyTerm
  else throw (.unknownClause clause.keyword)

/-- `ApplyView`. -/
def applyView (view : Bytes) : Procedure ViewError (RecordState table) PUnit := do
  modify fun state => {selectionChanged state with filters := [], key := [], ascending := true}
  if trim view = [] then return ⟨⟩
  match clausesOf view with
  | .error e => throw e
  | .ok clauses => clauses.forM applyClause

end Agiru.View
