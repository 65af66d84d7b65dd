import Agiru.Json.Number
import Agiru.Storage.RoundTrip
import Agiru.View.Text

/-! A record's position as text, and how it is read: for each field of the primary key its name, its
kind and its value, all of it before the first value is written.

`TakePosition`: the values of a position go to the record one after another, and the first that
is refused leaves those before it written. -/
namespace Agiru.Position
open Bytes Storage

/-! ### White space -/

/-- `kUnicodeWhitespace`. -/
def unicodeWhitespace : List Bytes :=
  [0x85, 0xA0, 0x1680, 0x2000, 0x2001, 0x2002, 0x2003, 0x2004, 0x2005, 0x2006, 0x2007, 0x2008, 0x2009, 0x200A,
    0x2028, 0x2029, 0x202F, 0x205F, 0x3000].map Utf.point

/-- `WhitespacePrefix`: how many bytes of white space a text begins with, of one character. -/
def whitespacePrefix (text : Bytes) : Nat :=
  match text with
  | [] => 0
  | c :: _ =>
    if isSpace c then 1
    else match unicodeWhitespace.find? fun space => space.isPrefixOf text with
      | some space => space.length
      | none => 0

def skipSpaceFrom : Nat → Bytes → Bytes
  | 0, text => text
  | fuel + 1, text =>
    if whitespacePrefix text = 0 then text else skipSpaceFrom fuel (text.drop (whitespacePrefix text))

/-- `SkipSpace`. -/
def skipSpace (text : Bytes) : Bytes := skipSpaceFrom text.length text

/-- How many bytes of white space a text ends with, of one character. -/
def whitespaceSuffix (text : Bytes) : Nat :=
  ([1, 2, 3].find? fun size =>
    size ≤ text.length && whitespacePrefix (text.drop (text.length - size)) = size).getD 0

def trimEndFrom : Nat → Bytes → Bytes
  | 0, text => text
  | fuel + 1, text =>
    if whitespaceSuffix text = 0 then text
    else trimEndFrom fuel (text.take (text.length - whitespaceSuffix text))

/-- `TrimWhitespace`. -/
def trimWhitespace (text : Bytes) : Bytes := trimEndFrom text.length (skipSpace text)

/-! ### The reader -/

/-- Why a position is not taken. -/
inductive PositionError
  | invalid
  | undeclaredKey
  | column (text : Bytes)
  deriving Repr, DecidableEq

def PositionError.text : PositionError → Bytes
  | invalid => ascii "The record position is invalid."
  | undeclaredKey => ascii "The primary key names an undeclared field."
  | column text => text

/-- `Expect`. -/
def expect (c : UInt8) (text : Bytes) : Except PositionError Bytes :=
  match skipSpace text with
  | [] => .error .invalid
  | d :: rest => if d = c then .ok rest else .error .invalid

/-- `Quoted`, after the opening quote: what stands before the closing one, and what follows it. -/
def quoted : Bytes → Except PositionError (Bytes × Bytes)
  | [] => .error .invalid
  | c :: rest =>
    if c ≠ Ch.doubleQuote then (quoted rest).map fun read => (c :: read.1, read.2)
    else
      match rest with
      | d :: after =>
        if d = Ch.doubleQuote then (quoted after).map fun read => (Ch.doubleQuote :: read.1, read.2)
        else .ok ([], rest)
      | [] => .ok ([], [])

/-- `Token`: a quoted text, or what stands before the delimiter. -/
def token (delimiter : UInt8) (text : Bytes) : Except PositionError (Bytes × Bytes) :=
  match skipSpace text with
  | [] => .error .invalid
  | c :: rest =>
    if c = Ch.doubleQuote then quoted rest
    else if delimiter ∈ c :: rest then
      .ok (trimWhitespace ((c :: rest).takeWhile (· ≠ delimiter)), (c :: rest).dropWhile (· ≠ delimiter))
    else .error .invalid

/-- The name a field goes by where names are not used. -/
def numbered (field : FieldDef) : Bytes := ascii "Field" ++ natText field.no

/-- `Assignment`: a field's value, with its name and kind checked. -/
def assignment (field : FieldDef) (text : Bytes) : Except PositionError (Bytes × Bytes) := do
  let (name, text) ← token Ch.equals (skipSpace text)
  if !sameText name field.name && (field.caption = [] || !sameText name field.caption) &&
      !sameText name (numbered field) then
    throw .invalid
  let text ← expect Ch.equals text
  let (kind, text) ← token Ch.openParen text
  if !sameText kind (ascii "CONST") && kind ≠ ascii "0" then throw .invalid
  let text ← expect Ch.openParen text
  let (value, text) ← token Ch.closeParen text
  let text ← expect Ch.closeParen text
  return (value, text)

/-- `End`. -/
def atEnd (text : Bytes) : Except PositionError Unit :=
  if skipSpace text = [] then .ok () else .error .invalid

structure Assignment where
  field : FieldDef
  value : Bytes
  deriving Repr, DecidableEq

/-- The assignments to the fields of a key, each but the first after a comma. -/
def assignmentsOf (table : TableDef) (started : Bool) :
    List FieldNo → Bytes → Except PositionError (List Assignment × Bytes)
  | [], text => .ok ([], text)
  | no :: rest, text => do
    let text ← if started then expect Ch.comma text else pure text
    match table.field no with
    | none => throw .undeclaredKey
    | some field =>
      let (value, text) ← assignment field text
      let (others, text) ← assignmentsOf table true rest text
      return (⟨field, value⟩ :: others, text)

/-- All that a position assigns: nothing where the table has no key. -/
def positionAssignments (table : TableDef) (position : Bytes) : Except PositionError (List Assignment) := do
  let (assignments, text) ← assignmentsOf table false table.primaryKey position
  atEnd text
  return assignments

/-! ### Values -/

/-- `WholeValue` of a signed type of so many bits. -/
def wholeValue (bits : Nat) (text : Bytes) : Except PositionError Int :=
  if text = [] then .ok 0
  else match Json.fromChars text with
    | none => .error .invalid
    | some n => if -2 ^ (bits - 1) ≤ n ∧ n < 2 ^ (bits - 1) then .ok n else .error .invalid

/-- A value that its reader read, or the refusal. -/
def evaluated {α : Type} (read : Option α) : Except PositionError α :=
  match read with
  | some value => .ok value
  | none => .error .invalid

/-- `EvaluatedDecimal`. -/
def evaluatedDecimal (text : Bytes) : Option Decimal :=
  if text.all isBlank then some .zero else (Decimal.fromInvariantString text).toOption

/-- `EvaluatedBoolean`. -/
def evaluatedBoolean (text : Bytes) : Option Bool :=
  let folded := text.map lower
  if folded = ascii "1" ∨ folded = ascii "true" ∨ folded = ascii "yes" then some true
  else if folded = ascii "0" ∨ folded = ascii "false" ∨ folded = ascii "no" ∨ folded = [] then some false
  else none

/-- `strtol` of a part of a text: zero where it spells no number. -/
def part (text : Bytes) (start size : Nat) : Int := (strtol 10 ((text.drop start).take size)).getD 0

/-- `EvaluatedDate`. -/
def evaluatedDate (text : Bytes) : Option Date :=
  if text = [] then some .undefined
  else if text.length < 10 ∨ text[4]? ≠ some Ch.minus ∨ text[7]? ≠ some Ch.minus then none
  else
    let date := Date.fromYmd (part text 0 4) (toUnsigned (part text 5 2)) (toUnsigned (part text 8 2))
    if date.isUndefined then none else some date

/-- The colon between the parts of a time. -/
def colon : UInt8 := 58

/-- `EvaluatedTime`. The fraction is brought to three digits. -/
def evaluatedTime (text : Bytes) : Option Time :=
  if text = [] then some Time.undefined
  else if text.length < 8 ∨ text[2]? ≠ some colon ∨ text[5]? ≠ some colon then none
  else
    let fraction := (text.drop 9).take 3
    let millisecond :=
      if 9 < text.length ∧ text[8]? = some Ch.dot then
        part (fraction ++ List.replicate (3 - fraction.length) Ch.zero) 0 3
      else 0
    let time := Time.fromHms (part text 0 2) (part text 3 2) (part text 6 2) millisecond
    if time.milliseconds = 0 then none else some time

/-- What parts a date from its time: a `T` or a blank. -/
def partsTime (c : UInt8) : Bool := c = 84 || c = Ch.blank

/-- A time after its date, without the `Z` at its end. -/
def unzoned (text : Bytes) : Bytes := if text.getLast? = some 90 then text.dropLast else text

/-- `EvaluatedDateTime`. -/
def evaluatedDateTime (text : Bytes) : Option DateTime :=
  if text = [] then some DateTime.undefined
  else do
    let date ← evaluatedDate (text.takeWhile fun c => !partsTime c)
    let time ←
      match text.dropWhile fun c => !partsTime c with
      | [] => some Time.undefined
      | _ :: rest => evaluatedTime (unzoned rest)
    return DateTime.create date time

/-- A date, and its closing date after a `C`. -/
def positionDate (text : Bytes) : Option Date :=
  if text.head? = some 67 then (evaluatedDate text.tail).map Date.closing else evaluatedDate text

def isSignOrDigit (c : UInt8) : Bool := c = Ch.minus || c = Ch.plus || isDigit c

/-- `MemberOrdinalOf`: the member that is blank, the number, or the member of that name, else of
that caption. -/
def memberOrdinalOf (members : List EnumValueDef) (text : Bytes) : Option Int :=
  if text.all isBlank then
    (members.find? fun member => member.name.all isBlank).map (·.ordinal.toInt)
  else if text.all fun c => c = Ch.minus || isDigit c then (wholeValue 32 text).toOption
  else
    match members.find? fun member => sameText member.name text with
    | some member => some member.ordinal.toInt
    | none => (members.find? fun member => sameText member.caption text).map (·.ordinal.toInt)

/-- `PositionOrdinal`. -/
def positionOrdinal (field : FieldDef) (text : Bytes) : Except PositionError Int :=
  if text ≠ [] ∧ text.all isSignOrDigit then wholeValue 32 text
  else evaluated (memberOrdinalOf field.values text)

/-- What the column's reader reads. -/
def columnValue (language : Int32) (field : FieldDef) (type : FieldType) (text : Bytes) :
    Except PositionError (FieldHolds type) :=
  (setFieldText language field text type).mapError fun refusal => .column refusal.text

/-- `AssignPosition`: the value a position's text gives a field of a type. -/
def positionValue (language : Int32) (field : FieldDef) (text : Bytes) :
    (type : FieldType) → Except PositionError (FieldHolds type)
  | .decimal => evaluated (evaluatedDecimal text)
  | .integer => (wholeValue 32 text).map Int32.ofInt
  | .bigInteger => (wholeValue 64 text).map Int64.ofInt
  | .boolean => evaluated (evaluatedBoolean text)
  | .date => evaluated (positionDate text)
  | .time => evaluated (evaluatedTime text)
  | .dateTime => evaluated (evaluatedDateTime text)
  | .duration => (wholeValue 64 text).map Int64.ofInt
  | .option => do columnValue language field .option (intText (← positionOrdinal field text))
  | .enum => do columnValue language field .enum (intText (← positionOrdinal field text))
  | .blob => columnValue language field .blob text
  | .dateFormula => columnValue language field .dateFormula text
  | .guid => columnValue language field .guid text
  | .recordId => columnValue language field .recordId text
  | .tableFilter => columnValue language field .tableFilter text
  | .text => columnValue language field .text text
  | .code => columnValue language field .code text
  | .mediaSet => columnValue language field .mediaSet text
  | .media => columnValue language field .media text

/-! ### The record -/

/-- What each field of a record holds. -/
abbrev Fields := (field : FieldDef) → FieldHolds field.type

variable {table : TableDef} {language : Int32}

/-- A record variable: its fields, and what it keeps beside them. -/
@[ext] structure Placed (table : TableDef) where
  fields : Fields
  state : RecordState table

/-- What an assignment gives its field. -/
def Assignment.read (language : Int32) (assignment : Assignment) :
    Except PositionError (FieldHolds assignment.field.type) :=
  positionValue language assignment.field assignment.value assignment.field.type

def write (field : FieldDef) (value : FieldHolds field.type) (placed : Placed table) : Placed table :=
  {placed with fields := Function.update placed.fields field value}

/-- `AssignPosition` on the record. -/
def assign (language : Int32) (assignment : Assignment) : Procedure PositionError (Placed table) PUnit :=
  match assignment.read language with
  | .ok value => modify (write assignment.field value)
  | .error refusal => throw refusal

/-- `TakePosition`. -/
def takePosition (language : Int32) (position : Bytes) : Procedure PositionError (Placed table) PUnit :=
  match positionAssignments table position with
  | .error refusal => throw refusal
  | .ok assignments => do
    assignments.forM (assign language)
    if table.keys ≠ [] then
      modify fun placed => {placed with state := {View.selectionChanged placed.state with positioned := true}}

end Agiru.Position
