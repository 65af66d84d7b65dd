import Agiru.Filter.Wildcards
import Agiru.Library.Glob
import Agiru.Storage.RoundTrip

/-! The clause that a filter is to the database, and when the database takes it for true.

`whereClause` is the clause as it is rendered: conditions on one column, with numbered placeholders
for the bound texts. A bound text is read in the column's type, or the query fails. -/
namespace Agiru.Filter
open Bytes Glob
open Storage (normaliseCode)

abbrev percent : UInt8 := 37
abbrev backslash : UInt8 := 92
abbrev underscore : UInt8 := 95

/-! ### The clause -/

inductive Operator
  | equal | notEqual | less | lessOrEqual | greater | greaterEqual
  deriving Repr, DecidableEq

/-- What is asked of a column: `column = $n` and its like, `column BETWEEN $n AND $m`,
`column::text [NOT] ILIKE $n`, and `TRUE`. -/
inductive Condition
  | compares (operator : Operator) (placeholder : Nat)
  | between (low high : Nat)
  | ilike (negated : Bool) (placeholder : Nat)
  | always
  deriving Repr, DecidableEq

/-- The alternatives of a clause, and its bound texts; without alternatives it is no clause. -/
structure Clause where
  sql : List (List Condition) := []
  binds : List Bytes := []
  deriving Repr, DecidableEq

/-- `LikePattern`. -/
def likePattern (value : Bytes) : Bytes :=
  value.flatMap fun c =>
    if c = Ch.star then [percent]
    else if c = Ch.question then [underscore]
    else if c = percent ∨ c = underscore ∨ c = backslash then [backslash, c]
    else [c]

/-- `BlankValueOf`. -/
def blankValueOf (field : FieldDef) : Bytes :=
  match field.type with
  | .boolean => ascii "false"
  | .option | .enum => memberOrdinal field []
  | .integer | .bigInteger | .decimal | .duration => ascii "0"
  | .date | .dateTime => ascii "1753-01-01 00:00:00"
  | .time => ascii "00:00:00"
  | .guid | .media | .mediaSet => ascii "00000000-0000-0000-0000-000000000000"
  | _ => []

def byMember (field : FieldDef) : Bool := field.type = .option || field.type = .enum

/-- The text that `bind` binds. -/
def boundText (field : FieldDef) (value : Bytes) : Bytes :=
  if value = [] then blankValueOf field
  else if byMember field then memberOrdinal field value
  else if field.type = .code then normaliseCode value
  else value

/-- `One`: an atom's condition, and what it binds, from a placeholder on. -/
def one (field : FieldDef) (atom : Atom) (next : Nat) : Condition × List Bytes :=
  match atom.compare with
  | .equal => (.compares .equal next, [boundText field atom.value])
  | .notEqual => (.compares .notEqual next, [boundText field atom.value])
  | .less => (.compares .less next, [boundText field atom.value])
  | .lessOrEqual => (.compares .lessOrEqual next, [boundText field atom.value])
  | .greater => (.compares .greater next, [boundText field atom.value])
  | .greaterEqual => (.compares .greaterEqual next, [boundText field atom.value])
  | .like => (.ilike false next, [boundText field (likePattern atom.value)])
  | .notLike => (.ilike true next, [boundText field (likePattern atom.value)])
  | .between =>
    if atom.openLower && atom.openUpper then (.always, [])
    else if atom.openLower then (.compares .lessOrEqual next, [boundText field atom.upper])
    else if atom.openUpper then (.compares .greaterEqual next, [boundText field atom.value])
    else (.between next (next + 1), [boundText field atom.value, boundText field atom.upper])

/-- The atoms of a conjunction, one behind the other. -/
def conjunction (field : FieldDef) : All → Nat → List Condition × List Bytes
  | [], _ => ([], [])
  | atom :: atoms, next =>
    let (condition, binds) := one field atom next
    let (conditions, others) := conjunction field atoms (next + binds.length)
    (condition :: conditions, binds ++ others)

def alternatives (field : FieldDef) : Expression → Nat → List (List Condition) × List Bytes
  | [], _ => ([], [])
  | all :: rest, next =>
    let (conditions, binds) := conjunction field all next
    let (others, behind) := alternatives field rest (next + binds.length)
    (conditions :: others, binds ++ behind)

/-- `Where`. -/
def whereClause (field : FieldDef) (expression : Expression) (first : Nat) : Clause :=
  ⟨(alternatives field expression first).1, (alternatives field expression first).2⟩

/-! ### The database -/

/-- What the database makes of a column's value: how it compares with a bound text read in the
column's type, where that can be read, its text, and the letter case of the database's locale. -/
structure Column where
  compare : Bytes → Option Ordering
  text : Bytes
  fold : Bytes → Bytes := List.map lower

def Operator.accepts : Operator → Ordering → Bool
  | .equal, o => o = .eq
  | .notEqual, o => o ≠ .eq
  | .less, o => o = .lt
  | .lessOrEqual, o => o ≠ .gt
  | .greater, o => o = .gt
  | .greaterEqual, o => o ≠ .lt

def isContinuation (c : UInt8) : Bool := 0x80 ≤ c && c < 0xC0

/-- The characters of a text: each byte with the continuation bytes behind it. -/
def characters : Bytes → List Bytes
  | [] => []
  | c :: rest =>
    match characters rest with
    | [] => [[c]]
    | next :: others => if next.head?.any isContinuation then (c :: next) :: others else [c] :: next :: others

/-- The pieces of a pattern of `ILIKE`; an escape at its end is an error. -/
def likePieces : List Bytes → Option (List (Piece Bytes))
  | [] => some []
  | [c] =>
    if c = [backslash] then none
    else some [if c = [percent] then .many else if c = [underscore] then .one else .literal c]
  | c :: d :: rest =>
    if c = [backslash] then (likePieces rest).map (.literal d :: ·)
    else
      (likePieces (d :: rest)).map
        ((if c = [percent] then .many else if c = [underscore] then .one else .literal c) :: ·)

/-- `ILIKE`: `LIKE` by characters, of both in the letter case of the locale. -/
def ilike (fold : Bytes → Bytes) (pattern text : Bytes) : Option Bool :=
  (likePieces (characters (fold pattern))).map fun pieces =>
    takes (fun c d => decide (c = d)) pieces (characters (fold text))

/-- A condition with its bound texts; a query with a text that cannot be read fails. -/
def Condition.holds (column : Column) (binds : List Bytes) : Condition → Option Bool
  | .compares operator n => do
    let order ← column.compare (← binds[n - 1]?)
    return operator.accepts order
  | .between low high => do
    let lower ← column.compare (← binds[low - 1]?)
    let upper ← column.compare (← binds[high - 1]?)
    return lower ≠ .lt && upper ≠ .gt
  | .ilike negated n => do
    let takes ← Filter.ilike column.fold (← binds[n - 1]?) column.text
    return negated != takes
  | .always => some true

/-- An empty pair of parentheses is no condition. -/
def allHold (column : Column) (binds : List Bytes) (conditions : List Condition) : Option Bool :=
  if conditions = [] then none else (conditions.mapM (Condition.holds column binds)).map (·.all id)

/-- A clause, of a column, in a query with these bound texts. -/
def holds (column : Column) (binds : List Bytes) (sql : List (List Condition)) : Option Bool :=
  if sql = [] then some true else (sql.mapM (allHold column binds)).map (·.any id)

/-! ### What the database reads -/

/-- An optional sign, and what stands behind it. -/
def signed (text : Bytes) : Bool × Bytes :=
  match text with
  | c :: rest =>
    if c = Ch.minus then (true, rest) else if c = Ch.plus then (false, rest) else (false, text)
  | [] => (false, [])

/-- A whole number of a column's range. -/
def readInteger (low high : Int) (text : Bytes) : Option Int :=
  let (negative, digits) := signed (trim text)
  let number : Int := if negative then -(digitsValue digits : Nat) else (digitsValue digits : Nat)
  if digits = [] || !digits.all isDigit then none
  else if low ≤ number ∧ number ≤ high then some number
  else none

/-- A number written in digits with a point. -/
def readNumeric (text : Bytes) : Option ℚ :=
  let (negative, digits) := signed (trim text)
  let whole := digits.takeWhile isDigit
  let fraction := (digits.drop whole.length).tail
  let number : ℚ := (digitsValue (whole ++ fraction) : Nat) / 10 ^ fraction.length
  if whole ++ fraction = [] || !fraction.all isDigit then none
  else if digits.drop whole.length ≠ [] ∧ (digits.drop whole.length).head? ≠ some Ch.dot then none
  else some (if negative then -number else number)

/-- A truth value: a beginning of `true`, `yes`, `false` or `no` in any letter case, `on`, `off` or
a beginning of it that is not one of `on`, `1` or `0`. -/
def readBoolean (text : Bytes) : Option Bool :=
  let spelled := (trim text).map lower
  if spelled = [] then none
  else if spelled.isPrefixOf (ascii "true") || spelled.isPrefixOf (ascii "yes") || spelled = ascii "on" ||
      spelled = ascii "1" then
    some true
  else if spelled.isPrefixOf (ascii "false") || spelled.isPrefixOf (ascii "no") || spelled = ascii "of" ||
      spelled = ascii "off" || spelled = ascii "0" then
    some false
  else none

/-- The text of a column of 20 places. -/
def numericText (d : Decimal) : Bytes :=
  let units := d.units * 10 ^ (20 - d.scale) / 10 ^ (d.scale - 20)
  (if d.negative then [Ch.minus] else []) ++ natText (units / 10 ^ 20) ++ [Ch.dot] ++ padded 20 (units % 10 ^ 20)

/-- A field's column, for the types that a filter compares in both ways, in a locale; the texts of the
character columns are compared in the column's collation. -/
def column (collation : Bytes → Bytes → Ordering) (field : FieldDef) (value : Value)
    (fold : Bytes → Bytes := List.map lower) : Column :=
  match field.type with
  | .integer =>
    { compare := fun bound => (readInteger (-2 ^ 31) (2 ^ 31 - 1) bound).map (Ord.compare value.number)
      text := intText value.number, fold }
  | .bigInteger =>
    { compare := fun bound => (readInteger (-2 ^ 63) (2 ^ 63 - 1) bound).map (Ord.compare value.number)
      text := intText value.number, fold }
  | .option | .enum =>
    { compare := fun bound => (readInteger (-2 ^ 31) (2 ^ 31 - 1) bound).map (Ord.compare value.ordinal.toInt)
      text := intText value.ordinal.toInt, fold }
  | .decimal =>
    { compare := fun bound => (readNumeric bound).map (cmp value.asDecimal.rational)
      text := numericText value.asDecimal, fold }
  | .boolean =>
    { compare := fun bound => (readBoolean bound).map (cmp (decide (value.number ≠ 0)))
      text := if value.number ≠ 0 then ascii "true" else ascii "false", fold }
  | _ => { compare := fun bound => some (collation value.characters bound), text := value.characters, fold }

end Agiru.Filter
