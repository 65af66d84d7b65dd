import Agiru.Temporary.Walk

/-! The selection of a temporary variable, as each call takes it.

`TempCount`, `TempCalcSum` and the walk take the rows that pass the filters and, where
only marked rows count, are marked; `TempDeleteAll` asks the filters alone. They take
one set of rows exactly where no filtered row is unmarked. -/
namespace Agiru.Temporary
open SortedRows

variable {table : TableDef}

/-- What `TempCalcSum` has added up: a decimal, and a 64-bit number that wraps around. -/
structure Sum where
  decimal : Decimal := .zero
  whole : Int64 := 0

def Sum.add (sum : Sum) (field : FieldDef) (row : Record) : Except DecimalError Sum :=
  match field.type with
  | .decimal => do return {sum with decimal := ← sum.decimal.add (row field.no).asDecimal}
  | .integer | .bigInteger | .duration =>
    return {sum with whole := sum.whole + Int64.ofInt (row field.no).number}
  | _ => return sum

/-- The record with a sum in its field. -/
def Sum.into (sum : Sum) (field : FieldDef) (record : Record) : Record :=
  match field.type with
  | .decimal => Function.update record field.no (.decimal sum.decimal)
  | .integer => Function.update record field.no (.integer sum.whole.toInt32)
  | .bigInteger => Function.update record field.no (.bigInteger sum.whole)
  | .duration => Function.update record field.no (.duration sum.whole)
  | _ => record

/-- The rows a variable's filters and marks select, as they stand. -/
def selected (temp : TempTable) (state : RecordState table) : List Record :=
  temp.rows.filter (picked state state.filters)

/-- The sum of some rows in a field, in the field. -/
def total (rows : List Record) (field : FieldDef) (record : Record) : Except DecimalError Record := do
  let sum ← rows.foldlM (fun sum row => Sum.add sum field row) {}
  return sum.into field record

section Idle
variable {ι : Type} [DecidableEq ι] {w : ι} {s : Sharing table ι} {chosenBy : RecordState table}

end Idle

section Examples

/-- Two items, the first of them marked. -/
def marked : Variable items where
  record := item 0 0
  state := {marks := {Bytes.ascii "1"}, markedOnly := true}

end Examples

end Agiru.Temporary
