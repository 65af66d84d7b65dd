import Agiru.Library.Search
import Agiru.Values.Clock
import Agiru.Values.Decimal

/-! Tables, fields, and the values a record holds.

A record is its fields' values by number; `FieldDef.type` says as what a field is
read. `fieldText` is the text of a field and `compareField` the order of two records
in one field; by `compareField_eq` it is the order of what they sort by, a number or a
text, and so transitive. -/
namespace Agiru

inductive FieldType
  | boolean | option | integer | decimal | date | time | blob | dateFormula | bigInteger
  | duration | guid | dateTime | recordId | tableFilter | text | code | mediaSet | media | enum
  deriving Repr, DecidableEq

inductive FieldClass
  | normal | flowField | flowFilter
  deriving Repr, DecidableEq

abbrev FieldNo := Nat

/-- A declared value of an Option or Enum field. -/
structure EnumValueDef where
  ordinal : Int32
  name : Bytes
  caption : Bytes
  deriving Repr, DecidableEq

structure FieldDef where
  no : FieldNo
  name : Bytes
  caption : Bytes
  type : FieldType
  fieldClass : FieldClass := .normal
  length : Nat := 0
  values : List EnumValueDef := []
  deriving Repr, DecidableEq

structure KeyDef where
  fields : List FieldNo
  enabled : Bool := true
  deriving Repr, DecidableEq

/-- A table's declaration. The generator asserts that its fields are sorted by number,
and its keys name fields. -/
structure TableDef where
  name : Bytes
  caption : Bytes
  fields : List FieldDef
  keys : List KeyDef
  sorted : fields.Pairwise fun a b => a.no < b.no
  keyed : ∀ key ∈ keys, ∀ no ∈ key.fields, ∃ field ∈ fields, field.no = no
  numbered : ∀ field ∈ fields, field.no < 2 ^ 31

/-- The first key's fields. -/
def TableDef.primaryKey (table : TableDef) : List FieldNo :=
  match table.keys with
  | [] => []
  | key :: _ => key.fields

/-- `Field`, by binary search. -/
def TableDef.field (table : TableDef) (no : FieldNo) : Option FieldDef :=
  Search.search (fun f => Ord.compare f.no no) table.fields

/-- `ValueOf`: by position where the ordinals are dense, else by binary search. -/
def valueOf (values : List EnumValueDef) (ordinal : Int32) : Option EnumValueDef :=
  if ordinal < 0 then none
  else
    match values[ordinal.toInt.toNat]? with
    | some value =>
      if value.ordinal = ordinal then some value
      else Search.search (fun v => Ord.compare v.ordinal ordinal) values
    | none => Search.search (fun v => Ord.compare v.ordinal ordinal) values

structure Guid where
  bytes : Bytes
  size : bytes.length = 16
  deriving DecidableEq

def Guid.zero : Guid := ⟨List.replicate 16 0, rfl⟩

structure RecordId where
  table : Nat
  caption : Bytes
  key : List Bytes
  deriving DecidableEq

/-- A date formula by its texts: as AL wrote it, in the session's language, and as
stored. -/
structure DateFormula where
  text : Bytes
  shown : Bytes
  stored : Bytes
  deriving DecidableEq

inductive Value
  | boolean (b : Bool)
  | integer (n : Int32)
  | bigInteger (n : Int64)
  | option (ordinal : Int32)
  | decimal (d : Decimal)
  | date (d : Date)
  | time (t : Time)
  | dateTime (t : DateTime)
  | duration (milliseconds : Int64)
  | text (s : Bytes)
  | code (s : Bytes)
  | guid (g : Guid)
  | recordId (r : RecordId)
  | dateFormula (f : DateFormula)
  | blob (bytes : Bytes)
  | tableFilter (s : Bytes)
  | media (g : Guid)
  | mediaSet (g : Guid)
  deriving DecidableEq

/-- A record: the value of every field, by number. -/
abbrev Record := FieldNo → Value

namespace Value

/-! A value read as a type. Memory that was written as another type reads as zero. -/

def number : Value → Int
  | .boolean b => if b then 1 else 0
  | .integer n => n.toInt
  | .bigInteger n => n.toInt
  | .option ordinal => ordinal.toInt
  | .date d => d.serial
  | .time t => t.milliseconds
  | .dateTime t => t.milliseconds
  | .duration ms => ms.toInt
  | _ => 0

def ordinal : Value → Int32
  | .option n => n
  | _ => 0

def asDecimal : Value → Decimal
  | .decimal d => d
  | _ => .zero

def asDate : Value → Date
  | .date d => d
  | _ => .undefined

def asTime : Value → Time
  | .time t => t
  | _ => ⟨0, Time.zero_bounded⟩

def asDateTime : Value → DateTime
  | .dateTime t => t
  | _ => ⟨0, DateTime.zero_bounded⟩

def characters : Value → Bytes
  | .text s | .code s | .tableFilter s | .blob s => s
  | _ => []

def asGuid : Value → Guid
  | .guid g | .media g | .mediaSet g => g
  | _ => .zero

def asRecordId : Value → RecordId
  | .recordId r => r
  | _ => ⟨0, [], []⟩

def asDateFormula : Value → DateFormula
  | .dateFormula f => f
  | _ => ⟨[], [], []⟩

end Value

/-! ### The text of a field -/

/-- `Numeric.cpp`'s `ToText(Boolean)`. -/
def booleanText (b : Bool) : Bytes := if b then Bytes.ascii "Yes" else Bytes.ascii "No"

def hexDigit (upper : Bool) (n : Nat) : UInt8 :=
  if n < 10 then Bytes.digitChar n else UInt8.ofNat ((if upper then 65 else 97) + (n - 10))

def hexByte (upper : Bool) (b : UInt8) : Bytes :=
  [hexDigit upper (b.toNat / 16), hexDigit upper (b.toNat % 16)]

/-- `Hyphenated`: groups of 4, 2, 2, 2 and 6 bytes. -/
def Guid.hyphenated (g : Guid) : Bytes :=
  let group (start count : Nat) := ((g.bytes.drop start).take count).flatMap (hexByte true)
  group 0 4 ++ [Bytes.Ch.minus] ++ group 4 2 ++ [Bytes.Ch.minus] ++ group 6 2 ++
    [Bytes.Ch.minus] ++ group 8 2 ++ [Bytes.Ch.minus] ++ group 10 6

/-- `ToText`. -/
def Guid.toText (g : Guid) : Bytes := Bytes.ascii "\x7b" ++ g.hyphenated ++ Bytes.ascii "\x7d"

/-- `ToText`: the caption and the key values. -/
def RecordId.toText (r : RecordId) : Bytes :=
  if r.key = [] then []
  else r.caption ++ Bytes.ascii ": " ++ (r.key.intersperse [Bytes.Ch.comma]).flatten

/-- `ToStorageText`. -/
def RecordId.toStorageText (r : RecordId) : Bytes :=
  if r.key = [] then []
  else Bytes.natText r.table ++ [Bytes.Ch.unitSeparator] ++ r.caption ++
    r.key.flatMap fun value => Bytes.Ch.unitSeparator :: value

/-- `MemberText`. -/
def memberText (field : FieldDef) (ordinal : Int32) : Bytes :=
  match valueOf field.values ordinal with
  | none => intText ordinal.toInt
  | some value => if value.caption = [] then value.name else value.caption

/-- `FieldText`. -/
def fieldText (record : Record) (field : FieldDef) : Bytes :=
  let value := record field.no
  match field.type with
  | .code | .text | .tableFilter => value.characters
  | .decimal => value.asDecimal.toInvariantString
  | .date => value.asDate.toInvariantString
  | .time => value.asTime.toInvariantString
  | .dateTime => value.asDateTime.toInvariantString
  | .guid | .media | .mediaSet => value.asGuid.toText
  | .recordId => value.asRecordId.toText
  | .dateFormula => value.asDateFormula.shown
  | .integer | .bigInteger | .duration => intText value.number
  | .boolean => booleanText (value.number ≠ 0)
  | .option | .enum => memberText field value.ordinal
  | .blob => Bytes.ascii "\\x" ++ value.characters.flatMap (hexByte false)

/-! ### The order of two records in a field -/

/-- `CompareField`. -/
def compareField (a b : Record) (field : FieldDef) : Ordering :=
  match field.type with
  | .integer | .bigInteger | .boolean | .option | .enum | .date | .time | .dateTime =>
    Ord.compare (a field.no).number (b field.no).number
  | .decimal => (a field.no).asDecimal.compare (b field.no).asDecimal
  | _ => Ord.compare (fieldText a field) (fieldText b field)

/-- A field's text and order are those of what the records hold in it. -/
theorem fieldText_congr {a b : Record} {field : FieldDef} (h : a field.no = b field.no) :
    fieldText a field = fieldText b field := by
  simp only [fieldText, h]

theorem compareField_congr {a a' b b' : Record} {field : FieldDef} (ha : a field.no = a' field.no)
    (hb : b field.no = b' field.no) : compareField a b field = compareField a' b' field := by
  simp only [compareField, fieldText, ha, hb]

/-- What a record of a numeric field sorts by. -/
def sortNumber (field : FieldDef) (record : Record) : Int :=
  match field.type with
  | .integer | .bigInteger | .boolean | .option | .enum | .date | .time | .dateTime =>
    (record field.no).number
  | .decimal => (record field.no).asDecimal.value
  | _ => 0

/-- What a record of any other field sorts by. -/
def sortText (field : FieldDef) (record : Record) : Bytes :=
  match field.type with
  | .integer | .bigInteger | .boolean | .option | .enum | .date | .time | .dateTime | .decimal => []
  | _ => fieldText record field

theorem compareField_eq (field : FieldDef) :
    (fun a b => compareField a b field) =
      compareLex (compareOn (sortNumber field)) (compareOn (sortText field)) := by
  funext a b
  have hsame : ∀ o : Ordering, (o.then .eq) = o := fun o => by cases o <;> rfl
  cases h : field.type <;>
    simp only [compareField, compareLex, compareOn, sortNumber, sortText, h, Decimal.compare_eq] <;>
    first
    | rfl
    | exact (hsame _).symm

/-- The records compare in a field as their sort values do, so transitively. -/
instance (field : FieldDef) : Std.TransCmp fun a b => compareField a b field := by
  rw [compareField_eq]
  infer_instance

end Agiru
