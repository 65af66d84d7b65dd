import Agiru.Position.Taken

/-! `Validate` and `Rename`: a record is changed first, and the triggers, checks and subscribers then
run over it.

What these do is their own: each is a `Behaviour`, which changes the record's fields as it likes, may
`Validate` and `Rename` the same record again, and may raise at any point. The record before the
outermost of the calls is what a trigger reads as `xRec`, from the stack of before-images. -/
namespace Agiru.Trigger
open Bytes Position Procedure Storage

/-- A record variable, the before-images of its running triggers, the innermost first, and the image of
what was last read or written. -/
structure World where
  fields : Fields
  images : List Fields
  image : Fields

/-- A step of the runtime or of a program: it raises a text. -/
abbrev Step := Procedure Bytes World PUnit

variable {table : TableDef}

/-- What the calls use of the session and of the table. -/
structure Platform (table : TableDef) where
  language : Int32
  declaredPlaces : FieldDef → Decimal → Except Bytes Decimal
  fieldText : Fields → FieldDef → Bytes

/-! ### The record and its images -/

def fieldsNow : Procedure Bytes World Fields := do return (← get).fields

def restore (fields : Fields) : Step := modify fun world => {world with fields}

def put (field : FieldDef) (value : FieldHolds field.type) : Step :=
  modify fun world => {world with fields := Function.update world.fields field value}

/-- `PushBefore`. -/
def pushBefore (image : Fields) : Step := modify fun world => {world with images := image :: world.images}

/-- `PopBefore`. -/
def popBefore : Step := modify fun world => {world with images := world.images.tail}

/-- `BeforeImage`: an image that is held while a body runs, whether it raises or not. -/
def holding (image : Fields) (body : Step) : Step := do
  pushBefore image
  tryCatch body fun error => do
    popBefore
    throw error
  popBefore

/-- `StoredImage`: what a program reads as `xRec`. -/
def World.before (world : World) : Fields := world.images.getLast?.getD world.image

/-- `CaptureImage`. -/
def captureImage : Step := modify fun world => {world with image := world.fields}

/-- `SetFieldText`. -/
def setText (platform : Platform table) (field : FieldDef) (text : Bytes) : Step :=
  match setFieldText platform.language field text field.type with
  | .ok value => put field value
  | .error refusal => throw refusal.text

/-! ### What was typed -/

/-- `EvaluatedInteger` of a signed type of so many bits: all of the text is one number. -/
def evaluatedInteger (bits : Nat) (text : Bytes) : Option Int :=
  if text = [] then some 0
  else
    let spaceless := text.dropWhile isSpace
    let signed := spaceless.head? = some Ch.minus ∨ spaceless.head? = some Ch.plus
    let digits := if signed then spaceless.tail else spaceless
    if digits.all isDigit then
      (strtol 10 text).filter fun n => decide (-2 ^ (bits - 1) ≤ n) && decide (n < 2 ^ (bits - 1))
    else none

def cannotEvaluate (field : FieldDef) (text : Bytes) : Bytes :=
  ascii "The value \"" ++ text ++ ascii "\" can't be evaluated into type " ++ field.name ++ ascii "."

/-- The value of a typed text, or the refusal to evaluate it. -/
def typed {α : Type} (field : FieldDef) (text : Bytes) (read : Option α) : Except Bytes α :=
  match read with
  | some value => .ok value
  | none => .error (cannotEvaluate field text)

/-- What the column's reader reads. -/
def columnRead (platform : Platform table) (field : FieldDef) (type : FieldType) (text : Bytes) :
    Except Bytes (FieldHolds type) :=
  (setFieldText platform.language field text type).mapError ColumnError.text

/-- The ordinal that a member's text names, where it is a number. -/
def typedOrdinal (platform : Platform table) (field : FieldDef) (type : FieldType) (text : Bytes) :
    Except Bytes (FieldHolds type) :=
  let ordinal := memberOrdinal field text
  if ordinal.all fun c => c = Ch.minus || isDigit c then columnRead platform field type ordinal
  else .error (cannotEvaluate field text)

/-- `EvaluateInto`: the value a typed text gives a field of a type. -/
def evaluated (platform : Platform table) (field : FieldDef) (text : Bytes) :
    (type : FieldType) → Except Bytes (FieldHolds type)
  | .decimal => do platform.declaredPlaces field (← typed field text (evaluatedDecimal text))
  | .integer => (typed field text (evaluatedInteger 32 text)).map Int32.ofInt
  | .bigInteger => (typed field text (evaluatedInteger 64 text)).map Int64.ofInt
  | .boolean => typed field text (evaluatedBoolean text)
  | .date => typed field text (evaluatedDate text)
  | .option => typedOrdinal platform field .option text
  | .enum => typedOrdinal platform field .enum text
  | .time => columnRead platform field .time text
  | .dateTime => columnRead platform field .dateTime text
  | .duration => columnRead platform field .duration text
  | .blob => columnRead platform field .blob text
  | .dateFormula => columnRead platform field .dateFormula text
  | .guid => columnRead platform field .guid text
  | .recordId => columnRead platform field .recordId text
  | .tableFilter => columnRead platform field .tableFilter text
  | .text => columnRead platform field .text text
  | .code => columnRead platform field .code text
  | .mediaSet => columnRead platform field .mediaSet text
  | .media => columnRead platform field .media text

/-- An assignment: a value that does not convert is refused before it is written. -/
def assignField (field : FieldDef) (value : Except Bytes (FieldHolds field.type)) : Step :=
  match value with
  | .ok value => put field value
  | .error refusal => throw refusal

def evaluateInto (platform : Platform table) (no : FieldNo) (text : Bytes) : Step :=
  match table.field no with
  | none => throw (ascii "the table lacks the field a control writes")
  | some field => assignField field (evaluated platform field text field.type)

/-! ### Validate -/

/-- What a validation runs. -/
structure ValidateHooks where
  checkRelation : Step
  onBeforeValidate : Step
  onValidate : Step
  onAfterValidate : Step

def ValidateHooks.run (hooks : ValidateHooks) : Step := do
  hooks.checkRelation
  hooks.onBeforeValidate
  hooks.onValidate
  hooks.onAfterValidate

/-- A body that puts the record back where it raises. -/
def restoring (before : Fields) (body : Step) : Step :=
  tryCatch body fun error => do
    restore before
    throw error

/-- `Validate`. -/
def validate (field : FieldDef) (value : Except Bytes (FieldHolds field.type)) (hooks : ValidateHooks) :
    Step := do
  let before ← fieldsNow
  holding before do
    assignField field value
    restoring before hooks.run

/-- `ValidateText`. -/
def validateText (platform : Platform table) (no : FieldNo) (text : Bytes) (hooks : ValidateHooks) : Step := do
  let before ← fieldsNow
  holding before do
    restoring before do
      evaluateInto platform no text
      hooks.run

/-- `Validate` without a value. -/
def validateAgain (checkRelation onValidate : Step) : Step := do
  let before ← fieldsNow
  holding before do
    checkRelation
    onValidate

/-! ### Rename -/

/-- A value of a key: a text, a whole number or a member, or a value of another type. -/
inductive KeyValue
  | text (text : Bytes)
  | whole (n : Int)
  | typed (type : FieldType) (value : FieldHolds type)

/-- A field that a whole number is written to by its text. -/
def countsWhole : FieldType → Bool
  | .option | .enum | .integer | .bigInteger => true
  | _ => false

def wrongType (field : FieldDef) : Bytes :=
  ascii "Get: " ++ field.name ++
    ascii " is not the type this key value is, and writing it there would write past the field"

/-- `AssignKey`. -/
def assignKey (platform : Platform table) (position : Nat) (value : KeyValue) : Step :=
  match (table.primaryKey[position]?).bind table.field with
  | none => throw (ascii "Get: the primary key names a field the table lacks")
  | some field =>
    match value with
    | .text text => setText platform field text
    | .whole n => if countsWhole field.type then setText platform field (intText n) else throw (wrongType field)
    | .typed type value => if h : field.type = type then put field (h ▸ value) else throw (wrongType field)

/-- What a rename runs. The row operation is handed the record and the record as it was; it may write to
the record, and answers whether a row carried the old key. -/
structure RenameHooks where
  permission : Step
  onBeforeRename : Step
  onRename : Step
  row : Fields → Fields → Fields × Except Bytes Bool
  onAfterRename : Step

/-- `RuntimeRename`. -/
def runtimeRename (hooks : RenameHooks) (before : Fields) : Procedure Bytes World Bool := do
  let (fields, outcome) := hooks.row (← fieldsNow) before
  restore fields
  match outcome with
  | .ok found => return found
  | .error refusal => throw refusal

/-- `RecordKeyText`. -/
def primaryKeyText (platform : Platform table) (fields : Fields) : Bytes :=
  List.intercalate (ascii ", ") ((table.primaryKey.filterMap table.field).map fun field =>
    (if field.caption = [] then field.name else field.caption) ++ ascii "='" ++
      platform.fieldText fields field ++ ascii "'")

def doesNotExist (platform : Platform table) (fields : Fields) : Bytes :=
  ascii "The " ++ table.name ++ ascii " does not exist. Identification fields and values: " ++
    primaryKeyText platform fields

/-- The row operation, and the record put back where no row carries the old key. -/
def renameRow (platform : Platform table) (hooks : RenameHooks) (before : Fields) : Step := do
  if !(← runtimeRename hooks before) then
    restore before
    throw (doesNotExist platform before)

/-- `RenameFrom`. -/
def renameFrom (platform : Platform table) (hooks : RenameHooks) (before : Fields) : Step := do
  hooks.permission
  hooks.onBeforeRename
  holding before hooks.onRename
  renameRow platform hooks before
  hooks.onAfterRename
  captureImage

/-- `Rename`. -/
def rename (platform : Platform table) (keys : List KeyValue) (hooks : RenameHooks) : Step := do
  let before ← fieldsNow
  keys.zipIdx.forM fun key => assignKey platform key.2 key.1
  renameFrom platform hooks before

/-- A key's text, as a reference to a record assigns it. -/
def assignKeyText (platform : Platform table) (position : Nat) (text : Bytes) : Step :=
  match (table.primaryKey[position]?).bind table.field with
  | none => throw (ascii "RecordRef.Rename: the primary key names no field")
  | some field => setText platform field text

/-- `RecordRef::RenameKeys_`. -/
def renameKeys (platform : Platform table) (installed : Bool) (keys : List Bytes) (hooks : RenameHooks) : Step :=
  if table.keys = [] ∨ keys.length ≠ table.primaryKey.length then
    throw (ascii "RecordRef.Rename: " ++ table.name ++ ascii " has a primary key of " ++
      natText table.primaryKey.length ++ ascii " field(s), and " ++ natText keys.length ++
      ascii " value(s) were given")
  else if !installed then throw (ascii "RecordRef.Rename: this installation carries no " ++ table.name)
  else do
    let before ← fieldsNow
    keys.zipIdx.forM fun key => assignKeyText platform key.2 key.1
    renameFrom platform hooks before

/-! ### Behaviours -/

/-- What a trigger, a check or a subscriber does: it reads the record and `xRec`, writes to the record,
and calls for the record again; the calls run behaviours of their own, and the program goes on with how
they ended. -/
inductive Behaviour
  | finish
  | raise (error : Bytes)
  | look (next : Fields → Fields → Behaviour)
  | change (fields : Fields) (next : Behaviour)
  | validate (field : FieldDef) (value : Except Bytes (FieldHolds field.type))
      (checkRelation onBeforeValidate onValidate onAfterValidate : Behaviour) (next : Option Bytes → Behaviour)
  | validateText (no : FieldNo) (text : Bytes)
      (checkRelation onBeforeValidate onValidate onAfterValidate : Behaviour) (next : Option Bytes → Behaviour)
  | validateAgain (checkRelation onValidate : Behaviour) (next : Option Bytes → Behaviour)
  | rename (keys : List KeyValue) (permission onBeforeRename onRename : Behaviour)
      (row : Fields → Fields → Fields × Except Bytes Bool) (onAfterRename : Behaviour)
      (next : Option Bytes → Behaviour)
  | renameKeys (installed : Bool) (keys : List Bytes) (permission onBeforeRename onRename : Behaviour)
      (row : Fields → Fields → Fields × Except Bytes Bool) (onAfterRename : Behaviour)
      (next : Option Bytes → Behaviour)

/-- How a call ended: what it raised, if it did. -/
def attempt (call : Step) : Procedure Bytes World (Option Bytes) :=
  tryCatch (do call; return none) fun error => return some error

/-- A behaviour as it runs. -/
def Behaviour.run (platform : Platform table) : Behaviour → Step
  | finish => pure ⟨⟩
  | raise error => throw error
  | look next => do
    let world ← get
    (next world.fields world.before).run platform
  | change fields next => do
    restore fields
    next.run platform
  | validate field value checkRelation onBeforeValidate onValidate onAfterValidate next => do
    let ended ← attempt (Trigger.validate field value
      ⟨checkRelation.run platform, onBeforeValidate.run platform, onValidate.run platform,
        onAfterValidate.run platform⟩)
    (next ended).run platform
  | validateText no text checkRelation onBeforeValidate onValidate onAfterValidate next => do
    let ended ← attempt (Trigger.validateText platform no text
      ⟨checkRelation.run platform, onBeforeValidate.run platform, onValidate.run platform,
        onAfterValidate.run platform⟩)
    (next ended).run platform
  | validateAgain checkRelation onValidate next => do
    let ended ← attempt (Trigger.validateAgain (checkRelation.run platform) (onValidate.run platform))
    (next ended).run platform
  | rename keys permission onBeforeRename onRename row onAfterRename next => do
    let ended ← attempt (Trigger.rename platform keys
      ⟨permission.run platform, onBeforeRename.run platform, onRename.run platform, row,
        onAfterRename.run platform⟩)
    (next ended).run platform
  | renameKeys installed keys permission onBeforeRename onRename row onAfterRename next => do
    let ended ← attempt (Trigger.renameKeys platform installed keys
      ⟨permission.run platform, onBeforeRename.run platform, onRename.run platform, row,
        onAfterRename.run platform⟩)
    (next ended).run platform

end Agiru.Trigger
