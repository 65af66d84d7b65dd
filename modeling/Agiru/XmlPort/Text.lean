import Agiru.Library.Bytes
import Agiru.Library.Occurs

/-! XmlPorts of the text formats.

`XmlPortOutput` writes a record as a line: in variable text its fields are wrapped in the
delimiter and joined by the field separator, in fixed text they are padded. `XmlPortInput`
splits a text into records first, and a record into fields then, and hands them out as its
caller enters and leaves them. A position in a text is what is left of it; past its end there
is none. -/
namespace Agiru.XmlPort
open Bytes Occurs

inductive XmlPortFormat
  | fixedText
  | variableText
  deriving DecidableEq

structure XmlPortSeparators where
  field : Bytes
  record : Bytes
  delimiter : Bytes

/-! ### Output -/

structure XmlPortOutput where
  format : XmlPortFormat
  separators : XmlPortSeparators
  lines : Bytes := []
  fields : List Bytes := []
  inRecord : Bool := false

def padded (text : Bytes) (width : Nat) : Bytes :=
  if width = 0 then text else (text.take width).rightpad width Ch.blank

def XmlPortOutput.beginRecord (out : XmlPortOutput) : XmlPortOutput :=
  {out with fields := [], inRecord := true}

/-- The fields of a line, with what stands between them. -/
def XmlPortOutput.joined (out : XmlPortOutput) : List Bytes → Bytes
  | [] => []
  | [field] => field
  | field :: next :: rest =>
    field ++ (if out.format = .variableText then out.separators.field else []) ++
      out.joined (next :: rest)

def XmlPortOutput.endRecord (out : XmlPortOutput) : XmlPortOutput :=
  {out with
    lines := out.lines ++ out.joined out.fields ++ out.separators.record
    fields := []
    inRecord := false}

def XmlPortOutput.value (out : XmlPortOutput) (text : Bytes) (width : Nat) : XmlPortOutput :=
  let field := match out.format with
    | .fixedText => padded text width
    | .variableText => out.separators.delimiter ++ text ++ out.separators.delimiter
  if out.inRecord then {out with fields := out.fields ++ [field]}
  else {out with lines := out.lines ++ field ++ out.separators.record}

/-- A record, by its fields' texts. -/
def XmlPortOutput.record (out : XmlPortOutput) (fields : List Bytes) : XmlPortOutput :=
  (fields.foldl (fun out text => out.value text 0) out.beginRecord).endRecord

/-- The lines of a list of records, in variable text. -/
def written (separators : XmlPortSeparators) (records : List (List Bytes)) : Bytes :=
  (records.foldl XmlPortOutput.record {format := .variableText, separators}).lines

/-! ### Input -/

abbrev lineFeed : UInt8 := 10

def crlf : Bytes := [Ch.carriageReturn, lineFeed]

/-- A line without the `\r` at its end. -/
def withoutReturn (line : Bytes) : Bytes :=
  if line.getLast? = some Ch.carriageReturn then line.dropLast else line

def readTextRecord (text separator : Bytes) : Bytes × Option Bytes :=
  match if separator = [] then none else cut separator text with
  | some (line, next) => (withoutReturn line, some next)
  | none =>
    match if separator = crlf then cut [lineFeed] text else none with
    | some (line, next) => (withoutReturn line, some next)
    | none => (withoutReturn text, none)

/-- A field in delimiters, and where the next one begins. -/
def readQuotedField (line : Bytes) (separators : XmlPortSeparators) : Option (Bytes × Option Bytes) :=
  if separators.delimiter = [] || !separators.delimiter.isPrefixOf line then none
  else match cut separators.delimiter (line.drop separators.delimiter.length) with
  | none => none
  | some (field, after) => some (field, (cut separators.field after).map Prod.snd)

/-- The fields of a line, which has fewer characters than the fuel. -/
def readTextFieldsFrom (separators : XmlPortSeparators) : Nat → Bytes → List Bytes
  | 0, _ => []
  | fuel + 1, line =>
    match readQuotedField line separators with
    | some (field, next) => field :: next.elim [] (readTextFieldsFrom separators fuel)
    | none =>
      match cut separators.field line with
      | some (field, next) => field :: readTextFieldsFrom separators fuel next
      | none => [line]

def readTextFields (line : Bytes) (separators : XmlPortSeparators) : List Bytes :=
  readTextFieldsFrom separators (line.length + 1) line

def fieldsOf (format : XmlPortFormat) (separators : XmlPortSeparators) (line : Bytes) : List Bytes :=
  if format = .fixedText || separators.field = [] then [line] else readTextFields line separators

def parseLinesFrom (format : XmlPortFormat) (separators : XmlPortSeparators) :
    Nat → Bytes → List (List Bytes)
  | 0, _ => []
  | fuel + 1, text =>
    match readTextRecord text separators.record with
    | (line, next) =>
      if line = [] && next = none then []
      else fieldsOf format separators line :: next.elim [] (parseLinesFrom format separators fuel)

def parseLines (format : XmlPortFormat) (separators : XmlPortSeparators) (text : Bytes) :
    List (List Bytes) :=
  parseLinesFrom format separators (text.length + 1) text

structure XmlPortInput where
  lines : List (List Bytes)
  line : Nat := 0
  field : Nat := 0
  depth : Nat := 0

def XmlPortInput.load (text : Bytes) (format : XmlPortFormat) (separators : XmlPortSeparators) :
    XmlPortInput :=
  {lines := parseLines format separators text}

def XmlPortInput.enter (input : XmlPortInput) : Option XmlPortInput :=
  if input.depth = 0 then some {input with depth := 1}
  else if input.depth = 1 then
    if input.lines.length ≤ input.line then none else some {input with field := 0, depth := 2}
  else if (input.lines[input.line]?.getD []).length ≤ input.field then none
  else some {input with depth := input.depth + 1}

def XmlPortInput.leave (input : XmlPortInput) : XmlPortInput :=
  if input.depth = 3 then {input with field := input.field + 1, depth := 2}
  else if input.depth = 2 then {input with line := input.line + 1, depth := 1}
  else {input with depth := input.depth - 1}

def XmlPortInput.text (input : XmlPortInput) : Bytes :=
  (input.lines[input.line]?.getD [])[input.field]?.getD []

/-- What a caller reads that enters and leaves one field of a record after the other. -/
def XmlPortInput.readFields : Nat → XmlPortInput → List Bytes × XmlPortInput
  | 0, input => ([], input)
  | limit + 1, input =>
    match input.enter with
    | none => ([], input)
    | some entered =>
      let (fields, after) := readFields limit entered.leave
      (entered.text :: fields, after)

/-- What a caller reads that enters and leaves one record after the other. -/
def XmlPortInput.readRecords : Nat → XmlPortInput → List (List Bytes)
  | 0, _ => []
  | limit + 1, input =>
    match input.enter with
    | none => []
    | some entered =>
      let (fields, after) := entered.readFields ((entered.lines[entered.line]?.getD []).length + 1)
      fields :: readRecords limit after.leave

/-- The records that a caller reads of a loaded text: it enters the root, and then each record. -/
def XmlPortInput.records (input : XmlPortInput) : List (List Bytes) :=
  match input.enter with
  | none => []
  | some root => root.readRecords (root.lines.length + 1)

end Agiru.XmlPort
