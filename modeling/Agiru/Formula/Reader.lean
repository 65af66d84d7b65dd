import Agiru.Library.Procedure
import Agiru.Values.Field

/-! The reader of a `CalcFormula`.

It reads the text word by word. What stands between the parentheses of a constant or of a filter is
delimited by a counter of parentheses, which pauses between double quotes. -/
namespace Agiru.Formula
open Bytes

inductive How
  | const | filter | field | fieldFilter | fieldUpperLimit | fieldUpperLimitFilter
  deriving Repr, DecidableEq

structure FlowTerm where
  target : Bytes
  how : How := .const
  value : Bytes
  deriving Repr, DecidableEq

inductive Kind
  | sum | average | exist | count | min | max | lookup
  deriving Repr, DecidableEq

structure FlowFormula where
  kind : Kind := .sum
  reverseSign : Bool := false
  table : Bytes := []
  field : Bytes := []
  terms : List FlowTerm := []
  deriving Repr, DecidableEq

/-- Why a text is refused, and what is left of it there. -/
structure Refusal where
  what : Bytes
  rest : Bytes
  deriving DecidableEq

/-- What `Refuse` raises. -/
def Refusal.text (asked : FieldDef) (formula : Bytes) (refusal : Refusal) : Bytes :=
  ascii "the CalcFormula of " ++ asked.name ++ ascii " has " ++ refusal.what ++ ascii " at position " ++
    natText (formula.length - refusal.rest.length) ++ ascii ": " ++ formula

/-! ### Characters and words -/

/-- A character of a word: what `std::isalnum` says, and the underscore. -/
def isWordChar (c : UInt8) : Bool := isDigit c || (65 ≤ c && c ≤ 90) || (97 ≤ c && c ≤ 122) || c = 95

/-- `Space`. -/
def space (text : Bytes) : Bytes := text.dropWhile isSpace

/-- `Take`: the text behind a character. -/
def take (c : UInt8) (text : Bytes) : Option Bytes :=
  match space text with
  | d :: rest => if d = c then some rest else none
  | [] => none

/-- `Expect`. -/
def expect (c : UInt8) (text : Bytes) : Except Refusal Bytes :=
  match take c text with
  | some rest => .ok rest
  | none => .error ⟨ascii "no '" ++ [c, Ch.quote], space text⟩

/-- `Peek`. -/
def peek (text : Bytes) : Bytes := (space text).takeWhile isWordChar

/-- `Word`. -/
def word (text : Bytes) : Except Refusal (Bytes × Bytes) :=
  if peek text = [] then .error ⟨ascii "no word", space text⟩
  else .ok (peek text, (space text).dropWhile isWordChar)

/-- `Name`. -/
def name (text : Bytes) : Except Refusal (Bytes × Bytes) :=
  match space text with
  | c :: rest =>
    if c = Ch.doubleQuote then
      if Ch.doubleQuote ∈ rest then
        .ok (rest.takeWhile (· ≠ Ch.doubleQuote), (rest.dropWhile (· ≠ Ch.doubleQuote)).tail)
      else .error ⟨ascii "an unclosed name", c :: rest⟩
    else word text
  | [] => word text

/-- What stands before the parenthesis that closes, and behind it. -/
def balancedFrom (quoted : Bool) (depth : Nat) : Bytes → Option (Bytes × Bytes)
  | [] => none
  | c :: rest =>
    let on (quoted : Bool) (depth : Nat) :=
      (balancedFrom quoted depth rest).map fun (inner, behind) => (c :: inner, behind)
    if c = Ch.doubleQuote then on (!quoted) depth
    else if !quoted && c = Ch.openParen then on quoted (depth + 1)
    else if !quoted && c = Ch.closeParen then
      match depth with
      | 0 => some ([], rest)
      | depth + 1 => on quoted depth
    else on quoted depth

/-- `Balanced`. -/
def balanced (text : Bytes) : Except Refusal (Bytes × Bytes) :=
  match balancedFrom false 0 text with
  | some read => .ok read
  | none => .error ⟨ascii "an unclosed parenthesis", []⟩

abbrev lineFeed : UInt8 := 10

def isTrimmed (c : UInt8) : Bool := c = Ch.blank || c = Ch.tab || c = Ch.carriageReturn || c = lineFeed

/-- `Trimmed`. -/
def trimmed (text : Bytes) : Bytes := (text.dropWhile isTrimmed).rdropWhile isTrimmed

/-- A literal's text, of two quotes one; the last character but one stands for itself. -/
def undoubled : Bytes → Bytes
  | c :: d :: rest => if c = Ch.quote ∧ d = Ch.quote then c :: undoubled rest else c :: undoubled (d :: rest)
  | text => text

/-- Whether a text stands between two of a character. -/
def between (quote : UInt8) (text : Bytes) : Bool :=
  2 ≤ text.length && text.head? = some quote && text.getLast? = some quote

/-- `Unquoted`. -/
def unquoted (text : Bytes) : Bytes :=
  let text := trimmed text
  if between Ch.doubleQuote text then text.tail.dropLast
  else if between Ch.quote text then undoubled text.tail.dropLast
  else text

/-! ### Terms -/

/-- What a word is compared with, in whatever case. -/
def means (word keyword : Bytes) : Bool := sameText word keyword

/-- A name between parentheses, the second of which is expected behind it. -/
def closedName (text : Bytes) : Except Refusal (Bytes × Bytes) := do
  let (value, text) ← name text
  let text ← expect Ch.closeParen text
  return (value, text)

/-- What a field's parentheses hold. -/
def readField (text : Bytes) : Except Refusal ((How × Bytes) × Bytes) :=
  if means (peek text) (ascii "upperlimit") then do
    let (_, text) ← word text
    let text ← expect Ch.openParen text
    if means (peek text) (ascii "filter") then
      let (_, text) ← word text
      let text ← expect Ch.openParen text
      let (value, text) ← closedName text
      let text ← expect Ch.closeParen text
      return ((.fieldUpperLimitFilter, value), text)
    else
      let (value, text) ← closedName text
      return ((.fieldUpperLimit, value), text)
  else if means (peek text) (ascii "filter") then do
    let (_, text) ← word text
    let text ← expect Ch.openParen text
    let (value, text) ← closedName text
    return ((.fieldFilter, value), text)
  else do
    let (value, text) ← name text
    return ((.field, value), text)

/-- How a term's value is meant, and what it is. -/
def readHow (how text : Bytes) : Except Refusal ((How × Bytes) × Bytes) :=
  if means how (ascii "const") then do
    let (inner, text) ← balanced text
    return ((.const, unquoted inner), text)
  else if means how (ascii "filter") then do
    let (inner, text) ← balanced text
    return ((.filter, trimmed inner), text)
  else if means how (ascii "field") then do
    let (value, text) ← readField text
    let text ← expect Ch.closeParen text
    return (value, text)
  else .error ⟨ascii "a filter of the kind " ++ how, text⟩

def readTerm (text : Bytes) : Except Refusal (FlowTerm × Bytes) := do
  let (target, text) ← name text
  let text ← expect Ch.equals text
  let (how, text) ← word text
  let text ← expect Ch.openParen text
  let ((how, value), text) ← readHow how text
  return (⟨target, how, value⟩, text)

/-- `ReadTerms`, in at most so many turns. -/
def readTerms : Nat → Bytes → Except Refusal (List FlowTerm × Bytes)
  | 0, text => .error ⟨ascii "no word", text⟩
  | turns + 1, text => do
    let (term, text) ← readTerm text
    match take Ch.comma text with
    | some text =>
      let (terms, text) ← readTerms turns text
      return (term :: terms, text)
    | none =>
      let text ← expect Ch.closeParen text
      return ([term], text)

/-! ### The formula -/

/-- The word of each kind, in the order in which they are tried. -/
def kinds : List (Bytes × Kind) :=
  [(ascii "sum", .sum), (ascii "average", .average), (ascii "exist", .exist), (ascii "count", .count),
    (ascii "min", .min), (ascii "max", .max), (ascii "lookup", .lookup)]

/-- `KindOf`. -/
def kindOf (word text : Bytes) : Except Refusal Kind :=
  match kinds.find? fun one => means one.1 word with
  | some one => .ok one.2
  | none => .error ⟨ascii "the calculation " ++ word, text⟩

/-- Whether a minus stands first, and what is behind it. -/
def readSign (text : Bytes) : Bool × Bytes :=
  match take Ch.minus text with
  | some text => (true, text)
  | none => (false, text)

/-- The field behind a dot, if one is named. -/
def readColumn (text : Bytes) : Except Refusal (Bytes × Bytes) :=
  match take Ch.dot text with
  | some text => name text
  | none => .ok ([], text)

/-- The terms behind `where`, if there are any. -/
def readClause (text : Bytes) : Except Refusal (List FlowTerm × Bytes) :=
  if means (peek text) (ascii "where") then do
    let (_, text) ← word text
    let text ← expect Ch.openParen text
    readTerms (text.length + 1) text
  else .ok ([], text)

/-- `FormulaReader::Read`. -/
def read (text : Bytes) : Except Refusal FlowFormula := do
  let (reverseSign, text) := readSign text
  let (word, text) ← word text
  let kind ← kindOf word text
  let text ← expect Ch.openParen text
  let (table, text) ← name text
  let (field, text) ← readColumn text
  let (terms, text) ← readClause text
  let _ ← expect Ch.closeParen text
  return {kind, reverseSign, table, field, terms}

end Agiru.Formula
