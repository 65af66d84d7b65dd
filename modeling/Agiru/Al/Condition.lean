import Agiru.Al.Scanner

/-! The condition of an `#if`: `ConditionReader`.

What is read is a function of the source, or a loop in one with the value it has come to. -/
namespace Agiru.Al.Condition
open Fuel

inductive Part
  | primary
  | and
  | conjuncts (value : Bool)
  | or
  | disjuncts (value : Bool)

structure Call where
  depth : Nat
  part : Part
  text : List Char

/-- The value of what a call has read, and what is left. -/
abbrev Reader := Call → Lex (Bool × List Char)

def maxDepth : Nat := 64

def skipSpace (text : List Char) : List Char := text.dropWhile isSpace

def readWord (text : List Char) : List Char × List Char :=
  (((skipSpace text).takeWhile isIdentifierPart).map lower, (skipSpace text).dropWhile isIdentifierPart)

def tooDeep {α : Type} : Lex α := lexError "a #if condition nests too deeply"

section
variable (rec : Reader) (depth : Nat)

def readPrimary (text : List Char) : Lex (Bool × List Char) :=
  if maxDepth < depth + 1 then tooDeep
  else if (skipSpace text).head? = some '(' then do
    let (inner, text) ← rec ⟨depth + 1, .or, (skipSpace text).tail⟩
    let text := skipSpace text
    pure (inner, if text.head? = some ')' then text.tail else text)
  else
    let (word, rest) := readWord text
    if word = ['n', 'o', 't'] then do
      let (value, rest) ← rec ⟨depth, .primary, rest⟩
      pure (!value, rest)
    else if word = ['t', 'r', 'u', 'e'] then pure (true, rest)
    else if word = [] then pure (false, (skipSpace text).tail)
    else pure (false, rest)

def readAnd (text : List Char) : Lex (Bool × List Char) := do
  let (value, text) ← rec ⟨depth, .primary, text⟩
  rec ⟨depth, .conjuncts value, text⟩

/-- The loop of `ReadAnd`. -/
def readConjuncts (value : Bool) (text : List Char) : Lex (Bool × List Char) :=
  let (word, rest) := readWord text
  if word ≠ ['a', 'n', 'd'] then pure (value, text)
  else do
    let (primary, rest) ← rec ⟨depth, .primary, rest⟩
    rec ⟨depth, .conjuncts (primary && value), rest⟩

def readOr (text : List Char) : Lex (Bool × List Char) := do
  let (value, text) ← rec ⟨depth, .and, text⟩
  rec ⟨depth, .disjuncts value, text⟩

/-- The loop of `ReadOr`. -/
def readDisjuncts (value : Bool) (text : List Char) : Lex (Bool × List Char) :=
  let (word, rest) := readWord text
  if word ≠ ['o', 'r'] then pure (value, text)
  else do
    let (conjunction, rest) ← rec ⟨depth, .and, rest⟩
    rec ⟨depth, .disjuncts (conjunction || value), rest⟩

end

/-- One call of the reader. -/
def step (rec : Reader) : Reader
  | ⟨depth, .primary, text⟩ => readPrimary rec depth text
  | ⟨depth, .and, text⟩ => readAnd rec depth text
  | ⟨depth, .conjuncts value, text⟩ => readConjuncts rec depth value text
  | ⟨depth, .or, text⟩ => readOr rec depth text
  | ⟨depth, .disjuncts value, text⟩ => readDisjuncts rec depth value text

def Part.rank : Part → Nat
  | .primary | .conjuncts _ | .disjuncts _ => 0
  | .and => 1
  | .or => 2

/-- How much fuel a call needs. -/
def Call.need (call : Call) : Nat := 3 * call.text.length + call.part.rank

def evaluate (text : List Char) : Lex Bool :=
  Prod.fst <$> run step (Call.need ⟨0, .or, text⟩ + 1) ⟨0, .or, text⟩

end Agiru.Al.Condition
