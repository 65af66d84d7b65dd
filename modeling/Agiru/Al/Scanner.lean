import Agiru.Al.Token
import Agiru.Library.Fuel

/-! The scanner of AL: `Scanner`.

A character is a byte. The scanner is what it has not read, and the line it is on; where a loop of the source moves
the position, the function here returns what is left. -/
namespace Agiru.Al
open Fuel

/-- What is left to read, and its line. -/
structure Scanner where
  rest : List Char
  line : Nat := 1
  deriving DecidableEq

abbrev Lex (α : Type) := Answer String α

/-- `LexError`. -/
def lexError {α : Type} (message : String) : Lex α := .error (some message)

/-! ### Characters -/

def isIdentifierStart (c : Char) : Bool := c.isAlpha || c = '_'

def isIdentifierPart (c : Char) : Bool := c.isAlphanum || c = '_'

/-- `std::isspace`. -/
def isSpace (c : Char) : Bool := c = ' ' || (9 ≤ c.toNat && c.toNat ≤ 13)

def twoCharacterPunctuation : List (List Char) :=
  [[':', ':'], [':', '='], ['<', '>'], ['<', '='], ['>', '='], ['.', '.'], ['+', '='], ['-', '='], ['*', '='],
    ['/', '=']]

/-! ### What is no token -/

/-- `TakeLine`: what is left at the end of the line. -/
def takeLine (text : List Char) : List Char := text.dropWhile (· ≠ '\n')

/-- What is left behind a block comment, inside it. -/
def takeBlockComment (line : Nat) : List Char → Scanner
  | '*' :: '/' :: rest => ⟨rest, line⟩
  | c :: next :: rest => takeBlockComment (if c = '\n' then line + 1 else line) (next :: rest)
  | _ => ⟨[], line⟩

def skipOnce : Scanner → Option Scanner
  | ⟨[], _⟩ => none
  | ⟨c :: rest, line⟩ =>
    if c = '\n' then some ⟨rest, line + 1⟩
    else if isSpace c then some ⟨rest, line⟩
    else if ['/', '/'].isPrefixOf (c :: rest) then some ⟨takeLine (c :: rest), line⟩
    else if ['/', '*'].isPrefixOf (c :: rest) then some (takeBlockComment line rest.tail)
    else none

/-- `SkipTrivia`, in so many turns. -/
def skipTrivia : Nat → Scanner → Scanner
  | 0, scanner => scanner
  | turns + 1, scanner =>
    match skipOnce scanner with
    | some scanner => skipTrivia turns scanner
    | none => scanner

/-! ### Tokens -/

/-- `Make`, on the line that the scanner has come to. -/
def make (kind : TokenKind) (text : List Char) (scanner : Scanner) : Token × Scanner :=
  (⟨kind, String.ofList text, scanner.line⟩, scanner)

def lexIdentifier (scanner : Scanner) : Token × Scanner :=
  make .identifier (scanner.rest.takeWhile isIdentifierPart)
    ⟨scanner.rest.dropWhile isIdentifierPart, scanner.line⟩

/-- The loop of `LexQuotedIdentifier` and of `LexString`: what stands before the closing quote, a doubled quote for
one and without newlines, and what is left behind it. -/
def takeQuoted (quote : Char) (line : Nat) : List Char → Option (List Char × Scanner)
  | [] => none
  | c :: rest =>
    if c = quote then
      match rest with
      | d :: after =>
        if d = quote then (takeQuoted quote line after).map fun (value, scanner) => (quote :: value, scanner)
        else some ([], ⟨d :: after, line⟩)
      | [] => some ([], ⟨[], line⟩)
    else if c = '\n' then takeQuoted quote (line + 1) rest
    else (takeQuoted quote line rest).map fun (value, scanner) => (c :: value, scanner)

def lexQuoted (quote : Char) (kind : TokenKind) (unterminated : String) (scanner : Scanner) : Lex
    (Token × Scanner) :=
  match takeQuoted quote scanner.line scanner.rest.tail with
  | some (value, scanner) => pure (make kind value scanner)
  | none => lexError unterminated

def lexQuotedIdentifier : Scanner → Lex (Token × Scanner) :=
  lexQuoted '"' .quotedIdentifier "unterminated quoted identifier"

def lexString : Scanner → Lex (Token × Scanner) := lexQuoted '\'' .string "unterminated string"

/-- The digits and the one point of a number, whether there is a point, and what is left. -/
def takeNumber (fractional : Bool) : List Char → List Char × Bool × List Char
  | [] => ([], fractional, [])
  | d :: rest =>
    if d.isDigit then
      let (digits, fractional, rest) := takeNumber fractional rest
      (d :: digits, fractional, rest)
    else if d = '.' && !fractional && rest.head?.any Char.isDigit then
      let (digits, fractional, rest) := takeNumber true rest
      (d :: digits, fractional, rest)
    else ([], fractional, d :: rest)

/-- The suffix of such letters, and what is left, unless none of them stands here or more behind them. -/
def takeSuffix (letters : List Char) (text : List Char) : Option (List Char × List Char) :=
  let suffix := text.takeWhile fun c => lower c ∈ letters
  let after := text.dropWhile fun c => lower c ∈ letters
  if suffix = [] || after.head?.any isIdentifierPart then none else some (suffix, after)

def lexNumber (scanner : Scanner) : Token × Scanner :=
  let (digits, fractional, rest) := takeNumber false scanner.rest
  match takeSuffix ['d', 't'] rest with
  | some (suffix, after) => make .dateTime (digits ++ suffix) ⟨after, scanner.line⟩
  | none =>
    match takeSuffix ['l'] rest with
    | some (suffix, after) => make .integer (digits ++ suffix).dropLast ⟨after, scanner.line⟩
    | none => make (if fractional then .decimal else .integer) digits ⟨rest, scanner.line⟩

/-- A directive is its word, a condition with the rest of its line; any other has no text. -/
def lexDirective (scanner : Scanner) : Token × Scanner :=
  let word := (scanner.rest.tail.takeWhile isIdentifierPart).map lower
  let condition := scanner.rest.tail.dropWhile isIdentifierPart
  let after : Scanner := ⟨takeLine condition, scanner.line⟩
  if word ≠ ['i', 'f'] ∧ word ≠ ['e', 'l', 's', 'e'] ∧ word ≠ ['e', 'n', 'd', 'i', 'f'] then make .directive []
      after
  else if word = ['i', 'f'] then make .directive (word ++ ' ' :: condition.takeWhile (· ≠ '\n')) after
  else make .directive word after

def lexPunctuation (scanner : Scanner) : Token × Scanner :=
  match twoCharacterPunctuation.find? (·.isPrefixOf scanner.rest) with
  | some two => make .punctuation two ⟨scanner.rest.drop 2, scanner.line⟩
  | none => make .punctuation (scanner.rest.take 1) ⟨scanner.rest.tail, scanner.line⟩

/-- `Next`, which is called before the end. -/
def next (scanner : Scanner) : Lex (Token × Scanner) :=
  let c := scanner.rest.headD '\n'
  if c = '#' then pure (lexDirective scanner)
  else if isIdentifierStart c then pure (lexIdentifier scanner)
  else if c = '"' then lexQuotedIdentifier scanner
  else if c = '\'' then lexString scanner
  else if c.isDigit then pure (lexNumber scanner)
  else pure (lexPunctuation scanner)

/-- The loop of `Run`, with so much fuel. -/
def scanTokens : Nat → Scanner → Lex (List Token)
  | 0, _ => .error none
  | fuel + 1, scanner =>
    let scanner := skipTrivia scanner.rest.length scanner
    if scanner.rest = [] then pure [⟨.endOfFile, "", scanner.line⟩]
    else do
      let (token, scanner) ← next scanner
      let tokens ← scanTokens fuel scanner
      pure (token :: tokens)

def byteOrderMark : List Char := [Char.ofNat 0xEF, Char.ofNat 0xBB, Char.ofNat 0xBF]

/-- `Scanner(source).Run()`. -/
def scan (source : List Char) : Lex (List Token) :=
  let text := if byteOrderMark.isPrefixOf source then source.drop 3 else source
  scanTokens (text.length + 1) ⟨text, 1⟩

end Agiru.Al
