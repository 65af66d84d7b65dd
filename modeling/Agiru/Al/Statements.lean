import Agiru.Al.Token
import Agiru.Library.Fuel

/-! The reader of AL statements: `ParseStatements`.

A reader is what is left of its tokens; past their end it peeks the end of the file, and goes on.
Every function makes its calls through `rec`, with the depth of expressions around it. A loop of the
source is a part of its own where it reads, with what it has gathered. -/
namespace Agiru.Al
open Fuel

abbrev Parse (α : Type) := Answer String α

def peek (tokens : List Token) : Token := tokens.headD {}

def atKeyword (tokens : List Token) (word : String) : Bool := isKeyword (peek tokens) word

def atPunctuation (tokens : List Token) (text : String) : Bool := isPunctuation (peek tokens) text

/-- `ParseError`. -/
def parseError {α : Type} (message : String) : Parse α := .error (some message)

def expect (what : String) (tokens : List Token) : Parse (List Token) :=
  if atKeyword tokens what || atPunctuation tokens what then pure tokens.tail
  else parseError ("expected '" ++ what ++ "' but found '" ++ (peek tokens).text ++ "' on line " ++
    toString (peek tokens).line)

/-- `while (AtPunctuation(";")) { Advance(); }` -/
def skipSemicolons (tokens : List Token) : List Token :=
  tokens.dropWhile fun token => isPunctuation token ";"

/-- `if (AtPunctuation(",")) { Advance(); }` -/
def skipComma (tokens : List Token) : List Token :=
  if atPunctuation tokens "," then tokens.tail else tokens

def maxDepth : Nat := 128

/-- `kLevels`. -/
def levels : List (Nat × String) :=
  [(1, "="), (1, "<>"), (1, "<"), (1, "<="), (1, ">"), (1, ">="), (1, "is"), (1, "as"), (2, "+"),
    (2, "-"), (2, "or"), (3, "*"), (3, "/"), (3, "div"), (3, "mod"), (3, "and"), (3, "xor"),
    (4, "in"), (4, "is"), (4, "as")]

def precedenceOf (token : Token) : Nat :=
  match levels.find? fun level => isKeyword token level.2 || isPunctuation token level.2 with
  | some level => level.1
  | none => 0

/-- What is read: a function of the source, or a loop in one. -/
inductive Part
  | block
  | statement
  | branches
  | labels
  | ternary
  | expression (minimum : Nat)
  | operators (minimum : Nat) (left : Expr)
  | unary
  | postfixed
  | postfixes (databaseScope : Bool) (value : Expr)
  | arguments (closing : String)
  | items

abbrev Part.Tree : Part → Type
  | .block | .branches => List Stmt
  | .statement => Stmt
  | .labels | .arguments _ | .items => List Expr
  | .ternary | .expression _ | .operators _ _ | .unary | .postfixed | .postfixes _ _ => Expr

structure Call where
  depth : Nat
  part : Part
  tokens : List Token

/-- What a call has read, and what is left. -/
abbrev Call.Read (call : Call) : Type := call.part.Tree × List Token

abbrev Reader := ∀ call : Call, Parse call.Read

section
variable (rec : Reader) (depth : Nat)

/-! ### Statements -/

/-- The loop of `ReadBlock`. -/
def readBlock (tokens : List Token) : Parse (List Stmt × List Token) :=
  if tokens = [] ∨ atKeyword tokens "end" ∨ atKeyword tokens "until" then pure ([], tokens)
  else do
    let (statement, tokens) ← rec ⟨depth, .statement, tokens⟩
    let (statements, tokens) ← rec ⟨depth, .block, skipSemicolons tokens⟩
    pure (statement :: statements, tokens)

/-- `downto` or `to`. -/
def expectTo (tokens : List Token) : Parse (List Token) :=
  if atKeyword tokens "downto" then pure tokens.tail else expect "to" tokens

def readFor (tokens : List Token) : Parse (Stmt × List Token) := do
  let tokens ← expect "for" tokens
  let (counter, tokens) ← rec ⟨depth, .postfixed, tokens⟩
  let tokens ← expect ":=" tokens
  let (start, tokens) ← rec ⟨depth, .ternary, tokens⟩
  let descending := atKeyword tokens "downto"
  let tokens ← expectTo tokens
  let (bound, tokens) ← rec ⟨depth, .ternary, tokens⟩
  let tokens ← expect "do" tokens
  let (body, tokens) ← rec ⟨depth, .statement, tokens⟩
  pure (.mk .for (.mk .binary ":=" [counter, start]) [bound] [body] [] descending, tokens)

def readForEach (tokens : List Token) : Parse (Stmt × List Token) := do
  let tokens ← expect "foreach" tokens
  let (element, tokens) ← rec ⟨depth, .postfixed, tokens⟩
  let tokens ← expect "in" tokens
  let (list, tokens) ← rec ⟨depth, .ternary, tokens⟩
  let tokens ← expect "do" tokens
  let (body, tokens) ← rec ⟨depth, .statement, tokens⟩
  pure (.mk .forEach element [list] [body] [] false, tokens)

/-- A label of a branch, or an item of a set, which can be a range. -/
def readRange (tokens : List Token) : Parse (Expr × List Token) := do
  let (first, tokens) ← rec ⟨depth, .ternary, tokens⟩
  if atPunctuation tokens ".." then
    let (last, tokens) ← rec ⟨depth, .ternary, tokens.tail⟩
    pure (.mk .range "" [first, last], tokens)
  else pure (first, tokens)

/-- The labels of a branch. -/
def readLabels (tokens : List Token) : Parse (List Expr × List Token) :=
  if tokens = [] ∨ atPunctuation tokens ":" then pure ([], tokens)
  else do
    let (label, tokens) ← readRange rec depth tokens
    let (labels, tokens) ← rec ⟨depth, .labels, skipComma tokens⟩
    pure (label :: labels, tokens)

/-- The branches of a case. -/
def readBranches (tokens : List Token) : Parse (List Stmt × List Token) :=
  if tokens = [] ∨ atKeyword tokens "end" ∨ atKeyword tokens "else" then pure ([], tokens)
  else do
    let (labels, tokens) ← rec ⟨depth, .labels, tokens⟩
    let tokens ← expect ":" tokens
    let (body, tokens) ← rec ⟨depth, .statement, tokens⟩
    let (branches, tokens) ← rec ⟨depth, .branches, skipSemicolons tokens⟩
    pure (.mk .caseBranch .empty labels [body] [] false :: branches, tokens)

/-- What a case reads after its branches. -/
def readElse (tokens : List Token) : Parse (List Stmt × List Token) :=
  if atKeyword tokens "else" then rec ⟨depth, .block, tokens.tail⟩ else pure ([], tokens)

def readCase (tokens : List Token) : Parse (Stmt × List Token) := do
  let tokens ← expect "case" tokens
  let (selector, tokens) ← rec ⟨depth, .ternary, tokens⟩
  let tokens ← expect "of" tokens
  let (branches, tokens) ← rec ⟨depth, .branches, tokens⟩
  let (otherwise, tokens) ← readElse rec depth tokens
  let tokens ← expect "end" tokens
  pure (.mk .case selector [] branches otherwise false, tokens)

def readIf (tokens : List Token) : Parse (Stmt × List Token) := do
  let tokens ← expect "if" tokens
  let (condition, tokens) ← rec ⟨depth, .ternary, tokens⟩
  let tokens ← expect "then" tokens
  let (body, tokens) ← rec ⟨depth, .statement, tokens⟩
  let terminated := atPunctuation tokens ";"
  let tokens := skipSemicolons tokens
  if !terminated && atKeyword tokens "else" then
    let (otherwise, tokens) ← rec ⟨depth, .statement, tokens.tail⟩
    pure (.mk .if condition [] [body] [otherwise] false, tokens)
  else pure (.mk .if condition [] [body] [] false, tokens)

/-- No `continue` or `break` of the language: a name. -/
def isOperand (tokens : List Token) : Bool :=
  isPunctuation (peek tokens.tail) ":=" || isPunctuation (peek tokens.tail) "." ||
    isPunctuation (peek tokens.tail) "(" || isPunctuation (peek tokens.tail) "["

/-- An expression, or an assignment. -/
def readAssignment (tokens : List Token) : Parse (Stmt × List Token) := do
  let (value, tokens) ← rec ⟨depth, .ternary, tokens⟩
  match [":=", "+=", "-=", "*=", "/="].find? (atPunctuation tokens) with
  | some assignment =>
    let (assigned, tokens) ← rec ⟨depth, .ternary, tokens.tail⟩
    pure (.mk .expression (.mk .binary assignment [value, assigned]) [] [] [] false, tokens)
  | none => pure (.mk .expression value [] [] [] false, tokens)

def readStatement (tokens : List Token) : Parse (Stmt × List Token) :=
  if atKeyword tokens "begin" then do
    let (body, tokens) ← rec ⟨depth, .block, tokens.tail⟩
    let tokens ← expect "end" tokens
    pure (.mk .block .empty [] body [] false, tokens)
  else if atKeyword tokens "repeat" then do
    let (body, tokens) ← rec ⟨depth, .block, tokens.tail⟩
    let tokens ← expect "until" tokens
    let (condition, tokens) ← rec ⟨depth, .ternary, tokens⟩
    pure (.mk .repeat condition [] body [] false, tokens)
  else if atKeyword tokens "while" then do
    let (condition, tokens) ← rec ⟨depth, .ternary, tokens.tail⟩
    let tokens ← expect "do" tokens
    let (body, tokens) ← rec ⟨depth, .statement, tokens⟩
    pure (.mk .while condition [] [body] [] false, tokens)
  else if atKeyword tokens "for" then readFor rec depth tokens
  else if atKeyword tokens "foreach" then readForEach rec depth tokens
  else if atKeyword tokens "case" then readCase rec depth tokens
  else if atKeyword tokens "with" then do
    let (scope, tokens) ← rec ⟨depth, .ternary, tokens.tail⟩
    let tokens ← expect "do" tokens
    let (body, tokens) ← rec ⟨depth, .statement, tokens⟩
    pure (.mk .with scope [] [body] [] false, tokens)
  else if atKeyword tokens "exit" then
    if atPunctuation tokens.tail "(" then do
      let (value, tokens) ← rec ⟨depth, .ternary, tokens.tail.tail⟩
      let tokens ← expect ")" tokens
      pure (.mk .exit value [] [] [] false, tokens)
    else pure (.mk .exit .empty [] [] [] false, tokens.tail)
  else if atKeyword tokens "continue" && !isOperand tokens then
    pure (.mk .continue .empty [] [] [] false, tokens.tail)
  else if atKeyword tokens "break" && !isOperand tokens then
    pure (.mk .break .empty [] [] [] false, tokens.tail)
  else if atKeyword tokens "if" then readIf rec depth tokens
  else if atKeyword tokens "asserterror" then do
    let (expected, tokens) ← rec ⟨depth, .statement, tokens.tail⟩
    pure (.mk .assertError .empty [] [expected] [] false, tokens)
  else readAssignment rec depth tokens

/-! ### Expressions -/

def readTernary (tokens : List Token) : Parse (Expr × List Token) := do
  let (condition, tokens) ← rec ⟨depth, .expression 1, tokens⟩
  if atPunctuation tokens "?" then
    let (whenTrue, tokens) ← rec ⟨depth, .ternary, tokens.tail⟩
    if atPunctuation tokens ":" then
      let (whenFalse, tokens) ← rec ⟨depth, .ternary, tokens.tail⟩
      pure (.mk .binary "?:" [condition, whenTrue, whenFalse], tokens)
    else parseError "a conditional expression needs its ':'"
  else pure (condition, tokens)

/-- The loop of `ReadExpression`. -/
def readOperators (minimum : Nat) (left : Expr) (tokens : List Token) :
    Parse (Expr × List Token) :=
  let precedence := precedenceOf (peek tokens)
  if tokens = [] ∨ precedence = 0 ∨ precedence < minimum then pure (left, tokens)
  else do
    let (right, rest) ← rec ⟨depth, .expression (precedence + 1), tokens.tail⟩
    rec ⟨depth, .operators minimum (.mk .binary (peek tokens).text [left, right]), rest⟩

def readExpression (minimum : Nat) (tokens : List Token) : Parse (Expr × List Token) :=
  if maxDepth < depth + 1 then parseError "an expression nests too deeply"
  else do
    let (left, tokens) ← rec ⟨depth + 1, .unary, tokens⟩
    rec ⟨depth + 1, .operators minimum left, tokens⟩

/-- The loop of `ReadScope`. -/
def scopeNames (qualified : Bool) (text : String) : List Token → String × List Token
  | dot :: name :: after :: rest =>
    if isPunctuation dot "." && name.kind ≠ .punctuation && !isPunctuation after "(" then
      scopeNames qualified (if qualified then text ++ ("." ++ name.text) else name.text)
        (after :: rest)
    else (text, dot :: name :: after :: rest)
  | tokens => (text, tokens)

def readScope (base : Expr) (qualified : Bool) (tokens : List Token) : Expr × List Token :=
  let (text, tokens) := scopeNames qualified (peek tokens.tail).text tokens.tail.tail
  (.mk .scope text [base], tokens)

/-- The loop of `ReadArguments`. -/
def readList (closing : String) (tokens : List Token) : Parse (List Expr × List Token) :=
  if tokens = [] ∨ atPunctuation tokens closing then pure ([], tokens)
  else do
    let (value, tokens) ← rec ⟨depth, .ternary, tokens⟩
    let (values, tokens) ← rec ⟨depth, .arguments closing, skipComma tokens⟩
    pure (value :: values, tokens)

def readArguments (base : Expr) (kind : ExprKind) (closing : String) (tokens : List Token) :
    Parse (Expr × List Token) := do
  let (values, tokens) ← rec ⟨depth, .arguments closing, tokens.tail⟩
  let tokens ← expect closing tokens
  pure (.mk kind "" (base :: values), tokens)

/-- The loop of `ReadPostfix`. -/
def readPostfixes (databaseScope : Bool) (value : Expr) (tokens : List Token) :
    Parse (Expr × List Token) :=
  if tokens = [] then pure (value, tokens)
  else if atPunctuation tokens "::" then
    let qualified := databaseScope && value.kind = .name && value.children.isEmpty
    let (scope, tokens) := readScope value qualified tokens
    rec ⟨depth, .postfixes databaseScope scope, tokens⟩
  else if atPunctuation tokens "." then
    let member := .mk .name (peek tokens.tail).text []
    rec ⟨depth, .postfixes databaseScope (.mk .binary "." [value, member]), tokens.tail.tail⟩
  else if atPunctuation tokens "[" then do
    let (value, tokens) ← readArguments rec depth value .index "]" tokens
    rec ⟨depth, .postfixes databaseScope value, tokens⟩
  else if atPunctuation tokens "(" then do
    let (value, tokens) ← readArguments rec depth value .call ")" tokens
    rec ⟨depth, .postfixes databaseScope value, tokens⟩
  else pure (value, tokens)

/-- The items of a set. -/
def readItems (tokens : List Token) : Parse (List Expr × List Token) :=
  if tokens = [] ∨ atPunctuation tokens "]" then pure ([], tokens)
  else do
    let (item, tokens) ← readRange rec depth tokens
    let (items, tokens) ← rec ⟨depth, .items, skipComma tokens⟩
    pure (item :: items, tokens)

def literalKind : TokenKind → ExprKind
  | .string => .stringLiteral
  | .integer | .decimal => .numberLiteral
  | .dateTime => .temporalLiteral
  | _ => .name

def readPrimary (tokens : List Token) : Parse (Expr × List Token) :=
  if atPunctuation tokens "[" then do
    let (items, tokens) ← rec ⟨depth, .items, tokens.tail⟩
    let tokens ← expect "]" tokens
    pure (.mk .set "" items, tokens)
  else if atPunctuation tokens "(" then do
    let (inner, tokens) ← rec ⟨depth, .ternary, tokens.tail⟩
    let tokens ← expect ")" tokens
    pure (inner, tokens)
  else pure (.mk (literalKind (peek tokens).kind) (peek tokens).text [], tokens.tail)

def readPostfix (tokens : List Token) : Parse (Expr × List Token) := do
  let (value, rest) ← readPrimary rec depth tokens
  rec ⟨depth, .postfixes (atKeyword tokens "Database") value, rest⟩

def readUnary (tokens : List Token) : Parse (Expr × List Token) :=
  if atKeyword tokens "not" || atPunctuation tokens "-" || atPunctuation tokens "+" then do
    let (operand, rest) ← rec ⟨depth, .unary, tokens.tail⟩
    pure (.mk .unary (peek tokens).text [operand], rest)
  else rec ⟨depth, .postfixed, tokens⟩

end

/-! ### The reader -/

/-- One call of the reader. -/
def step (rec : Reader) : Reader
  | ⟨depth, .block, tokens⟩ => readBlock rec depth tokens
  | ⟨depth, .statement, tokens⟩ => readStatement rec depth tokens
  | ⟨depth, .branches, tokens⟩ => readBranches rec depth tokens
  | ⟨depth, .labels, tokens⟩ => readLabels rec depth tokens
  | ⟨depth, .ternary, tokens⟩ => readTernary rec depth tokens
  | ⟨depth, .expression minimum, tokens⟩ => readExpression rec depth minimum tokens
  | ⟨depth, .operators minimum left, tokens⟩ => readOperators rec depth minimum left tokens
  | ⟨depth, .unary, tokens⟩ => readUnary rec depth tokens
  | ⟨depth, .postfixed, tokens⟩ => readPostfix rec depth tokens
  | ⟨depth, .postfixes databaseScope value, tokens⟩ =>
    readPostfixes rec depth databaseScope value tokens
  | ⟨depth, .arguments closing, tokens⟩ => readList rec depth closing tokens
  | ⟨depth, .items, tokens⟩ => readItems rec depth tokens

/-- How deep the calls for such a part go, at most, before they have read a token. -/
def Part.rank : Part → Nat
  | .operators _ _ | .postfixes _ _ => 0
  | .postfixed => 1
  | .unary => 2
  | .expression _ => 3
  | .ternary => 4
  | .statement | .labels | .arguments _ | .items => 5
  | .block | .branches => 6

/-- How much fuel a call needs. -/
def Call.need (call : Call) : Nat := 7 * call.tokens.length + call.part.rank

/-- What `ReadBlock` of the whole list reads, and what it leaves. -/
def readStatements (tokens : List Token) : Parse (List Stmt × List Token) :=
  run step (Call.need ⟨0, .block, tokens⟩ + 1) ⟨0, .block, tokens⟩

/-- `ParseStatements`. -/
def parseStatements (tokens : List Token) : Parse (List Stmt) := Prod.fst <$> readStatements tokens

/-! ### The body of a procedure -/

/-- The loop of `SkipBeginEnd`, inside so many blocks. -/
def skipBody : Nat → List Token → Parse (List Token × List Token)
  | _, [] => parseError "unterminated begin block"
  | depth, token :: tokens =>
    let depth := if isKeyword token "begin" || isKeyword token "case" then depth + 1 else depth
    if isKeyword token "end" && depth = 1 then
      pure ([], if atPunctuation tokens ";" then tokens.tail else tokens)
    else do
      let (body, tokens) ← skipBody (if isKeyword token "end" then depth - 1 else depth) tokens
      pure (token :: body, tokens)

/-- `SkipBeginEnd`, after the local variables: the body, and what is left. -/
def skipBeginEnd (tokens : List Token) : Parse (List Token × List Token) := do
  let tokens ← expect "begin" tokens
  skipBody 1 tokens

end Agiru.Al
