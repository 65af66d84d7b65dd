import Mathlib.Data.List.Basic

/-! Tokens, expressions and statements of AL. -/
namespace Agiru.Al

inductive TokenKind
  | endOfFile
  | identifier
  | quotedIdentifier
  | string
  | integer
  | decimal
  | dateTime
  | punctuation
  | directive
  deriving DecidableEq

structure Token where
  kind : TokenKind := .endOfFile
  text : String := ""
  line : Nat := 0
  deriving DecidableEq

/-- `Lower`, of ASCII letters. -/
def lower (c : Char) : Char :=
  if 'A' ≤ c ∧ c ≤ 'Z' then Char.ofNat (c.toNat + 32) else c

def isKeyword (token : Token) (keyword : String) : Bool :=
  token.kind = .identifier && token.text.toList.map lower = keyword.toList.map lower

def isPunctuation (token : Token) (punctuation : String) : Bool :=
  token.kind = .punctuation && token.text = punctuation

inductive ExprKind
  | stringLiteral
  | numberLiteral
  | temporalLiteral
  | name
  | scope
  | call
  | binary
  | unary
  | set
  | range
  | index
  deriving DecidableEq

inductive Expr
  | mk (kind : ExprKind) (text : String) (children : List Expr)

namespace Expr

def kind : Expr → ExprKind
  | mk kind _ _ => kind

def children : Expr → List Expr
  | mk _ _ children => children

/-- An expression that is not given. -/
def empty : Expr := mk .name "" []

end Expr

inductive StmtKind
  | expression
  | if
  | block
  | repeat
  | while
  | for
  | forEach
  | case
  | caseBranch
  | with
  | exit
  | break
  | continue
  | assertError
  deriving DecidableEq

inductive Stmt
  | mk (kind : StmtKind) (expression : Expr) (labels : List Expr) (body otherwise : List Stmt)
    (descending : Bool)

end Agiru.Al
