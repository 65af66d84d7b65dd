import Agiru.Filter.Parse
import Agiru.Values.Field

/-! Which values an expression accepts.

Values are compared as numbers in a numeric field, where both can be read as one, and
byte by byte otherwise; equality of texts ignores ASCII letter case. -/
namespace Agiru.Filter
open Bytes

/-! ### Wildcards -/

/-- `WildcardMatch` on what is left of the pattern and of the value. `back` is where
the last star lets the match start again: the pattern after it, and the value from the
first character it has not taken. -/
def wildcardFrom (pattern value : Bytes) (back : Option (Bytes × Bytes))
    (h : ∀ at_ ∈ back, value.length ≤ at_.2.length) : Bool :=
  match value, pattern, back with
  | [], rest, _ => rest.all (· = Ch.star)
  | v :: vs, p :: ps, back =>
    if p = Ch.question ∨ lower p = lower v then
      wildcardFrom ps vs back fun at_ hat => by
        have := h at_ hat
        simp only [List.length_cons] at this
        omega
    else if p = Ch.star then wildcardFrom ps (v :: vs) (some (ps, v :: vs)) (by simp)
    else
      match back with
      | some (again, _ :: rest) => wildcardFrom again rest (some (again, rest)) (by simp)
      | _ => false
  | _ :: _, [], some (again, _ :: rest) => wildcardFrom again rest (some (again, rest)) (by simp)
  | _ :: _, [], _ => false
termination_by ((back.map fun at_ => at_.2.length).getD (value.length + 1), value.length,
  pattern.length)
decreasing_by
  · cases back with
    | none => exact Prod.Lex.left _ _ (by simp)
    | some at_ => exact Prod.Lex.right _ (Prod.Lex.left _ _ (by simp))
  · cases back with
    | none => exact Prod.Lex.left _ _ (by simp)
    | some at_ =>
      have hle : (v :: vs).length ≤ at_.2.length := h at_ rfl
      rcases Nat.lt_or_eq_of_le hle with hlt | heq
      · exact Prod.Lex.left _ _ hlt
      · simp only [Option.map_some, Option.getD_some, ← heq]
        exact Prod.Lex.right _ (Prod.Lex.right _ (by simp))
  · exact Prod.Lex.left _ _ (by simp)
  · exact Prod.Lex.left _ _ (by simp)

def wildcardMatch (pattern value : Bytes) : Bool := wildcardFrom pattern value none (by simp)

/-- A pattern matches itself: read side by side the two never part. -/
theorem wildcardMatch_self (pattern : Bytes) : wildcardMatch pattern pattern = true := by
  unfold wildcardMatch
  induction pattern with
  | nil => simp [wildcardFrom]
  | cons p ps ih =>
    unfold wildcardFrom
    simpa using ih

/-! ### Values in the order of their field -/

/-- `std::stoll`: white space, a sign and the digits, whatever follows them; nothing
where there is no digit or the number is out of range. -/
def stoll (text : Bytes) : Option Int :=
  let text := text.dropWhile isSpace
  let (negative, digits) :=
    match text with
    | c :: rest =>
      if c = Ch.minus then (true, rest) else if c = Ch.plus then (false, rest) else (false, text)
    | [] => (false, [])
  let digits := digits.takeWhile isDigit
  let magnitude : Nat := digits.foldl (fun n c => n * 10 + (c.toNat - 48)) 0
  let number : Int := if negative then -magnitude else magnitude
  if digits = [] then none
  else if -2 ^ 63 ≤ number ∧ number < 2 ^ 63 then some number
  else none

/-- `Order`. -/
def order (value against : Bytes) (field : FieldDef) : Ordering :=
  match field.type with
  | .integer | .bigInteger | .option | .enum =>
    match stoll value, stoll against with
    | some left, some right => Ord.compare left right
    | _, _ => Ord.compare value against
  | .decimal =>
    match Decimal.fromInvariantString value, Decimal.fromInvariantString against with
    | .ok left, .ok right => left.compare right
    | _, _ => Ord.compare value against
  | _ => Ord.compare value against

def numeric (field : FieldDef) : Bool :=
  match field.type with
  | .integer | .bigInteger | .option | .enum | .decimal => true
  | _ => false

/-- `MemberOrdinal`: the ordinal a text names, as text. -/
def memberOrdinal (field : FieldDef) (text : Bytes) : Bytes :=
  let blank (s : Bytes) := s.all (· = Ch.blank)
  if blank text then
    match field.values.find? fun v => blank v.name with
    | some v => intText v.ordinal.toInt
    | none => [Ch.zero]
  else if text.all fun c => c = Ch.minus || isDigit c then text
  else
    let text :=
      if 2 ≤ text.length && text.head? = some Ch.doubleQuote &&
          text.getLast? = some Ch.doubleQuote then
        text.tail.dropLast
      else text
    match field.values.find? fun v => sameText v.name text || sameText v.caption text with
    | some v => intText v.ordinal.toInt
    | none => text

/-- `Canonical`: the spelling a value is compared in. -/
def canonical (text : Bytes) (field : FieldDef) : Bytes :=
  match field.type with
  | .option | .enum => memberOrdinal field text
  | .boolean =>
    if sameText (trim text) (ascii "yes") || sameText (trim text) (ascii "true") ||
        trim text = ascii "1" then
      ascii "1"
    else ascii "0"
  | _ => text

def sameValue (value against : Bytes) (field : FieldDef) : Bool :=
  if numeric field then order value against field = .eq else sameText value against

def satisfiesCanonical (atom : Atom) (value : Bytes) (field : FieldDef) : Bool :=
  match atom.compare with
  | .equal => sameValue value atom.value field
  | .notEqual => !sameValue value atom.value field
  | .like => wildcardMatch atom.value value
  | .notLike => !wildcardMatch atom.value value
  | .less => order value atom.value field = .lt
  | .lessOrEqual => order value atom.value field ≠ .gt
  | .greater => order value atom.value field = .gt
  | .greaterEqual => order value atom.value field ≠ .lt
  | .between =>
    (atom.openLower || order value atom.value field ≠ .lt) &&
      (atom.openUpper || order value atom.upper field ≠ .gt)

/-- `Satisfies`: an Option, an Enum or a Boolean is compared by what its name stands
for. -/
def satisfies (atom : Atom) (value : Bytes) (field : FieldDef) : Bool :=
  let byName := field.type = .option || field.type = .enum || field.type = .boolean
  if !byName || atom.compare = .like || atom.compare = .notLike then
    satisfiesCanonical atom value field
  else
    satisfiesCanonical
      {atom with value := canonical atom.value field, upper := canonical atom.upper field}
      (canonical value field) field

/-- `Matches`. -/
def matchesValue (expression : Expression) (value : Bytes) (field : FieldDef) : Bool :=
  expression = [] ||
    expression.any fun conjunction => conjunction.all fun atom => satisfies atom value field

end Agiru.Filter
