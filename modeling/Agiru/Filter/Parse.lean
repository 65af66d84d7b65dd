import Agiru.Library.Bytes

/-! The filter language: an expression is a disjunction of conjunctions of atoms.

Five passes read it, and each has its own idea of quoting: the separators and the
groups are looked for outside quotes, the operators and the two dots of a range
anywhere. `parseFilter` recurses into groups, which are shorter than what they stand
in; `parseFilter_eq` is its equation without the bound on the recursion. -/
namespace Agiru.Filter
open Bytes

inductive Compare
  | equal | notEqual | less | lessOrEqual | greater | greaterEqual | between | like | notLike
  deriving Repr, DecidableEq

structure Atom where
  compare : Compare := .equal
  value : Bytes := []
  upper : Bytes := []
  openLower : Bool := false
  openUpper : Bool := false
  deriving Repr, DecidableEq

abbrev All := List Atom

abbrev Expression := List All

def hasWildcard (text : Bytes) : Bool := Ch.star ∈ text || Ch.question ∈ text

/-- Whether quotes are open after a character. -/
def toggled (quoted : Bool) (c : UInt8) : Bool := if c = Ch.quote then !quoted else quoted

/-- How many parentheses are open after a character; one too many closed is ignored. -/
def nested (depth : Nat) (c : UInt8) : Nat :=
  if c = Ch.openParen then depth + 1 else if c = Ch.closeParen then depth - 1 else depth

/-- `SplitOutsideQuotes`, with the part read so far. -/
def splitFrom (separator : UInt8) (quoted : Bool) (depth : Nat) (part : Bytes) :
    Bytes → List Bytes
  | [] => [part]
  | c :: rest =>
    if toggled quoted c then splitFrom separator true depth (part ++ [c]) rest
    else if nested depth c = 0 ∧ c = separator then
      part :: splitFrom separator false 0 [] rest
    else splitFrom separator false (nested depth c) (part ++ [c]) rest

def splitOutsideQuotes (text : Bytes) (separator : UInt8) : List Bytes :=
  splitFrom separator false 0 [] text

/-- Whether the parentheses close before the text ends. -/
def closesEarly (quoted : Bool) (depth : Int) : Bytes → Bool
  | [] => false
  | c :: rest =>
    if toggled quoted c then closesEarly true depth rest
    else if c = Ch.openParen then closesEarly false (depth + 1) rest
    else if c = Ch.closeParen then
      if depth - 1 = 0 ∧ rest ≠ [] then true else closesEarly false (depth - 1) rest
    else closesEarly false depth rest

/-- `Grouped`: what stands between the outer parentheses. -/
def grouped (text : Bytes) : Option Bytes :=
  let text := trim text
  if text.length < 2 || text.head? ≠ some Ch.openParen || text.getLast? ≠ some Ch.closeParen then
    none
  else if closesEarly false 0 text then none
  else some text.tail.dropLast

/-- `Both`: the conjunction of two expressions; an empty one is no condition. -/
def both (left right : Expression) : Expression :=
  if left = [] then right
  else if right = [] then left
  else left.flatMap fun a => right.map fun b => a ++ b

def unquote (text : Bytes) : Bytes :=
  let text := trim text
  if 2 ≤ text.length && text.head? = some Ch.quote && text.getLast? = some Ch.quote then
    text.tail.dropLast
  else text

/-- `TakeOperator`: the operator a text starts with, and the text after it. -/
def takeOperator (text : Bytes) : Compare × Bytes :=
  match trim text with
  | c :: d :: rest =>
    if c = Ch.less && d = Ch.greater then (.notEqual, trim rest)
    else if c = Ch.greater && d = Ch.equals then (.greaterEqual, trim rest)
    else if c = Ch.less && d = Ch.equals then (.lessOrEqual, trim rest)
    else if c = Ch.less then (.less, trim (d :: rest))
    else if c = Ch.greater then (.greater, trim (d :: rest))
    else if c = Ch.equals then (.equal, trim (d :: rest))
    else (.equal, c :: d :: rest)
  | [c] =>
    if c = Ch.less then (.less, [])
    else if c = Ch.greater then (.greater, [])
    else if c = Ch.equals then (.equal, [])
    else (.equal, [c])
  | [] => (.equal, [])

/-- The text before the first two dots and the text after them. -/
def splitDots : Bytes → Option (Bytes × Bytes)
  | c :: d :: rest =>
    if c = Ch.dot && d = Ch.dot then some ([], rest)
    else (splitDots (d :: rest)).map fun (before, after) => (c :: before, after)
  | _ => none

/-- `ReadAtom`. -/
def readAtom (text : Bytes) : Atom :=
  let text := trim text
  let text := if text.head? = some Ch.commercialAt then text.tail else text
  let (given, text) := takeOperator text
  match if given = .equal then splitDots text else none with
  | some (before, after) =>
    { compare := .between
      value := unquote before
      upper := unquote after
      openLower := trim before = []
      openUpper := trim after = [] }
  | none =>
    let value := unquote text
    let insensitive := value.head? = some Ch.commercialAt
    let value := if insensitive then value.tail else value
    let wild := hasWildcard value && (insensitive || (trim text).head? ≠ some Ch.quote)
    { value := value
      compare :=
        match given with
        | .equal => if wild then .like else .equal
        | .notEqual => if wild then .notLike else .notEqual
        | other => other }

/-- One part of a conjunction; `inner` reads what stands in parentheses. -/
def parsePart (inner : Bytes → Expression) (part : Bytes) : Expression :=
  if trim part = [] then [[{}]]
  else
    match grouped part with
    | some text => inner text
    | none => [[readAtom part]]

def parseAlternative (inner : Bytes → Expression) (alternative : Bytes) : Expression :=
  (splitOutsideQuotes alternative Ch.ampersand).foldl
    (fun conjunction part => both conjunction (parsePart inner part)) [[]]

/-- `ParseFilter` to a depth of groups. -/
def parseWith : Nat → Bytes → Expression
  | 0, _ => []
  | depth + 1, text =>
    if trim text = [] then []
    else (splitOutsideQuotes text Ch.bar).flatMap (parseAlternative (parseWith depth))

def parseFilter (text : Bytes) : Expression := parseWith (text.length + 1) text

/-! ### Groups are shorter than what they stand in -/

theorem splitFrom_length_le {separator : UInt8} {quoted : Bool} {depth : Nat} {read text part : Bytes}
    (h : part ∈ splitFrom separator quoted depth read text) :
    part.length ≤ read.length + text.length := by
  induction text generalizing quoted depth read with
  | nil =>
    rw [splitFrom, List.mem_singleton] at h
    simp [h]
  | cons c rest ih =>
    have hlonger : ∀ {quoted depth}, part ∈ splitFrom separator quoted depth (read ++ [c]) rest →
        part.length ≤ read.length + (c :: rest).length := by
      intro quoted depth hmem
      have := ih hmem
      simp only [List.length_append, List.length_cons, List.length_nil] at this ⊢
      omega
    rw [splitFrom] at h
    split at h
    · exact hlonger h
    · split at h
      · rcases List.mem_cons.mp h with rfl | hmem
        · omega
        · have := ih hmem
          simp only [List.length_cons, List.length_nil] at this ⊢
          omega
      · exact hlonger h

theorem splitOutsideQuotes_length_le {text part : Bytes} {separator : UInt8}
    (h : part ∈ splitOutsideQuotes text separator) : part.length ≤ text.length := by
  simpa using splitFrom_length_le h

theorem grouped_length_lt {text inner : Bytes} (h : grouped text = some inner) :
    inner.length < text.length := by
  unfold grouped at h
  dsimp only at h
  split at h
  · cases h
  · next hends =>
    split at h
    · cases h
    · cases h
      have := trim_length_le text
      have hlong : ¬ (trim text).length < 2 := fun hl => hends (by simp [hl])
      rw [List.length_dropLast, List.length_tail]
      omega

theorem parsePart_congr {f g : Bytes → Expression} {part : Bytes}
    (h : ∀ inner, inner.length < part.length → f inner = g inner) :
    parsePart f part = parsePart g part := by
  unfold parsePart
  split
  · rfl
  · split
    · next inner hinner => exact h inner (grouped_length_lt hinner)
    · rfl

theorem parseAlternative_congr {f g : Bytes → Expression} {text : Bytes}
    (h : ∀ inner, inner.length < text.length → f inner = g inner) :
    parseAlternative f text = parseAlternative g text := by
  refine List.foldl_ext _ _ _ fun conjunction part hpart => ?_
  rw [parsePart_congr fun inner hinner =>
    h inner (Nat.lt_of_lt_of_le hinner (splitOutsideQuotes_length_le hpart))]

/-- A depth beyond the text's length reads all of it. -/
theorem parseWith_eq {depth : Nat} {text : Bytes} (h : text.length < depth) :
    parseWith depth text = parseFilter text := by
  induction depth using Nat.strong_induction_on generalizing text with
  | _ depth ih =>
    obtain ⟨depth, rfl⟩ : ∃ n, depth = n + 1 := ⟨depth - 1, by omega⟩
    have hcongr : ∀ alternative ∈ splitOutsideQuotes text Ch.bar,
        parseAlternative (parseWith depth) alternative =
          parseAlternative (parseWith text.length) alternative := by
      intro alternative hmem
      have hle := splitOutsideQuotes_length_le hmem
      refine parseAlternative_congr fun inner hinner => ?_
      rw [ih depth (by omega) (by omega), ih text.length (by omega) (by omega)]
    rw [parseFilter, parseWith, parseWith]
    split
    · rfl
    · simp only [List.flatMap]
      rw [List.map_congr_left hcongr]

/-- `ParseFilter`, as its source reads. -/
theorem parseFilter_eq (text : Bytes) :
    parseFilter text =
      if trim text = [] then []
      else (splitOutsideQuotes text Ch.bar).flatMap (parseAlternative parseFilter) := by
  have hcongr : ∀ alternative ∈ splitOutsideQuotes text Ch.bar,
      parseAlternative (parseWith text.length) alternative =
        parseAlternative parseFilter alternative := by
    intro alternative hmem
    have hle := splitOutsideQuotes_length_le hmem
    exact parseAlternative_congr fun inner hinner => parseWith_eq (by omega)
  rw [parseFilter, parseWith]
  split
  · rfl
  · simp only [List.flatMap]
    rw [List.map_congr_left hcongr]

end Agiru.Filter
