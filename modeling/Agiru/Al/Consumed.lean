import Agiru.Al.Statements

/-! What the reader of statements consumes.

The texts of a tree, in the order of the source, are the texts of the tokens that were read, but for
keywords and separators, and for the names before the last of a scope. `Call.Spec` says so of every
part, and that a reader goes on: together, no list of tokens exhausts the fuel. -/
namespace Agiru.Al
open Fuel

/-! ### The texts of a tree -/

/-- The texts of a node, around those of its children. -/
def ExprKind.texts (text : String) : ExprKind → List (List String) → List String
  | .binary, [condition, whenTrue, whenFalse] =>
    condition ++ ["?"] ++ whenTrue ++ [":"] ++ whenFalse
  | .binary, [left, right] => left ++ [text] ++ right
  | .unary, [operand] => text :: operand
  | .scope, [base] => base ++ ["::", text]
  | .range, [first, last] => first ++ [".."] ++ last
  | .call, parts | .index, parts | .set, parts => parts.flatten
  | _, _ => [text]

mutual
def Expr.texts : Expr → List String
  | .mk kind text children => kind.texts text (textsEach children)

def textsEach : List Expr → List (List String)
  | [] => []
  | expr :: exprs => expr.texts :: textsEach exprs
end

/-- The texts of a statement. -/
def StmtKind.texts (expression labels body otherwise : List String) : StmtKind → List String
  | .expression | .exit => expression
  | .if | .while | .with | .case => expression ++ body ++ otherwise
  | .block | .assertError => body
  | .repeat => body ++ expression
  | .for | .forEach => expression ++ labels ++ body
  | .caseBranch => labels ++ body
  | .break | .continue => []

mutual
def Stmt.texts : Stmt → List String
  | .mk kind expression labels body otherwise _ =>
    kind.texts expression.texts (textsEach labels).flatten (textsAll body) (textsAll otherwise)

def textsAll : List Stmt → List String
  | [] => []
  | statement :: statements => statement.texts ++ textsAll statements
end

/-! ### Tokens that a tree is read from -/

def keywords : List String :=
  ["begin", "end", "repeat", "until", "while", "do", "for", "to", "downto", "foreach", "in", "case",
    "of", "else", "with", "exit", "continue", "break", "if", "then", "asserterror"]

def separators : List String := [";", ",", ":", "(", ")", "[", "]"]

/-- The token is such a word, in the case of its letters or as punctuation. -/
def Token.Is (token : Token) (word : String) : Prop :=
  isKeyword token word = true ∨ isPunctuation token word = true

/-- Tokens, up to those that are left, and their texts: none of a keyword or a separator, and of the
names in an unqualified scope that of the last. The text of a value that `exit` does not have is
empty, and so are those past the end. -/
inductive Covers : List Token → List Token → List String → Prop
  | done (tokens : List Token) : Covers tokens tokens []
  | word (token : Token) (text : String) {tokens rest : List Token} {texts : List String} :
    token.text = text ∨ token.Is text → Covers tokens rest texts →
    Covers (token :: tokens) rest (text :: texts)
  | keyword (token : Token) (word : String) {tokens rest : List Token} {texts : List String} :
    word ∈ keywords → token.Is word → Covers tokens rest texts → Covers (token :: tokens) rest texts
  | separator (token : Token) (word : String) {tokens rest : List Token} {texts : List String} :
    word ∈ separators → token.Is word → Covers tokens rest texts →
    Covers (token :: tokens) rest texts
  | scope (colons : Token) (names : List (Token × Token)) (last : Token) {tokens rest : List Token}
    {texts : List String} : isPunctuation colons "::" = true →
    (∀ name ∈ names, isPunctuation name.2 "." = true) → Covers tokens rest texts →
    Covers (colons :: (names.flatMap (fun name => [name.1, name.2]) ++ last :: tokens)) rest
      ("::" :: last.text :: texts)
  | qualified (colons : Token) (names : List Token) {tokens rest : List Token} {texts : List String} :
    isPunctuation colons "::" = true → Covers tokens rest texts →
    Covers (colons :: (names ++ tokens)) rest ("::" :: String.join (names.map Token.text) :: texts)
  | exit (token : Token) {tokens rest : List Token} {texts : List String} : token.Is "exit" →
    Covers tokens rest texts → Covers (token :: tokens) rest ("" :: texts)
  | past {rest : List Token} {texts : List String} : Covers [] rest texts →
    Covers [] rest ("" :: texts)

theorem Covers.trans {tokens middle rest : List Token} {texts texts' : List String}
    (h : Covers tokens middle texts) (h' : Covers middle rest texts') :
    Covers tokens rest (texts ++ texts') := by
  induction h with
  | done => exact h'
  | word token text htext _ ih => exact .word token text htext (ih h')
  | keyword token word hword his _ ih => exact .keyword token word hword his (ih h')
  | separator token word hword his _ ih => exact .separator token word hword his (ih h')
  | scope colons names last hcolons hnames _ ih => exact .scope colons names last hcolons hnames (ih h')
  | qualified colons names hcolons _ ih => exact .qualified colons names hcolons (ih h')
  | exit token his _ ih => exact .exit token his (ih h')
  | past _ ih => exact .past (ih h')

theorem Covers.length_le {tokens rest : List Token} {texts : List String}
    (h : Covers tokens rest texts) : rest.length ≤ tokens.length := by
  induction h with
  | done => exact Nat.le_refl _
  | past _ ih => exact ih
  | word | keyword | separator | scope | qualified | exit =>
    simp only [List.length_cons, List.length_append]
    omega

/-! ### Words that are looked for -/

theorem at_cons {tokens : List Token} {word : String}
    (h : (atKeyword tokens word || atPunctuation tokens word) = true) :
    ∃ token rest, tokens = token :: rest ∧ token.Is word := by
  cases tokens with
  | nil => simp [atKeyword, atPunctuation, peek, isKeyword, isPunctuation] at h
  | cons token rest => exact ⟨token, rest, rfl, Bool.or_eq_true_iff.mp h⟩

/-- Tokens whose first was passed, and its text. -/
structure Passes (tokens rest : List Token) (texts : List String) : Prop where
  covers : Covers tokens rest texts
  shorter : rest.length < tokens.length

theorem Passes.trans {tokens middle rest : List Token} {texts texts' : List String}
    (h : Passes tokens middle texts) (h' : Covers middle rest texts') :
    Passes tokens rest (texts ++ texts') :=
  ⟨h.covers.trans h', Nat.lt_of_le_of_lt h'.length_le h.shorter⟩

/-- What passes no text. -/
theorem Passes.skip {tokens middle rest : List Token} {texts : List String}
    (h : Passes tokens middle texts) (h' : Covers middle rest []) : Passes tokens rest texts := by
  have hpasses := h.trans h'
  rwa [List.append_nil] at hpasses

theorem at_dropped {tokens : List Token} {word : String} (hword : word ∈ keywords ∨ word ∈ separators)
    (h : (atKeyword tokens word || atPunctuation tokens word) = true) :
    Passes tokens tokens.tail [] := by
  obtain ⟨token, rest, rfl, his⟩ := at_cons h
  refine ⟨?_, Nat.lt_succ_self _⟩
  rcases hword with hword | hword
  · exact .keyword token word hword his (.done rest)
  · exact .separator token word hword his (.done rest)

theorem at_word {tokens : List Token} {word : String}
    (h : (atKeyword tokens word || atPunctuation tokens word) = true) :
    Passes tokens tokens.tail [word] := by
  obtain ⟨token, rest, rfl, his⟩ := at_cons h
  exact ⟨.word token word (.inr his) (.done rest), Nat.lt_succ_self _⟩

theorem atKeyword_dropped {tokens : List Token} {word : String} (h : atKeyword tokens word = true)
    (hword : word ∈ keywords) : Passes tokens tokens.tail [] :=
  at_dropped (.inl hword) (by rw [h, Bool.true_or])

theorem atPunctuation_dropped {tokens : List Token} {word : String}
    (h : atPunctuation tokens word = true) (hword : word ∈ separators) :
    Passes tokens tokens.tail [] :=
  at_dropped (.inr hword) (by rw [h, Bool.or_true])

theorem atPunctuation_word {tokens : List Token} {word : String}
    (h : atPunctuation tokens word = true) : Passes tokens tokens.tail [word] :=
  at_word (by rw [h, Bool.or_true])

theorem isPunctuation_text {token : Token} {word : String} (h : isPunctuation token word = true) :
    token.text = word := by
  simp only [isPunctuation, Bool.and_eq_true, decide_eq_true_eq] at h
  exact h.2

theorem expect_dropped {what : String} (hwhat : what ∈ keywords ∨ what ∈ separators)
    (tokens : List Token) : Safe (expect what tokens) fun rest => Passes tokens rest [] := by
  unfold expect
  split
  · next h => exact at_dropped hwhat h
  · trivial

theorem expect_word (what : String) (tokens : List Token) :
    Safe (expect what tokens) fun rest => Passes tokens rest [what] := by
  unfold expect
  split
  · next h => exact at_word h
  · trivial

theorem skipSemicolons_covers (tokens : List Token) : Covers tokens (skipSemicolons tokens) [] := by
  induction tokens with
  | nil => exact .done []
  | cons token tokens ih =>
    unfold skipSemicolons at ih ⊢
    rw [List.dropWhile_cons]
    split
    · next h => exact .separator token ";" (by decide) (.inr h) ih
    · exact .done _

theorem skipComma_covers (tokens : List Token) : Covers tokens (skipComma tokens) [] := by
  unfold skipComma
  split
  · next h => exact (atPunctuation_dropped h (by decide)).covers
  · exact .done _

/-- What is peeked and passed is a word. -/
theorem peek_covers (tokens : List Token) : Covers tokens tokens.tail [(peek tokens).text] := by
  cases tokens with
  | nil => exact .past (.done [])
  | cons token rest => exact .word token token.text (.inl rfl) (.done rest)

/-! ### What a call reads -/

/-- The texts of what was read. -/
def Part.texts : (part : Part) → part.Tree → List String
  | .block, tree | .branches, tree => textsAll tree
  | .statement, tree => tree.texts
  | .labels, tree | .arguments _, tree | .items, tree => (textsEach tree).flatten
  | .ternary, tree | .expression _, tree | .operators _ _, tree | .unary, tree | .postfixed, tree
  | .postfixes _ _, tree => tree.texts

/-- The texts of what had been read before. -/
def Part.known : Part → List String
  | .operators _ left => left.texts
  | .postfixes _ value => value.texts
  | _ => []

/-- It reads a token wherever there is one. -/
def Part.Advances : Part → Prop
  | .statement | .ternary | .expression _ | .unary | .postfixed => True
  | _ => False

/-- The loop of a block stops. -/
def Stops (tokens : List Token) : Prop :=
  tokens = [] ∨ atKeyword tokens "end" = true ∨ atKeyword tokens "until" = true

structure Call.Spec (call : Call) (read : call.Read) : Prop where
  covers : ∃ texts, call.part.texts read.1 = call.part.known ++ texts ∧
    Covers call.tokens read.2 texts
  advances : call.part.Advances → call.tokens ≠ [] → read.2.length < call.tokens.length
  stops : call.part = .block → Stops read.2

theorem Call.Spec.length_le {call : Call} {read : call.Read} (h : call.Spec read) :
    read.2.length ≤ call.tokens.length := by
  obtain ⟨texts, -, hcovers⟩ := h.covers
  exact hcovers.length_le

/-- Of a part that begins with what it reads. -/
theorem Call.Spec.fresh {call : Call} {read : call.Read} (h : call.Spec read)
    (hknown : call.part.known = []) : Covers call.tokens read.2 (call.part.texts read.1) := by
  obtain ⟨texts, htexts, hcovers⟩ := h.covers
  rw [hknown, List.nil_append] at htexts
  rw [htexts]
  exact hcovers

theorem Part.rank_le (part : Part) : part.rank ≤ 6 := by
  cases part <;> simp [Part.rank]

theorem need_of_shorter {depth depth' : Nat} {part part' : Part} {tokens tokens' : List Token}
    (h : tokens'.length < tokens.length) :
    Call.need ⟨depth', part', tokens'⟩ < Call.need ⟨depth, part, tokens⟩ := by
  have hrank := part'.rank_le
  show 7 * tokens'.length + part'.rank < 7 * tokens.length + part.rank
  omega

theorem need_of_rank {depth depth' : Nat} {part part' : Part} {tokens tokens' : List Token}
    (h : tokens'.length ≤ tokens.length) (hrank : part'.rank < part.rank) :
    Call.need ⟨depth', part', tokens'⟩ < Call.need ⟨depth, part, tokens⟩ := by
  show 7 * tokens'.length + part'.rank < 7 * tokens.length + part.rank
  omega

end Agiru.Al
