import Agiru.Xml.Units

/-! What stands before a document's root.

The grammar is XML's where it says where a comment, an instruction, a literal or the document type
ends, and wider elsewhere: what a declaration of the subset says is left open. A comment that begins
with `>` or `->` is well formed; it is not `Clear`. -/
namespace Agiru.Xml
open Bytes

abbrev hyphens : Bytes := [Ch.minus, Ch.minus]
abbrev commentOpen : Bytes := ascii "<!--"
abbrev commentClose : Bytes := ascii "-->"
abbrev instructionOpen : Bytes := ascii "<?"
abbrev instructionClose : Bytes := ascii "?>"

/-- Two hyphens end a comment, so its text has none, and no hyphen at its end. -/
structure Comment where
  body : Bytes
  single : ¬ hyphens <:+: body
  closed : body.getLast? ≠ some Ch.minus

namespace Comment

def text (comment : Comment) : Bytes := commentOpen ++ comment.body ++ commentClose

/-- The close of a comment is not found in its opening. -/
def Clear (comment : Comment) : Prop :=
  ¬ [Ch.greater] <+: comment.body ∧ ¬ [Ch.minus, Ch.greater] <+: comment.body

instance (comment : Comment) : Decidable comment.Clear := inferInstanceAs (Decidable (_ ∧ _))

/-- A hyphen of the body is followed by another character of it. -/
theorem hyphen_alone (comment : Comment) {k : Nat} (hk : k < comment.body.length) (rest : Bytes) :
    ¬ hyphens <+: comment.body.drop k ++ Ch.minus :: rest := by
  intro hbegins
  rw [List.drop_eq_getElem_cons hk, List.cons_append, List.cons_prefix_cons] at hbegins
  obtain ⟨hfirst, hsecond⟩ := hbegins
  by_cases hlast : k + 1 < comment.body.length
  · rw [List.drop_eq_getElem_cons hlast, List.cons_append, List.cons_prefix_cons] at hsecond
    apply comment.single
    refine (List.IsPrefix.isInfix ?_).trans (List.drop_suffix k _).isInfix
    rw [List.drop_eq_getElem_cons hk, List.drop_eq_getElem_cons hlast, ← hfirst, ← hsecond.1]
    exact List.prefix_append [Ch.minus, Ch.minus] _
  · apply comment.closed
    rw [List.getLast?_eq_getElem?, show comment.body.length - 1 = k by omega, List.getElem?_eq_getElem hk, hfirst]

/-- The close of a clear comment is the first from its opening on. -/
theorem Clear.cut {comment : Comment} (h : comment.Clear) (rest : Bytes) :
    Occurs.cut commentClose (commentOpen ++ comment.body ++ commentClose ++ rest) =
      some (commentOpen ++ comment.body, rest) := by
  apply Occurs.cut_eq
  intro k hk hbegins
  have hopen : commentOpen = [60, 33, 45, 45] := rfl
  have hclose : commentClose = [45, 45, 62] := rfl
  rw [hopen, hclose] at hbegins
  rw [List.length_append, hopen] at hk
  match k, hk with
  | 0, _ => simp at hbegins
  | 1, _ => simp at hbegins
  | 2, _ =>
    cases hbody : comment.body with
    | nil => simp [hbody] at hbegins
    | cons c body =>
      apply h.1
      rw [hbody] at hbegins ⊢
      have hc : 62 = c := by simpa using hbegins
      rw [← hc]
      exact List.prefix_append [62] body
  | 3, _ =>
    cases hbody : comment.body with
    | nil => simp [hbody] at hbegins
    | cons c body =>
      rw [hbody] at hbegins
      cases body with
      | nil =>
        simp at hbegins
      | cons d body =>
        have hc : 45 = c ∧ 62 = d := by simpa using hbegins
        apply h.2
        rw [hbody, ← hc.1, ← hc.2]
        exact List.prefix_append [45, 62] body
  | k + 4, hk =>
    have hk' : k < comment.body.length := by
      simp only [List.length_cons, List.length_nil] at hk
      omega
    have hrest : List.drop (k + 4) ([60, 33, 45, 45] ++ comment.body ++ [45, 45, 62] ++ rest) =
        comment.body.drop k ++ 45 :: (45 :: 62 :: rest) := by
      rw [List.append_assoc, List.append_assoc]
      show List.drop k (comment.body ++ ([45, 45, 62] ++ rest)) = _
      rw [List.drop_append_of_le_length (Nat.le_of_lt hk')]
      rfl
    rw [hrest] at hbegins
    exact comment.hyphen_alone hk' _ ((List.prefix_append [45, 45] [62]).trans hbegins)

end Comment

/-- An instruction's text begins with its target, and goes on until the close. -/
structure Instruction where
  body : Bytes
  target : ∃ c rest, body = c :: rest ∧ c ≠ Ch.greater
  closed : ¬ instructionClose <:+: body

namespace Instruction

def text (instruction : Instruction) : Bytes := instructionOpen ++ instruction.body ++ instructionClose

theorem cut (instruction : Instruction) (rest : Bytes) :
    Occurs.cut instructionClose (instructionOpen ++ instruction.body ++ instructionClose ++ rest) =
      some (instructionOpen ++ instruction.body, rest) := by
  apply Occurs.cut_eq
  intro k hk hbegins
  have hopen : instructionOpen = [60, 63] := rfl
  have hclose : instructionClose = [63, 62] := rfl
  rw [hopen, hclose] at hbegins
  rw [List.length_append, hopen] at hk
  match k, hk with
  | 0, _ => simp at hbegins
  | 1, _ =>
    obtain ⟨c, tail, hbody, hc⟩ := instruction.target
    rw [hbody] at hbegins
    have hgreater : 62 = c := by simpa using hbegins
    exact hc hgreater.symm
  | k + 2, hk =>
    have hk' : k < instruction.body.length := by
      simp only [List.length_cons, List.length_nil] at hk
      omega
    have hrest : List.drop (k + 2) ([60, 63] ++ instruction.body ++ [63, 62] ++ rest) =
        instruction.body.drop k ++ 63 :: (62 :: rest) := by
      rw [List.append_assoc, List.append_assoc]
      show List.drop k (instruction.body ++ ([63, 62] ++ rest)) = _
      rw [List.drop_append_of_le_length (Nat.le_of_lt hk')]
      rfl
    rw [hrest, List.drop_eq_getElem_cons hk', List.cons_append, List.cons_prefix_cons] at hbegins
    obtain ⟨hfirst, hsecond⟩ := hbegins
    by_cases hlast : k + 1 < instruction.body.length
    · rw [List.drop_eq_getElem_cons hlast, List.cons_append, List.cons_prefix_cons] at hsecond
      apply instruction.closed
      refine (List.IsPrefix.isInfix ?_).trans (List.drop_suffix k _).isInfix
      rw [List.drop_eq_getElem_cons hk', List.drop_eq_getElem_cons hlast, ← hfirst, ← hsecond.1]
      exact List.prefix_append [63, 62] _
    · rw [List.drop_eq_nil_of_le (Nat.le_of_not_lt hlast), List.nil_append, List.cons_prefix_cons] at hsecond
      exact absurd hsecond.1 (by decide)

end Instruction

/-! ### The prolog -/

/-- What may stand beside the document type. -/
inductive Misc
  | space (c : UInt8) (h : xmlSpace c = true)
  | comment (comment : Comment)
  | instruction (instruction : Instruction)

namespace Misc

def text : Misc → Bytes
  | .space c _ => [c]
  | .comment x => x.text
  | .instruction x => x.text

def Clear : Misc → Prop
  | .comment x => x.Clear
  | _ => True

end Misc

/-! ### The document type -/

abbrev Spaces := {text : Bytes // ∀ c ∈ text, xmlSpace c = true}

/-- Spaces, of which there is one at least. -/
abbrev Gap := {text : Bytes // text ≠ [] ∧ ∀ c ∈ text, xmlSpace c = true}

structure Literal where
  quote : UInt8
  body : Bytes
  quoted : isQuote quote = true
  closed : quote ∉ body

def Literal.text (literal : Literal) : Bytes := literal.quote :: (literal.body ++ [literal.quote])

inductive External
  | systemId (gap : Gap) (id : Literal)
  | publicId (gap : Gap) (id : Literal) (behind : Gap) (system : Literal)

def External.text : External → Bytes
  | systemId gap id => ascii "SYSTEM" ++ gap.1 ++ id.text
  | publicId gap id behind system => ascii "PUBLIC" ++ gap.1 ++ id.text ++ behind.1 ++ system.text

/-- A character of the subset that opens and closes nothing. -/
def plain (c : UInt8) : Bool := !isQuote c && c ≠ closeBracket && c ≠ Ch.less

/-- What the subset is made of: the literals, comments and instructions in it, the `<!` of its
declarations, and the other characters. -/
inductive SubsetItem
  | character (c : UInt8) (h : plain c = true)
  | declaration (c : UInt8) (h : plain c = true) (hyphen : c ≠ Ch.minus)
  | literal (literal : Literal)
  | comment (comment : Comment)
  | instruction (instruction : Instruction)

namespace SubsetItem

def text : SubsetItem → Bytes
  | .character c _ => [c]
  | .declaration c _ _ => [Ch.less, 33, c]
  | .literal x => x.text
  | .comment x => x.text
  | .instruction x => x.text

def Clear : SubsetItem → Prop
  | .comment x => x.Clear
  | _ => True

end SubsetItem

structure Doctype where
  gap : Gap
  name : Bytes
  named : name ≠ [] ∧ ∀ c ∈ name, inName c = true
  external : Option (Gap × External)
  spaces : Spaces
  subset : Option (List SubsetItem × Spaces)

namespace Doctype
variable (doctype : Doctype)

def externalText : Bytes :=
  match doctype.external with
  | none => []
  | some (gap, external) => gap.1 ++ external.text

/-- The subset in its brackets, and the closing `>`. -/
def subsetText : Bytes :=
  match doctype.subset with
  | none => [Ch.greater]
  | some (items, spaces) =>
    openBracket :: (items.flatMap SubsetItem.text ++ closeBracket :: (spaces.1 ++ [Ch.greater]))

/-- From `<!DOCTYPE` to the closing `>`. -/
def text : Bytes :=
  doctypeOpen ++ (doctype.gap.1 ++ (doctype.name ++ (doctype.externalText ++
      (doctype.spaces.1 ++ doctype.subsetText))))

def Clear : Prop := ∀ items ∈ doctype.subset, ∀ item ∈ items.1, item.Clear

end Doctype

/-- A document: what stands before the document type, the document type and what follows it, and
the root from its `<` on. -/
structure Document where
  before : List Misc
  doctype : Option (Doctype × List Misc)
  root : Bytes
  rooted : ∃ c rest, root = Ch.less :: c :: rest ∧ c ≠ 33 ∧ c ≠ Ch.question

namespace Document
variable (document : Document)

def miscText (misc : List Misc) : Bytes := misc.flatMap Misc.text

def text : Bytes :=
  match document.doctype with
  | none => miscText document.before ++ document.root
  | some (doctype, behind) => miscText document.before ++ (doctype.text ++ (miscText behind ++ document.root))

/-- No comment before the root begins with `>` or `->`. -/
def Clear : Prop :=
  (∀ misc ∈ document.before, misc.Clear) ∧
    ∀ doctype ∈ document.doctype, doctype.1.Clear ∧ ∀ misc ∈ doctype.2, misc.Clear

end Document
end Agiru.Xml
