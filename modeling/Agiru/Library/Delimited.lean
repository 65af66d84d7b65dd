import Mathlib.Data.List.Basic

/-! Texts between delimiters, each delimiter in the text written twice, over any alphabet.

`delimited d text` is such a text, and `readDelimited` reads it as SQL reads quoted identifiers and literals: up to the
first delimiter that no other follows. Whatever the text has of delimiters, it is read back, and what is behind it is
left (`readDelimited_delimited`). -/
namespace Delimited

variable {α : Type*} [DecidableEq α]

/-- Every delimiter twice. -/
def doubled (d : α) : List α → List α
  | [] => []
  | c :: text => if c = d then d :: d :: doubled d text else c :: doubled d text

def delimited (d : α) (text : List α) : List α := d :: (doubled d text ++ [d])

/-- The text up to the first delimiter that no other follows, and what is behind this delimiter. -/
def undoubled (d : α) : List α → Option (List α × List α)
  | [] => none
  | [c] => if c = d then some ([], []) else none
  | c :: next :: rest =>
    if c = d then
      if next = d then (undoubled d rest).map fun read => (d :: read.1, read.2) else some ([], next :: rest)
    else (undoubled d (next :: rest)).map fun read => (c :: read.1, read.2)

def readDelimited (d : α) : List α → Option (List α × List α)
  | [] => none
  | c :: rest => if c = d then undoubled d rest else none

variable {d : α} {text rest : List α}

theorem undoubled_end (hrest : rest.head? ≠ some d) : undoubled d (d :: rest) = some ([], rest) := by
  cases rest with
  | nil => rw [undoubled, if_pos rfl]
  | cons next rest =>
    rw [undoubled, if_pos rfl, if_neg]
    rintro rfl
    exact hrest rfl

theorem undoubled_other {c : α} (hc : c ≠ d) (hne : rest ≠ []) :
    undoubled d (c :: rest) = (undoubled d rest).map fun read => (c :: read.1, read.2) := by
  cases rest with
  | nil => exact absurd rfl hne
  | cons next rest => rw [undoubled, if_neg hc]

theorem undoubled_doubled (hrest : rest.head? ≠ some d) :
    undoubled d (doubled d text ++ d :: rest) = some (text, rest) := by
  induction text with
  | nil => exact undoubled_end hrest
  | cons c text ih =>
    by_cases hc : c = d
    · subst hc
      rw [doubled, if_pos rfl, List.cons_append, List.cons_append, undoubled, if_pos rfl, if_pos rfl, ih, Option.map_some]
    · have hne : doubled d text ++ d :: rest ≠ [] := List.append_ne_nil_of_right_ne_nil _ (List.cons_ne_nil _ _)
      rw [doubled, if_neg hc, List.cons_append, undoubled_other hc hne, ih, Option.map_some]

/-- A delimited text is read back, whatever it has of delimiters, and what is behind it is left. -/
theorem readDelimited_delimited (hrest : rest.head? ≠ some d) :
    readDelimited d (delimited d text ++ rest) = some (text, rest) := by
  rw [delimited, List.cons_append, readDelimited, if_pos rfl, List.append_assoc, List.singleton_append]
  exact undoubled_doubled hrest

end Delimited
