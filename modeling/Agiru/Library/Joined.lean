import Mathlib.Data.List.Basic

/-! Parts joined by a separator that is written only behind what is there already.

Blank parts at the front leave no trace (`joined_eq`), so that splitting gives the parts back only
where there are none (`splitOn_joined`); among as many parts the joined text still tells them apart
(`joined_injective`). -/
namespace Agiru.Joined

variable {α : Type*} {separator : α} {part first : List α} {parts rest : List (List α)}

/-- The parts, a separator before each that follows some text. -/
def joined (separator : α) (parts : List (List α)) : List α :=
  parts.foldl (fun out part => (if out = [] then out else out ++ [separator]) ++ part) []

/-- The parts without the blank ones at the front. -/
abbrev visible (parts : List (List α)) : List (List α) := parts.dropWhile (· = [])

theorem foldl_joined {out : List α} (h : out ≠ []) (parts : List (List α)) :
    parts.foldl (fun out part => (if out = [] then out else out ++ [separator]) ++ part) out =
      out ++ parts.flatMap (separator :: ·) := by
  induction parts generalizing out with
  | nil => simp
  | cons part parts ih =>
    rw [List.foldl_cons, if_neg h, ih (by simp), List.flatMap_cons]
    simp

/-- The first part that is not blank begins the text. -/
theorem joined_eq (parts : List (List α)) :
    joined separator parts =
      match visible parts with
      | [] => []
      | first :: rest => first ++ rest.flatMap (separator :: ·) := by
  induction parts with
  | nil => rfl
  | cons part parts ih =>
    by_cases h : part = []
    · subst h
      simpa [joined, visible] using ih
    · rw [visible, List.dropWhile_cons_of_neg (by simpa using h), joined, List.foldl_cons, if_pos rfl,
        List.nil_append, foldl_joined h]

theorem head_visible (h : visible parts = first :: rest) : first ≠ [] := by
  have := List.head?_dropWhile_not (· = []) parts
  rw [show parts.dropWhile (· = []) = first :: rest from h] at this
  simpa using this

/-- The parts are the visible ones behind as many blanks as are missing. -/
theorem eq_blanks_append (parts : List (List α)) :
    parts = List.replicate (parts.length - (visible parts).length) [] ++ visible parts := by
  induction parts with
  | nil => rfl
  | cons part parts ih =>
    by_cases h : part = []
    · subst h
      have hdrop : visible ([] :: parts) = visible parts := List.dropWhile_cons_of_pos (by simp)
      have hlength : (visible parts).length ≤ parts.length := (List.dropWhile_sublist _).length_le
      rw [hdrop, List.length_cons, Nat.succ_sub hlength, List.replicate_succ, List.cons_append, ← ih]
    · rw [visible, List.dropWhile_cons_of_neg (by simpa using h), Nat.sub_self]
      rfl

variable [DecidableEq α]

theorem splitOn_separated (hfirst : separator ∉ first) (hrest : ∀ part ∈ rest, separator ∉ part) :
    (first ++ rest.flatMap (separator :: ·)).splitOn separator = first :: rest := by
  induction rest generalizing first with
  | nil => rw [List.flatMap_nil, List.append_nil, List.splitOn_eq_singleton hfirst]
  | cons part rest ih =>
    obtain ⟨hpart, hrest⟩ := List.forall_mem_cons.mp hrest
    rw [List.flatMap_cons, List.cons_append, List.splitOn_append_cons_self_of_not_mem hfirst, ih hpart hrest]

/-- Splitting finds the parts that are visible, or a blank one. -/
theorem splitOn_joined (h : ∀ part ∈ parts, separator ∉ part) :
    (joined separator parts).splitOn separator = if visible parts = [] then [[]] else visible parts := by
  have hvisible : ∀ part ∈ visible parts, separator ∉ part := fun part hpart =>
    h part (List.dropWhile_sublist _ |>.subset hpart)
  rw [joined_eq]
  cases hparts : visible parts with
  | nil => rfl
  | cons first rest =>
    rw [hparts] at hvisible
    rw [if_neg (List.cons_ne_nil _ _)]
    exact splitOn_separated (hvisible first List.mem_cons_self) fun part hpart =>
      hvisible part (List.mem_cons_of_mem _ hpart)

/-- As many parts as were joined come back just where the first one is not blank, or is the only one. -/
theorem length_splitOn_joined (hne : parts ≠ []) (h : ∀ part ∈ parts, separator ∉ part) :
    ((joined separator parts).splitOn separator).length = parts.length ↔
      parts.length = 1 ∨ parts.head? ≠ some [] := by
  obtain ⟨part, rest, rfl⟩ := List.exists_cons_of_ne_nil hne
  rw [splitOn_joined h]
  by_cases hblank : part = []
  · subst hblank
    have hdrop : visible ([] :: rest) = visible rest := List.dropWhile_cons_of_pos (by simp)
    have hlength : (visible rest).length ≤ rest.length := (List.dropWhile_sublist _).length_le
    have hblank : ([] :: rest : List (List α)).head? = some [] := rfl
    rw [hdrop, List.length_cons, or_iff_left (not_not.mpr hblank)]
    split
    · rw [List.length_singleton, eq_comm]
    · next hvisible =>
      have hrest : rest ≠ [] := by
        rintro rfl
        exact hvisible rfl
      have hpositive := List.length_pos_iff.mpr hrest
      constructor <;> omega
  · rw [visible, List.dropWhile_cons_of_neg (by simpa using hblank), if_neg (List.cons_ne_nil _ _)]
    simp [hblank]

/-- Where they all come back, they are the parts. -/
theorem splitOn_joined_of_length (hne : parts ≠ []) (h : ∀ part ∈ parts, separator ∉ part)
    (hlength : parts.length = 1 ∨ parts.head? ≠ some []) :
    (joined separator parts).splitOn separator = parts := by
  obtain ⟨part, rest, rfl⟩ := List.exists_cons_of_ne_nil hne
  rw [splitOn_joined h]
  by_cases hblank : part = []
  · subst hblank
    have hrest : rest = [] := by simpa using hlength
    rw [hrest]
    rfl
  · rw [visible, List.dropWhile_cons_of_neg (by simpa using hblank), if_neg (List.cons_ne_nil _ _)]

/-- Lists of as many parts are told apart by the text. -/
theorem joined_injective {others : List (List α)} (hparts : ∀ part ∈ parts, separator ∉ part)
    (hothers : ∀ part ∈ others, separator ∉ part) (hlength : parts.length = others.length)
    (h : joined separator parts = joined separator others) : parts = others := by
  have hsplit := congrArg (List.splitOn separator) h
  rw [splitOn_joined hparts, splitOn_joined hothers] at hsplit
  have hvisible : visible parts = visible others := by
    cases hp : visible parts with
    | nil =>
      cases ho : visible others with
      | nil => rfl
      | cons first rest =>
        rw [hp, ho, if_pos rfl, if_neg (List.cons_ne_nil _ _)] at hsplit
        exact absurd (List.cons.inj hsplit).1.symm (head_visible ho)
    | cons first rest =>
      cases ho : visible others with
      | nil =>
        rw [hp, ho, if_pos rfl, if_neg (List.cons_ne_nil _ _)] at hsplit
        exact absurd (List.cons.inj hsplit).1 (head_visible hp)
      | cons other others =>
        rwa [hp, ho, if_neg (List.cons_ne_nil _ _), if_neg (List.cons_ne_nil _ _)] at hsplit
  rw [eq_blanks_append parts, eq_blanks_append others, hvisible, hlength]

end Agiru.Joined
