import Mathlib.Algebra.BigOperators.Group.List.Basic
import Mathlib.Algebra.Ring.Int.Defs

/-! Reading a text that nests.

Every character changes the depth by its `weight`; a scan stops at the first character at
which a test holds of it and of the depth after it. `closing` splits a text at that
character, `splitAll` at every one of them. A text that a scan passes is read over as a
whole: what follows it is read at the depth it leaves. -/
namespace Scan

variable {α : Type} (weight : α → Int) (stops : α → Int → Bool)
variable {text : List α} {depth : Int}
variable {before : List α} {parts : List (List α)}

/-- The depth a text adds. -/
def level (text : List α) : Int := (text.map weight).sum

/-- No character of a text stops a scan that begins at a depth. -/
def Passes : Int → List α → Prop
  | _, [] => True
  | depth, c :: rest => stops c (depth + weight c) = false ∧ Passes (depth + weight c) rest

instance decidePasses : (depth : Int) → (text : List α) → Decidable (Passes weight stops depth text)
  | _, [] => inferInstanceAs (Decidable True)
  | depth, c :: rest =>
    @instDecidableAnd _ (Passes weight stops (depth + weight c) rest) inferInstance
      (decidePasses _ rest)

/-- A text before and after the character that stops a scan. -/
def closing : Int → List α → Option (List α × List α)
  | _, [] => none
  | depth, c :: rest =>
    if stops c (depth + weight c) then some ([], rest)
    else (closing (depth + weight c) rest).map fun (before, after) => (c :: before, after)

/-- The parts of a text between the characters that stop a scan, the first with what has
been read of it. -/
def splitAll : Int → List α → List α → List (List α)
  | _, part, [] => [part]
  | depth, part, c :: rest =>
    if stops c (depth + weight c) then part :: splitAll (depth + weight c) [] rest
    else splitAll (depth + weight c) (part ++ [c]) rest

@[simp] theorem level_nil : level weight [] = 0 := rfl

@[simp] theorem level_cons (c : α) (text : List α) :
    level weight (c :: text) = weight c + level weight text := by
  simp [level]

@[simp] theorem level_append (a b : List α) :
    level weight (a ++ b) = level weight a + level weight b := by
  simp [level]

variable {weight stops}

theorem level_of_forall (h : ∀ c ∈ text, weight c = 0) : level weight text = 0 := by
  rw [level, List.map_congr_left h]
  simp

@[simp] theorem passes_nil : Passes weight stops depth [] := trivial

@[simp] theorem passes_cons {c : α} {rest : List α} : Passes weight stops depth (c :: rest) ↔
      stops c (depth + weight c) = false ∧ Passes weight stops (depth + weight c) rest := Iff.rfl

@[simp] theorem passes_append {a b : List α} : Passes weight stops depth (a ++ b) ↔
      Passes weight stops depth a ∧ Passes weight stops (depth + level weight a) b := by
  induction a generalizing depth with
  | nil => simp
  | cons c a ih => simp [ih, and_assoc, Int.add_assoc]

/-- A text without characters that can stop passes. -/
theorem passes_of_forall (h : ∀ c ∈ text, ∀ depth, stops c depth = false)
    (depth : Int) : Passes weight stops depth text := by
  induction text generalizing depth with
  | nil => trivial
  | cons c text ih =>
    obtain ⟨hc, htext⟩ := List.forall_mem_cons.mp h
    exact ⟨hc _, ih htext _⟩

/-- A text is passed, or read up to the first character that stops. -/
theorem passes_or_stops (depth : Int) (text : List α) :
    Passes weight stops depth text ∨ ∃ before c after, text = before ++ c :: after ∧
      Passes weight stops depth before ∧ stops c (depth + level weight before + weight c) = true := by
  induction text generalizing depth with
  | nil => exact .inl trivial
  | cons c text ih =>
    cases hc : stops c (depth + weight c) with
    | true => exact .inr ⟨[], c, text, rfl, trivial, by simpa using hc⟩
    | false =>
      refine (ih (depth + weight c)).imp (fun hpass => ⟨hc, hpass⟩) ?_
      rintro ⟨before, d, after, rfl, hpass, hstop⟩
      exact ⟨c :: before, d, after, rfl, ⟨hc, hpass⟩, by simpa [Int.add_assoc] using hstop⟩

theorem closing_append (h : Passes weight stops depth text) (rest : List α) :
    closing weight stops depth (text ++ rest) =
      (closing weight stops (depth + level weight text) rest).map fun (before, after) =>
        (text ++ before, after) := by
  induction text generalizing depth with
  | nil => simp
  | cons c text ih =>
    rw [List.cons_append, closing, if_neg (by simp [h.1]), ih h.2, Option.map_map, level_cons, Int.add_assoc]
    rfl

/-- A scan that a text passes up to a character that stops closes there. -/
theorem closing_stop {c : α} (h : Passes weight stops depth before)
    (hc : stops c (depth + level weight before + weight c) = true) (after : List α) :
    closing weight stops depth (before ++ c :: after) = some (before, after) := by
  rw [closing_append h, closing, if_pos hc]
  simp

/-- A scan that stops has read all before and after that character. -/
theorem closing_length {after : List α} (h : closing weight stops depth text = some (before, after)) :
    before.length + after.length + 1 = text.length := by
  rcases @passes_or_stops _ weight stops depth text with
    hpass | ⟨front, c, rest, rfl, hpass, hstop⟩
  · have hnone := closing_append hpass []
    rw [List.append_nil, h] at hnone
    cases hnone
  · rw [closing_stop hpass hstop] at h
    cases h
    simp [Nat.add_assoc]

theorem splitAll_append (h : Passes weight stops depth text) (part rest : List α) :
    splitAll weight stops depth part (text ++ rest) =
      splitAll weight stops (depth + level weight text) (part ++ text) rest := by
  induction text generalizing depth part with
  | nil => simp
  | cons c text ih =>
    rw [List.cons_append, splitAll, if_neg (by simp [h.1]), ih h.2, level_cons, Int.add_assoc, List.append_assoc]
    rfl

theorem splitAll_passes (h : Passes weight stops depth text)
    (part : List α) : splitAll weight stops depth part text = [part ++ text] := by
  have happend := splitAll_append h part []
  rwa [List.append_nil] at happend

theorem splitAll_stop {c : α} (h : Passes weight stops depth before)
    (hc : stops c (depth + level weight before + weight c) = true) (part after : List α) :
    splitAll weight stops depth part (before ++ c :: after) =
      (part ++ before) ::
        splitAll weight stops (depth + level weight before + weight c) [] after := by
  rw [splitAll_append h, splitAll, if_pos hc]

/-- No part is longer than what was read. -/
theorem splitAll_length {part : List α} :
    ∀ one ∈ splitAll weight stops depth part text, one.length ≤ part.length + text.length := by
  induction text generalizing depth part with
  | nil => simp [splitAll]
  | cons c text ih =>
    rw [splitAll]
    intro one hone
    split at hone
    · rcases List.mem_cons.mp hone with rfl | hone
      · exact Nat.le_add_right _ _
      · have hlater := ih one hone
        simp only [List.length_nil, List.length_cons] at hlater ⊢
        omega
    · have hlater := ih one hone
      simp only [List.length_append, List.length_cons, List.length_nil] at hlater ⊢
      omega

/-! ### Parts with a separator between them -/

theorem intercalate_cons (sep : α) (part : List α) (h : parts ≠ []) :
    List.intercalate [sep] (part :: parts) = part ++ sep :: List.intercalate [sep] parts := by
  cases parts with
  | nil => exact absurd rfl h
  | cons next parts => simp [List.intercalate]

theorem intercalate_singleton (sep : α) (part : List α) : List.intercalate [sep] [part] = part := by
  simp [List.intercalate]

/-- Parts that pass and close what they open pass together. -/
theorem passes_intercalate {sep : α} (hsep : weight sep = 0) (hstop : stops sep depth = false)
    (h : ∀ part ∈ parts, Passes weight stops depth part ∧ level weight part = 0) :
    Passes weight stops depth (List.intercalate [sep] parts) ∧
      level weight (List.intercalate [sep] parts) = 0 := by
  induction parts with
  | nil => exact ⟨trivial, rfl⟩
  | cons part parts ih =>
    obtain ⟨⟨hpass, hlevel⟩, hrest⟩ := List.forall_mem_cons.mp h
    by_cases hnil : parts = []
    · subst hnil
      rw [intercalate_singleton]
      exact ⟨hpass, hlevel⟩
    · obtain ⟨ihpass, ihlevel⟩ := ih hrest
      rw [intercalate_cons sep part hnil]
      simp [hpass, hlevel, hsep, hstop, ihpass, ihlevel]

/-- Splitting at a separator gives the parts it stood between. -/
theorem splitAll_intercalate {sep : α} (hsep : weight sep = 0) (hstop : stops sep 0 = true) (hne : parts ≠ [])
    (h : ∀ part ∈ parts, Passes weight stops 0 part ∧ level weight part = 0) :
    splitAll weight stops 0 [] (List.intercalate [sep] parts) = parts := by
  induction parts with
  | nil => exact absurd rfl hne
  | cons part parts ih =>
    obtain ⟨⟨hpass, hlevel⟩, hrest⟩ := List.forall_mem_cons.mp h
    by_cases hnil : parts = []
    · subst hnil
      rw [intercalate_singleton, splitAll_passes hpass, List.nil_append]
    · have hhere : (0 : Int) + level weight part + weight sep = 0 := by rw [hlevel, hsep]; rfl
      rw [intercalate_cons sep part hnil, splitAll_stop hpass (by rw [hhere, hstop]), hhere,
        ih hnil hrest, List.nil_append]

end Scan
