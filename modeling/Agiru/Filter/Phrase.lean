import Agiru.Filter.Match

/-! A filter as it is written, and what it means directly.

A `Phrase` is a filter text together with its grammar: alternatives of conjunctions of parts, a part an
atom, a blank or a filter in parentheses. Its text is what stands in the field, and `accepts` evaluates it
without any normal form. -/
namespace Agiru.Filter
open Bytes

variable {separator : UInt8}

/-- What is open after some of a text: quotes, and parentheses outside of them. -/
structure Opened where
  quoted : Bool := false
  depth : Nat := 0
  deriving Repr, DecidableEq

variable {s t : Opened}

/-- What is open after one character more; a parenthesis that was not opened does not close. -/
def Opened.next (s : Opened) (c : UInt8) : Option Opened :=
  if toggled s.quoted c then some ⟨true, s.depth⟩
  else if c = Ch.openParen then some ⟨false, s.depth + 1⟩
  else if c = Ch.closeParen then if s.depth = 0 then none else some ⟨false, s.depth - 1⟩
  else some ⟨false, s.depth⟩

def Opened.after (s : Opened) : Bytes → Option Opened
  | [] => some s
  | c :: rest => (s.next c).bind fun t => t.after rest

/-- Quotes and parentheses close as they open. -/
def Balanced (text : Bytes) : Prop := Opened.after {} text = some {}

instance (text : Bytes) : Decidable (Balanced text) := inferInstanceAs (Decidable (_ = _))

/-- Whether a separator stands outside of quotes and parentheses. -/
def Opened.separates (s : Opened) (separator : UInt8) : Bytes → Bool
  | [] => false
  | c :: rest =>
    match s.next c with
    | none => false
    | some t => (t = {} && c = separator) || t.separates separator rest

/-- A part that no separator divides and no parentheses enclose. -/
structure Atomic (text : Bytes) : Prop where
  balanced : Balanced text
  bar : Opened.separates {} Ch.bar text = false
  ampersand : Opened.separates {} Ch.ampersand text = false
  written : trim text ≠ []
  bare : ∀ inner, Balanced inner → trim text ≠ Ch.openParen :: (inner ++ [Ch.closeParen])

inductive Level
  | part | conjunction | filter

theorem nothing_around : trim [] = [] ∧ trim [] = [] := ⟨rfl, rfl⟩

/-- What the filter language is built of, by the operators that bind tighter. -/
inductive Phrase : Level → Type
  | atom (text : Bytes) (h : Atomic text) : Phrase .part
  | blank (text : Bytes) (h : trim text = []) : Phrase .part
  | group (before : Bytes) (inner : Phrase .filter) (after : Bytes)
      (h : trim before = [] ∧ trim after = []) : Phrase .part
  | part (part : Phrase .part) : Phrase .conjunction
  | and (left : Phrase .conjunction) (right : Phrase .part) : Phrase .conjunction
  | conjunction (conjunction : Phrase .conjunction) : Phrase .filter
  | or (left : Phrase .filter) (right : Phrase .conjunction) : Phrase .filter

namespace Phrase

def text : {level : Level} → Phrase level → Bytes
  | _, atom text _ => text
  | _, blank text _ => text
  | _, group before inner after _ => before ++ Ch.openParen :: (inner.text ++ Ch.closeParen :: after)
  | _, part p => p.text
  | _, and left right => left.text ++ Ch.ampersand :: right.text
  | _, conjunction c => c.text
  | _, or left right => left.text ++ Ch.bar :: right.text

/-- Something is written in every pair of parentheses. -/
def GroupsWritten : {level : Level} → Phrase level → Prop
  | _, atom _ _ => True
  | _, blank _ _ => True
  | _, group _ inner _ _ => trim inner.text ≠ [] ∧ inner.GroupsWritten
  | _, part p => p.GroupsWritten
  | _, and left right => left.GroupsWritten ∧ right.GroupsWritten
  | _, conjunction c => c.GroupsWritten
  | _, or left right => left.GroupsWritten ∧ right.GroupsWritten

/-- What a phrase accepts, evaluated as it stands. -/
def accepts (value : Bytes) (field : FieldDef) : {level : Level} → Phrase level → Bool
  | _, atom text _ => satisfies (readAtom text) value field
  | _, blank _ _ => satisfies {} value field
  | _, group _ inner _ _ => inner.accepts value field
  | _, part p => p.accepts value field
  | _, and left right => left.accepts value field && right.accepts value field
  | _, conjunction c => c.accepts value field
  | _, or left right => left.accepts value field || right.accepts value field

end Phrase

theorem Atomic.of_head {text : Bytes} (hbalanced : Balanced text)
    (hbar : Opened.separates {} Ch.bar text = false) (hampersand : Opened.separates {} Ch.ampersand text = false)
    (hwritten : trim text ≠ []) (hhead : (trim text).head? ≠ some Ch.openParen) : Atomic text :=
  ⟨hbalanced, hbar, hampersand, hwritten, fun _ _ heq => hhead (by rw [heq]; rfl)⟩

/-! ### What is open -/

theorem Opened.after_append (s : Opened) (a b : Bytes) :
    s.after (a ++ b) = (s.after a).bind fun t => t.after b := by
  induction a generalizing s with
  | nil => rfl
  | cons c rest ih =>
    rw [List.cons_append, Opened.after, Opened.after, Option.bind_assoc]
    congr 1
    funext t
    exact ih t

theorem Opened.separates_append {a : Bytes} (h : s.after a = some t) (separator : UInt8)
    (b : Bytes) : s.separates separator (a ++ b) = (s.separates separator a || t.separates separator b) := by
  induction a generalizing s with
  | nil =>
    obtain rfl : s = t := Option.some.inj h
    rfl
  | cons c rest ih =>
    rw [Opened.after] at h
    obtain ⟨u, hu, hrest⟩ := Option.bind_eq_some_iff.mp h
    rw [List.cons_append, Opened.separates, Opened.separates, hu]
    dsimp only
    rw [ih hrest, Bool.or_assoc]

/-- Inside of parentheses a text opens and closes as it does outside. -/
theorem Opened.next_deeper {c : UInt8} (h : s.next c = some t) (d : Nat) :
    Opened.next ⟨s.quoted, s.depth + d⟩ c = some ⟨t.quoted, t.depth + d⟩ := by
  unfold Opened.next at h ⊢
  dsimp only
  by_cases htoggled : toggled s.quoted c = true
  · rw [if_pos htoggled] at h ⊢
    rw [← Option.some.inj h]
  · rw [if_neg htoggled] at h ⊢
    by_cases hopen : c = Ch.openParen
    · rw [if_pos hopen] at h ⊢
      rw [← Option.some.inj h, Nat.add_right_comm]
    · rw [if_neg hopen] at h ⊢
      by_cases hclose : c = Ch.closeParen
      · rw [if_pos hclose] at h ⊢
        split at h
        · cases h
        · next hdepth =>
          rw [if_neg (by omega), ← Option.some.inj h]
          congr 2
          show s.depth + d - 1 = s.depth - 1 + d
          omega
      · rw [if_neg hclose] at h ⊢
        rw [← Option.some.inj h]

theorem Opened.after_deeper {text : Bytes} (h : s.after text = some t) (d : Nat) :
    Opened.after ⟨s.quoted, s.depth + d⟩ text = some ⟨t.quoted, t.depth + d⟩ := by
  induction text generalizing s with
  | nil =>
    obtain rfl : s = t := Option.some.inj h
    rfl
  | cons c rest ih =>
    obtain ⟨u, hu, hrest⟩ := Option.bind_eq_some_iff.mp h
    rw [Opened.after, Opened.next_deeper hu, Option.bind_some]
    exact ih hrest

theorem Opened.separates_deeper {text : Bytes} (h : s.after text = some t) (separator : UInt8)
    (d : Nat) : Opened.separates ⟨s.quoted, s.depth + (d + 1)⟩ separator text = false := by
  induction text generalizing s with
  | nil => rfl
  | cons c rest ih =>
    obtain ⟨u, hu, hrest⟩ := Option.bind_eq_some_iff.mp h
    have hne : (⟨u.quoted, u.depth + (d + 1)⟩ : Opened) ≠ {} := by
      intro heq
      exact Nat.succ_ne_zero _ (congrArg Opened.depth heq)
    rw [Opened.separates, Opened.next_deeper hu]
    dsimp only
    rw [decide_eq_false hne, Bool.false_and, Bool.false_or]
    exact ih hrest

theorem not_special_of_isSpace {c : UInt8} (h : isSpace c = true) :
    c ≠ Ch.quote ∧ c ≠ Ch.openParen ∧ c ≠ Ch.closeParen ∧ c ≠ Ch.bar ∧ c ≠ Ch.ampersand := by
  refine ⟨?_, ?_, ?_, ?_, ?_⟩ <;> intro heq <;> subst heq <;> revert h <;> decide

theorem Opened.next_space {c : UInt8} (h : isSpace c = true) : s.next c = some s := by
  obtain ⟨hquote, hopen, hclose, -, -⟩ := not_special_of_isSpace h
  obtain ⟨quoted, depth⟩ := s
  cases quoted <;> simp [Opened.next, toggled, hquote, hopen, hclose]

theorem Opened.after_spaces (s : Opened) {text : Bytes} (h : ∀ c ∈ text, isSpace c = true) :
    s.after text = some s := by
  induction text with
  | nil => rfl
  | cons c rest ih =>
    rw [Opened.after, Opened.next_space (h c List.mem_cons_self), Option.bind_some]
    exact ih fun d hd => h d (List.mem_cons_of_mem c hd)

theorem Opened.separates_spaces (s : Opened) (hsep : isSpace separator = false) {text : Bytes}
    (h : ∀ c ∈ text, isSpace c = true) : s.separates separator text = false := by
  induction text with
  | nil => rfl
  | cons c rest ih =>
    have hne : c ≠ separator := by
      intro heq
      rw [← heq, h c List.mem_cons_self] at hsep
      cases hsep
    rw [Opened.separates, Opened.next_space (h c List.mem_cons_self)]
    dsimp only
    rw [decide_eq_false hne, Bool.and_false, Bool.false_or]
    exact ih fun d hd => h d (List.mem_cons_of_mem c hd)

/-! ### The text of a phrase -/

namespace Phrase

/-- A text between parentheses, which stand between white space. -/
theorem balanced_group {before inner after : Bytes} (hbefore : trim before = []) (hinner : Balanced inner)
    (hafter : trim after = []) : Balanced (before ++ Ch.openParen :: (inner ++ Ch.closeParen :: after)) := by
  have hdeeper := Opened.after_deeper hinner 1
  rw [Balanced, Opened.after_append, Opened.after_spaces _ (trim_eq_nil_iff.mp hbefore), Option.bind_some,
    Opened.after, show Opened.next {} Ch.openParen = some ⟨false, 1⟩ from rfl, Option.bind_some,
    Opened.after_append, hdeeper, Option.bind_some, Opened.after,
    show Opened.next ⟨false, 0 + 1⟩ Ch.closeParen = some {} from rfl, Option.bind_some,
    Opened.after_spaces _ (trim_eq_nil_iff.mp hafter)]

theorem separates_group {before inner after : Bytes} (hbefore : trim before = []) (hinner : Balanced inner)
    (hafter : trim after = []) (hsep : separator = Ch.bar ∨ separator = Ch.ampersand) :
    Opened.separates {} separator (before ++ Ch.openParen :: (inner ++ Ch.closeParen :: after)) = false := by
  have hspace : isSpace separator = false := by
    rcases hsep with rfl | rfl <;> rfl
  have hclose : Ch.closeParen ≠ separator := by
    rcases hsep with rfl | rfl <;> decide
  have hopened := Opened.after_spaces {} (trim_eq_nil_iff.mp hbefore)
  have hdeeper := Opened.after_deeper hinner 1
  have hinside := Opened.separates_deeper hinner separator 0
  rw [Opened.separates_append hopened, Opened.separates_spaces _ hspace (trim_eq_nil_iff.mp hbefore),
    Bool.false_or, Opened.separates, show Opened.next {} Ch.openParen = some ⟨false, 1⟩ from rfl]
  dsimp only
  rw [show decide ((⟨false, 1⟩ : Opened) = {}) = false from rfl, Bool.false_and, Bool.false_or,
    Opened.separates_append hdeeper, hinside, Bool.false_or, Opened.separates,
    show Opened.next ⟨false, 0 + 1⟩ Ch.closeParen = some {} from rfl]
  dsimp only
  rw [decide_eq_false hclose, Bool.and_false, Bool.false_or,
    Opened.separates_spaces _ hspace (trim_eq_nil_iff.mp hafter)]

theorem balanced_joined {left right : Bytes} (hleft : Balanced left)
    (hright : Balanced right) (hsep : separator = Ch.bar ∨ separator = Ch.ampersand) :
    Balanced (left ++ separator :: right) := by
  have hnext : Opened.next {} separator = some {} := by
    rcases hsep with rfl | rfl <;> rfl
  rw [Balanced, Opened.after_append, hleft, Option.bind_some, Opened.after, hnext, Option.bind_some]
  exact hright

theorem balanced : {level : Level} → (phrase : Phrase level) → Balanced phrase.text
  | _, atom _ h => h.balanced
  | _, blank _ h => Opened.after_spaces {} (trim_eq_nil_iff.mp h)
  | _, group _ inner _ h => balanced_group h.1 inner.balanced h.2
  | _, part p => p.balanced
  | _, and left right => balanced_joined left.balanced right.balanced (.inr rfl)
  | _, conjunction c => c.balanced
  | _, or left right => balanced_joined left.balanced right.balanced (.inl rfl)

/-- Nothing separates a part. -/
theorem separates_part (phrase : Phrase .part) (hsep : separator = Ch.bar ∨ separator = Ch.ampersand) :
    Opened.separates {} separator phrase.text = false := by
  cases phrase with
  | atom text h =>
    rcases hsep with rfl | rfl
    · exact h.bar
    · exact h.ampersand
  | blank text h =>
    refine Opened.separates_spaces {} ?_ (trim_eq_nil_iff.mp h)
    rcases hsep with rfl | rfl <;> rfl
  | group before inner after h => exact separates_group h.1 inner.balanced h.2 hsep

/-- No alternatives stand outside of parentheses in a conjunction. -/
theorem separates_conjunction : (phrase : Phrase .conjunction) →
    Opened.separates {} Ch.bar phrase.text = false
  | part p => p.separates_part (.inl rfl)
  | and left right => by
    have hright := right.separates_part (.inl rfl)
    rw [text, Opened.separates_append left.balanced, left.separates_conjunction, Bool.false_or,
      Opened.separates, show Opened.next {} Ch.ampersand = some {} from rfl]
    dsimp only
    rw [hright]
    rfl

end Phrase
end Agiru.Filter
