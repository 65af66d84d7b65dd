import Mathlib.Data.List.DropRight

/-! Lists without some elements at their ends.

`strip` takes the elements that satisfy a predicate from the front, from the back, or from both. What such elements
surround is stripped as if it stood alone (`strip_surrounded`). -/
namespace Strip

variable {α : Type*}

/-- A list without the elements at its front, at its back, or at both, that satisfy a predicate. -/
def strip (left right : Bool) (p : α → Bool) (l : List α) : List α :=
  let l := if left then l.dropWhile p else l
  if right then l.rdropWhile p else l

variable {p : α → Bool} {front back l : List α}

/-! ### The back of a list -/

theorem rdropWhile_append_of_pos (hback : ∀ c ∈ back, p c = true) : (l ++ back).rdropWhile p = l.rdropWhile p := by
  rw [List.rdropWhile, List.reverse_append, List.dropWhile_append_of_pos fun c hc => hback c (List.mem_reverse.mp hc),
    List.rdropWhile]

theorem rdropWhile_eq_self (h : ∀ c, l.getLast? = some c → p c = false) : l.rdropWhile p = l := by
  rw [List.rdropWhile_eq_self_iff]
  intro hne hlast
  rw [h _ (List.getLast?_eq_some_getLast hne)] at hlast
  cases hlast

theorem rdropWhile_append (hfront : ∀ c, front.getLast? = some c → p c = false) (hback : ∀ c ∈ back, p c = true) :
    (front ++ back).rdropWhile p = front := by
  rw [rdropWhile_append_of_pos hback, rdropWhile_eq_self hfront]

theorem rtakeWhile_append (hfront : ∀ c, front.getLast? = some c → p c = false) (hback : ∀ c ∈ back, p c = true) :
    (front ++ back).rtakeWhile p = back := by
  have hsplit := @List.rdropWhile_append_rtakeWhile _ p (front ++ back)
  rw [rdropWhile_append hfront hback] at hsplit
  exact List.append_cancel_left hsplit

/-! ### Both ends -/

variable {left right : Bool}

theorem strip_all (h : ∀ c ∈ l, p c = true) (hside : left = true ∨ right = true) : strip left right p l = [] := by
  have hdrop : l.dropWhile p = [] := List.dropWhile_eq_nil_iff.mpr h
  have hrdrop : l.rdropWhile p = [] := List.rdropWhile_eq_nil_iff.mpr h
  cases left with
  | true =>
    simp only [strip, if_true, hdrop]
    split <;> rfl
  | false =>
    obtain rfl := hside.resolve_left Bool.false_ne_true
    exact hrdrop

/-- What is surrounded by elements that are stripped is stripped as if it stood alone. -/
theorem strip_surrounded (hfront : ∀ c ∈ front, p c = true) (hback : ∀ c ∈ back, p c = true)
    (hleft : left = false → front = []) (hright : right = false → back = []) :
    strip left right p (front ++ l ++ back) = strip left right p l := by
  have hall : (∀ c ∈ l, p c = true) → ∀ c ∈ front ++ l ++ back, p c = true := by
    intro h c hc
    rcases List.mem_append.mp hc with hc | hc
    · exact (List.mem_append.mp hc).elim (hfront c) (h c)
    · exact hback c hc
  cases left with
  | false =>
    cases right with
    | false => rw [hleft rfl, hright rfl, List.nil_append, List.append_nil]
    | true =>
      rw [hleft rfl, List.nil_append]
      exact rdropWhile_append_of_pos hback
  | true =>
    cases right with
    | false =>
      rw [hright rfl, List.append_nil]
      exact List.dropWhile_append_of_pos hfront
    | true =>
      by_cases hl : ∀ c ∈ l, p c = true
      · rw [strip_all (hall hl) (.inl rfl), strip_all hl (.inl rfl)]
      · have hne : l.dropWhile p ≠ [] := mt List.dropWhile_eq_nil_iff.mp hl
        change ((front ++ l ++ back).dropWhile p).rdropWhile p = (l.dropWhile p).rdropWhile p
        rw [List.append_assoc, List.dropWhile_append_of_pos hfront, List.dropWhile_append,
          if_neg (by rwa [List.isEmpty_iff]), rdropWhile_append_of_pos hback]

/-- A list is left alone exactly if neither end is stripped. -/
theorem strip_eq_self_iff : strip left right p l = l ↔
    (left = true → ∀ c, l.head? = some c → p c = false) ∧ (right = true → ∀ c, l.getLast? = some c → p c =
        false) := by
  have hdrop : l.dropWhile p = l ↔ ∀ c, l.head? = some c → p c = false := by
    cases l with
    | nil => exact iff_of_true rfl nofun
    | cons d rest =>
      rw [List.dropWhile_cons]
      cases hd : p d with
      | false => exact iff_of_true rfl fun c hc => by rw [← Option.some.inj hc, hd]
      | true =>
        refine iff_of_false (fun heq => ?_) fun h => ?_
        · have hle := (List.dropWhile_sublist p (l := rest)).length_le
          rw [if_pos rfl] at heq
          rw [heq, List.length_cons] at hle
          omega
        · rw [h d rfl] at hd
          cases hd
  have hrdrop : l.rdropWhile p = l ↔ ∀ c, l.getLast? = some c → p c = false := by
    refine ⟨fun h c hc => ?_, rdropWhile_eq_self⟩
    have hne : l ≠ [] := fun hnil => by rw [hnil] at hc; cases hc
    rw [List.getLast?_eq_some_getLast hne] at hc
    rw [← Option.some.inj hc]
    exact Bool.eq_false_iff.mpr (List.rdropWhile_eq_self_iff.mp h hne)
  cases left with
  | false =>
    cases right with
    | false => exact iff_of_true rfl ⟨nofun, nofun⟩
    | true => exact hrdrop.trans ⟨fun h => ⟨nofun, fun _ => h⟩, fun h => h.2 rfl⟩
  | true =>
    cases right with
    | false => exact hdrop.trans ⟨fun h => ⟨fun _ => h, nofun⟩, fun h => h.1 rfl⟩
    | true =>
      rw [← hdrop, ← hrdrop]
      change (l.dropWhile p).rdropWhile p = l ↔ (true = true → l.dropWhile p = l) ∧
          (true = true → l.rdropWhile p = l)
      refine ⟨fun h => ?_, fun h => by rw [h.1 rfl, h.2 rfl]⟩
      have hstart := (List.rdropWhile_prefix p (l.dropWhile p)).length_le
      have hself : l.dropWhile p = l := (List.dropWhile_suffix p).eq_of_length_le (by rwa [h] at hstart)
      rw [hself] at h
      exact ⟨fun _ => hself, fun _ => h⟩

/-- A list around what stripping leaves of it. -/
theorem strip_split (left right : Bool) (p : α → Bool) (l : List α) : ∃ front back,
    l = front ++ strip left right p l ++ back ∧ (∀ c ∈ front, p c = true) ∧ (∀ c ∈ back, p c = true) ∧
      (left = false → front = []) ∧ (right = false → back = []) := by
  obtain ⟨front, rest, hsplit, hfront, hleft, hrest⟩ : ∃ front rest, l = front ++ rest ∧
      (∀ c ∈ front, p c = true) ∧
      (left = false → front = []) ∧ rest = if left then l.dropWhile p else l := by
    cases left with
    | true => exact ⟨l.takeWhile p, _, List.takeWhile_append_dropWhile.symm, fun _ => List.mem_takeWhile_imp,
        nofun, rfl⟩
    | false => exact ⟨[], l, rfl, nofun, fun _ => rfl, rfl⟩
  cases right with
  | true =>
    refine ⟨front, rest.rtakeWhile p, ?_, hfront, fun _ => List.mem_rtakeWhile_imp, hleft, nofun⟩
    rw [strip, if_pos rfl, ← hrest, List.append_assoc, List.rdropWhile_append_rtakeWhile]
    exact hsplit
  | false =>
    refine ⟨front, [], ?_, hfront, nofun, hleft, fun _ => rfl⟩
    rw [strip, if_neg Bool.false_ne_true, ← hrest, List.append_nil]
    exact hsplit

/-- Stripping leaves nothing that it strips at the ends. -/
theorem strip_ends (left right : Bool) (p : α → Bool) (l : List α) :
    (left = true → ∀ c, (strip left right p l).head? = some c → p c = false) ∧
      (right = true → ∀ c, (strip left right p l).getLast? = some c → p c = false) := by
  obtain ⟨front, back, hsplit, hfront, hback, hleft, hright⟩ := strip_split left right p l
  refine strip_eq_self_iff.mp ?_
  rw [← strip_surrounded hfront hback hleft hright, ← hsplit]

/-- The first element that is not stripped. -/
theorem strip_head? (hleft : left = true) : (strip left right p l).head? = (l.dropWhile p).head? := by
  obtain ⟨front, back, hsplit, hfront, hback, -, -⟩ := strip_split left right p l
  have hends := (strip_ends left right p l).1 hleft
  generalize strip left right p l = m at hsplit hends
  rw [hsplit, List.append_assoc, List.dropWhile_append_of_pos hfront]
  cases m with
  | nil => rw [List.nil_append, List.dropWhile_eq_nil_iff.mpr hback]
  | cons c rest =>
    rw [List.cons_append, List.dropWhile_cons, hends c rfl]
    rfl

/-- The last element that is not stripped. -/
theorem strip_getLast? (hright : right = true) : (strip left right p l).getLast? = (l.rdropWhile p).getLast? := by
  obtain ⟨front, back, hsplit, hfront, hback, -, -⟩ := strip_split left right p l
  have hends := (strip_ends left right p l).2 hright
  generalize strip left right p l = m at hsplit hends
  rw [hsplit, rdropWhile_append_of_pos hback]
  by_cases hm : m = []
  · rw [hm, List.append_nil, List.rdropWhile_eq_nil_iff.mpr hfront]
  · rw [rdropWhile_eq_self (by rwa [List.getLast?_append_of_ne_nil _ hm]), List.getLast?_append_of_ne_nil _ hm]

end Strip

/-! ### Tokens with white space before each, over any alphabet.

`Spaced tokens text rest` says that `text` is the tokens, one behind the other, and then `rest`. Two tokens
whose characters would run into one word have white space between them. -/

section
variable {α : Type} (space inner : α → Bool)

/-- A word would go on behind the token. -/
def Joins (token behind : List α) : Prop :=
  (∃ c, token.getLast? = some c ∧ inner c = true) ∧ ∃ c, behind.head? = some c ∧ inner c = true

inductive Spaced : List (List α) → List α → List α → Prop
  | nil (rest : List α) : Spaced [] rest rest
  | cons {token before text rest : List α} {tokens : List (List α)} (hbefore : ∀ c ∈ before, space c = true)
      (hends : ¬ Joins inner token text) (htokens : Spaced tokens text rest) :
      Spaced (token :: tokens) (before ++ (token ++ text)) rest
end

namespace Spaced
variable {α : Type} {space inner : α → Bool} {token text rest : List α} {tokens others : List (List α)}

theorem nil_iff : Spaced space inner [] text rest ↔ text = rest := by
  constructor
  · intro h
    cases h
    rfl
  · rintro rfl
    exact .nil text

/-- A token begins where the white space ends. -/
theorem cons_iff {c : α} {behind : List α} (hc : space c = false) :
    Spaced space inner ((c :: behind) :: tokens) text rest ↔
      ∃ mid, text.dropWhile space = c :: (behind ++ mid) ∧ ¬ Joins inner (c :: behind) mid ∧
        Spaced space inner tokens mid rest := by
  constructor
  · intro h
    cases h with
    | @cons token before mid rest tokens hbefore hends htokens =>
      refine ⟨mid, ?_, hends, htokens⟩
      rw [List.dropWhile_append_of_pos hbefore, List.cons_append, List.dropWhile_cons_of_neg (by simp [hc])]
  · rintro ⟨mid, htext, hends, htokens⟩
    rw [← List.takeWhile_append_dropWhile (p := space) (l := text), htext]
    exact .cons (fun d hd => List.mem_takeWhile_imp hd) hends htokens

theorem append {mid : List α} (h : Spaced space inner tokens text mid) (hrest : Spaced space inner others mid rest) :
    Spaced space inner (tokens ++ others) text rest := by
  induction h with
  | nil => exact hrest
  | cons hbefore hends _ ih => exact .cons hbefore hends (ih hrest)

theorem append_iff : Spaced space inner (tokens ++ others) text rest ↔
    ∃ mid, Spaced space inner tokens text mid ∧ Spaced space inner others mid rest := by
  constructor
  · intro h
    induction tokens generalizing text with
    | nil => exact ⟨text, .nil text, h⟩
    | cons token tokens ih =>
      cases h with
      | cons hbefore hends htokens =>
        obtain ⟨mid, hfirst, hsecond⟩ := ih htokens
        exact ⟨mid, .cons hbefore hends hfirst, hsecond⟩
  · rintro ⟨mid, hfirst, hsecond⟩
    exact hfirst.append hsecond

end Spaced
