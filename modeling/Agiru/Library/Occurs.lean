import Mathlib.Data.List.Infix

/-! The first occurrence of a pattern in a text.

`cut` splits a text at the first occurrence of a pattern, into what is before it and what is
after it. A text that is followed by the pattern is read back whole exactly when the pattern
does not begin in it (`Ends`). A pattern that does not overlap itself cannot hide the one
that follows a text: where it begins in the text it also ends there. -/
namespace Occurs

variable {α : Type} [DecidableEq α]

/-- What is before and after the first occurrence of a pattern. -/
def cut (pattern : List α) : List α → Option (List α × List α)
  | [] => if pattern = [] then some ([], []) else none
  | c :: rest =>
    if pattern.isPrefixOf (c :: rest) then some ([], (c :: rest).drop pattern.length)
    else (cut pattern rest).map fun (before, after) => (c :: before, after)

/-- A text is what stands before the first occurrence in it and the pattern. -/
def Ends (pattern text : List α) : Prop := cut pattern (text ++ pattern) = some (text, [])

instance (pattern text : List α) : Decidable (Ends pattern text) :=
  inferInstanceAs (Decidable (_ = _))

/-- No end of a pattern is a beginning of it. -/
def Unbordered (pattern : List α) : Prop :=
  ∀ k, 0 < k → k < pattern.length → ¬ pattern.drop k <+: pattern

variable {pattern text before after rest : List α}

theorem cut_begins (h : pattern <+: text) : cut pattern text = some ([], text.drop pattern.length) := by
  cases text with
  | nil => simp [cut, List.prefix_nil.mp h]
  | cons c rest => rw [cut, if_pos (List.isPrefixOf_iff_prefix.mpr h)]

/-- A cut splits the text, at a place before which the pattern does not begin. -/
theorem cut_spec (h : cut pattern text = some (before, after)) :
    text = before ++ pattern ++ after ∧ ∀ k, k < before.length → ¬ pattern <+: text.drop k := by
  induction text generalizing before with
  | nil =>
    unfold cut at h
    split at h
    · rename_i hnil
      obtain ⟨rfl, rfl⟩ := Prod.mk.inj (Option.some.inj h)
      exact ⟨by simp [hnil], fun k hk => absurd hk (Nat.not_lt_zero k)⟩
    · cases h
  | cons c rest ih =>
    unfold cut at h
    split at h
    · rename_i hstart
      obtain ⟨rfl, rfl⟩ := Prod.mk.inj (Option.some.inj h)
      refine ⟨?_, fun k hk => absurd hk (Nat.not_lt_zero k)⟩
      exact (List.prefix_iff_eq_append.mp (List.isPrefixOf_iff_prefix.mp hstart)).symm
    · rename_i hstart
      obtain ⟨⟨before, after⟩, hcut, heq⟩ := Option.map_eq_some_iff.mp h
      obtain ⟨rfl, rfl⟩ := Prod.mk.inj heq
      obtain ⟨hrest, hfirst⟩ := ih hcut
      refine ⟨by simp [hrest], fun k hk => ?_⟩
      cases k with
      | zero => exact fun hbegins => hstart (List.isPrefixOf_iff_prefix.mpr hbegins)
      | succ k => exact hfirst k (Nat.lt_of_succ_lt_succ hk)

theorem cut_isSome {k : Nat} (h : pattern <+: text.drop k) : (cut pattern text).isSome := by
  induction k generalizing text with
  | zero =>
    rw [List.drop_zero] at h
    rw [cut_begins h, Option.isSome_some]
  | succ k ih =>
    cases text with
    | nil => rw [cut_begins (by simpa using h), Option.isSome_some]
    | cons c rest =>
      unfold cut
      split
      · rfl
      · rw [Option.isSome_map]
        exact ih h

/-- The first occurrence is where the pattern begins, and does not before. -/
theorem cut_eq (before after : List α)
    (h : ∀ k, k < before.length → ¬ pattern <+: (before ++ pattern ++ after).drop k) :
    cut pattern (before ++ pattern ++ after) = some (before, after) := by
  have hbegins : pattern <+: (before ++ pattern ++ after).drop before.length := by
    rw [List.append_assoc, List.drop_left]
    exact List.prefix_append _ _
  obtain ⟨⟨before', after'⟩, hcut⟩ := Option.isSome_iff_exists.mp (cut_isSome hbegins)
  obtain ⟨htext, hfirst⟩ := cut_spec hcut
  have hlength : before'.length = before.length := by
    refine Nat.le_antisymm (Nat.le_of_not_lt fun hlt => hfirst _ hlt hbegins) ?_
    refine Nat.le_of_not_lt fun hlt => h _ hlt ?_
    rw [htext, List.append_assoc, List.drop_left]
    exact List.prefix_append _ _
  rw [List.append_assoc, List.append_assoc] at htext
  obtain ⟨rfl, hrest⟩ := List.append_inj htext hlength.symm
  rw [hcut, List.append_cancel_left hrest]

theorem ends_iff : Ends pattern text ↔ ∀ k, k < text.length → ¬ pattern <+: (text ++ pattern).drop k := by
  constructor
  · intro h
    exact (cut_spec h).2
  · intro h
    have hcut := cut_eq text [] (by simpa using h)
    rwa [List.append_nil] at hcut

/-- A text that the pattern does not begin in is read up to the pattern after it. -/
theorem Ends.cut (h : Ends pattern text) (rest : List α) :
    Occurs.cut pattern (text ++ pattern ++ rest) = some (text, rest) := by
  apply cut_eq text rest
  intro k hk hbegins
  refine ends_iff.mp h k hk ?_
  have hle : k ≤ (text ++ pattern).length := by
    rw [List.length_append]
    omega
  rw [List.drop_append_of_le_length hle] at hbegins
  refine List.prefix_of_prefix_length_le hbegins (List.prefix_append _ _) ?_
  rw [List.length_drop, List.length_append]
  omega

/-- Another text is read less far. -/
theorem cut_of_not_ends (h : ¬ Ends pattern text) (rest : List α) :
    ∃ before after, cut pattern (text ++ pattern ++ rest) = some (before, after) ∧
      before.length < text.length := by
  have hbegins : ∃ k, k < text.length ∧ pattern <+: (text ++ pattern).drop k := by
    by_contra hnone
    exact h (ends_iff.mpr fun k hk hbegins => hnone ⟨k, hk, hbegins⟩)
  obtain ⟨k, hk, hbegins⟩ := hbegins
  have hbegins' : pattern <+: (text ++ pattern ++ rest).drop k := by
    rw [List.drop_append_of_le_length (by rw [List.length_append]; omega)]
    exact hbegins.trans (List.prefix_append _ _)
  obtain ⟨⟨before, after⟩, hcut⟩ := Option.isSome_iff_exists.mp (cut_isSome hbegins')
  refine ⟨before, after, hcut, Nat.lt_of_le_of_lt (Nat.le_of_not_lt fun hlt => ?_) hk⟩
  exact (cut_spec hcut).2 k hlt hbegins'

/-- A pattern that does not overlap itself is found at the end of a text, or ends in it. -/
theorem Unbordered.cut (h : Unbordered pattern) (text rest : List α) :
    Ends pattern text ∨ ∃ before between, text = before ++ pattern ++ between ∧
      Occurs.cut pattern (text ++ pattern ++ rest) = some (before, between ++ pattern ++ rest) := by
  by_cases hends : Ends pattern text
  · exact .inl hends
  obtain ⟨before, after, hcut, hlength⟩ := cut_of_not_ends hends rest
  obtain ⟨htext, -⟩ := cut_spec hcut
  rw [List.append_assoc, List.append_assoc] at htext
  have hbefore : before <+: text := by
    refine List.prefix_of_prefix_length_le ?_ (List.prefix_append text (pattern ++ rest))
      (Nat.le_of_lt hlength)
    rw [htext]
    exact List.prefix_append _ _
  obtain ⟨tail, rfl⟩ := hbefore
  rw [List.append_assoc, List.append_cancel_left_eq] at htext
  rw [List.length_append] at hlength
  refine .inr ⟨before, ?_⟩
  by_cases hfits : pattern.length ≤ tail.length
  · have hpattern : pattern <+: tail := by
      refine List.prefix_of_prefix_length_le ?_ (List.prefix_append tail (pattern ++ rest)) hfits
      rw [htext]
      exact List.prefix_append _ _
    obtain ⟨between, rfl⟩ := hpattern
    rw [List.append_assoc, List.append_cancel_left_eq] at htext
    refine ⟨between, (List.append_assoc ..).symm, ?_⟩
    rw [hcut, ← htext, List.append_assoc]
  · -- The occurrence goes on into the one after the text.
    exfalso
    refine h tail.length (by omega) (by omega) ?_
    have hdrop : pattern.drop tail.length ++ after = pattern ++ rest := by
      have hlong := congrArg (List.drop tail.length) htext
      rw [List.drop_left, List.drop_append_of_le_length (by omega)] at hlong
      exact hlong.symm
    refine List.prefix_of_prefix_length_le ?_ (List.prefix_append pattern rest) ?_
    · rw [← hdrop]
      exact List.prefix_append _ _
    · rw [List.length_drop]
      omega

/-! ### One element -/

section
variable {c : α}

theorem cut_cons (d : α) (rest : List α) :
    cut [c] (d :: rest) =
      if d = c then some ([], rest) else (cut [c] rest).map fun found => (d :: found.1, found.2) := by
  by_cases h : d = c
  · subst h
    rw [if_pos rfl, cut_begins (List.cons_prefix_cons.mpr ⟨rfl, List.nil_prefix⟩)]
    rfl
  · have hstart : ¬ [c].isPrefixOf (d :: rest) = true := by
      intro hstarts
      obtain ⟨after, hafter⟩ := List.isPrefixOf_iff_prefix.mp hstarts
      exact h (List.cons.inj hafter).1.symm
    rw [if_neg h, cut, if_neg hstart]

/-- Its first occurrence is the one it does not stand before. -/
theorem cut_one : cut [c] text = some (before, after) ↔ text = before ++ c :: after ∧ c ∉ before := by
  induction text generalizing before with
  | nil =>
    refine ⟨fun hsome => ?_, fun ⟨htext, _⟩ => ?_⟩
    · cases hsome
    · cases before <;> cases htext
  | cons d rest ih =>
    rw [cut_cons]
    by_cases h : d = c
    · subst h
      rw [if_pos rfl]
      refine ⟨fun hsome => ?_, fun ⟨htext, hfree⟩ => ?_⟩
      · obtain ⟨rfl, rfl⟩ := Prod.mk.inj (Option.some.inj hsome)
        exact ⟨rfl, List.not_mem_nil⟩
      · cases before with
        | nil => rw [(List.cons.inj htext).2]
        | cons first before =>
          rw [(List.cons.inj htext).1] at hfree
          exact absurd List.mem_cons_self hfree
    · rw [if_neg h]
      refine ⟨fun hsome => ?_, fun ⟨htext, hfree⟩ => ?_⟩
      · obtain ⟨⟨inner, behind⟩, hcut, heq⟩ := Option.map_eq_some_iff.mp hsome
        obtain ⟨rfl, rfl⟩ := Prod.mk.inj heq
        obtain ⟨htext, hfree⟩ := ih.mp hcut
        exact ⟨by rw [htext]; rfl, List.not_mem_cons_of_ne_of_not_mem (Ne.symm h) hfree⟩
      · cases before with
        | nil => exact absurd (List.cons.inj htext).1 h
        | cons first before =>
          obtain ⟨rfl, hrest⟩ := List.cons.inj htext
          rw [ih.mpr ⟨hrest, fun hmem => hfree (List.mem_cons_of_mem _ hmem)⟩]
          rfl

theorem cut_one_none : cut [c] text = none ↔ c ∉ text := by
  refine ⟨fun hnone hmem => ?_, fun hfree => ?_⟩
  · obtain ⟨before, after, rfl, hbefore⟩ := List.eq_append_cons_of_mem hmem
    rw [cut_one.mpr ⟨rfl, hbefore⟩] at hnone
    cases hnone
  · cases h : cut [c] text with
    | none => rfl
    | some found =>
      rw [(cut_one.mp h).1] at hfree
      exact absurd (List.mem_append_right _ List.mem_cons_self) hfree

/-- What is before and after the last occurrence of an element. -/
def cutLast (c : α) (text : List α) : Option (List α × List α) :=
  (cut [c] text.reverse).map fun found => (found.2.reverse, found.1.reverse)

theorem cutLast_some : cutLast c text = some (before, after) ↔ text = before ++ c :: after ∧ c ∉ after := by
  rw [cutLast, Option.map_eq_some_iff]
  refine ⟨fun ⟨⟨behind, ahead⟩, hcut, heq⟩ => ?_, fun ⟨htext, hfree⟩ => ⟨(after.reverse, before.reverse), ?_, ?_⟩⟩
  · obtain ⟨rfl, rfl⟩ := Prod.mk.inj heq
    obtain ⟨htext, hfree⟩ := cut_one.mp hcut
    refine ⟨?_, fun hmem => hfree (List.mem_reverse.mp hmem)⟩
    rw [← List.reverse_reverse text, htext, List.reverse_append, List.reverse_cons, List.append_assoc]
    rfl
  · rw [cut_one, htext, List.reverse_append, List.reverse_cons, List.append_assoc]
    exact ⟨rfl, fun hmem => hfree (List.mem_reverse.mp hmem)⟩
  · rw [List.reverse_reverse, List.reverse_reverse]

theorem cutLast_none : cutLast c text = none ↔ c ∉ text := by
  rw [cutLast, Option.map_eq_none_iff, cut_one_none, List.mem_reverse]

end

end Occurs
