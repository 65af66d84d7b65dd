import Agiru.Library.Bytes
import Agiru.Library.Occurs

/-! `Split` and `Replace`, which look for separators from one end of a text to the other.

A text is divided at every place where a separator begins that is not in one found before, by the first of the list
that begins there (`Divided`); `Replace` divides it in the same way. -/
namespace Agiru.Text
open Bytes

variable {separator : Bytes}

/-! ### The two loops -/

/-- `find`. -/
def find (text pattern : Bytes) : Option Nat := (Occurs.cut pattern text).map fun found => found.1.length

/-- The turns of `ReplaceText`, over what is left of the text. -/
def replaceTurns (from_ to_ : Bytes) : Nat → Bytes → Option Bytes
  | 0, _ => none
  | turns + 1, text =>
    match find text from_ with
    | none => some text
    | some hit =>
      (replaceTurns from_ to_ turns (text.drop (hit + from_.length))).map (text.take hit ++ to_ ++ ·)

/-- `ReplaceText`. -/
def replaceText (text from_ to_ : Bytes) : Option Bytes :=
  if from_ = [] then some text else replaceTurns from_ to_ (text.length + 1) text

/-- Where a separator is found, and how wide it is; one that is found no earlier than another is left aside. -/
def earlier (text : Bytes) (best : Option (Nat × Nat)) (separator : Bytes) : Option (Nat × Nat) :=
  if separator = [] then best
  else
    match find text separator, best with
    | none, _ => best
    | some found, none => some (found, separator.length)
    | some found, some (hit, width) => if found < hit then some (found, separator.length) else some (hit, width)

/-- The next place where the text is split. -/
def nextHit (separators : List Bytes) (text : Bytes) : Option (Nat × Nat) :=
  if separators = [] then (text.findIdx? isSpace).map fun hit => (hit, 1)
  else separators.foldl (earlier text) none

/-- The turns of `SplitText`, over what is left of the text. -/
def splitTurns (separators : List Bytes) : Nat → Bytes → Option (List Bytes)
  | 0, _ => none
  | turns + 1, text =>
    match nextHit separators text with
    | none => some [text]
    | some (hit, width) => (splitTurns separators turns (text.drop (hit + width))).map (text.take hit :: ·)

/-- `SplitText`. -/
def splitText (text : Bytes) (separators : List Bytes) : Option (List Bytes) :=
  splitTurns separators (text.length + 1) text

/-! ### Divisions -/

/-- The separators of a list, which is white space if it is empty. -/
def separating (separators : List Bytes) : List Bytes :=
  if separators = [] then [[9], [10], [11], [12], [13], [32]] else separators

/-- A separator of the list begins the text. -/
def Begins (separators : List Bytes) (text : Bytes) : Prop := ∃ separator ∈ separators, separator ≠ [] ∧
    separator <+: text

/-- It is the first one that does. -/
def First (separators : List Bytes) (separator text : Bytes) : Prop :=
  ∃ before after, separators = before ++ separator :: after ∧ separator ≠ [] ∧ separator <+: text ∧
    ∀ other ∈ before, other ≠ [] → ¬ other <+: text

/-- The pieces of a text, and the separators between them. -/
inductive Divided (separators : List Bytes) : Bytes → List Bytes → List Bytes → Prop
  | whole {text : Bytes} (hfree : ∀ k < text.length, ¬ Begins separators (text.drop k)) :
    Divided separators text [text] []
  | cut {piece separator rest : Bytes} {pieces matched : List Bytes}
    (hfree : ∀ k < piece.length, ¬ Begins separators ((piece ++ (separator ++ rest)).drop k))
    (hfirst : First separators separator (separator ++ rest)) (h : Divided separators rest pieces matched) :
    Divided separators (piece ++ (separator ++ rest)) (piece :: pieces) (separator :: matched)

/-- The pieces, with a separator behind each but the last. -/
def interleaved : List Bytes → List Bytes → Bytes
  | piece :: pieces, separator :: matched => piece ++ (separator ++ interleaved pieces matched)
  | pieces, _ => pieces.flatten

section
variable {separators pieces matched : List Bytes} {text : Bytes}

theorem Divided.text_eq (h : Divided separators text pieces matched) : interleaved pieces matched = text := by
  induction h with
  | whole _ => simp [interleaved]
  | cut _ _ _ ih => rw [interleaved, ih]

theorem Divided.length (h : Divided separators text pieces matched) : pieces.length = matched.length + 1 := by
  induction h with
  | whole _ => rfl
  | cut _ _ _ ih => rw [List.length_cons, List.length_cons, ih]

theorem Divided.of_mem (h : Divided separators text pieces matched) :
    ∀ separator ∈ matched, separator ∈ separators ∧ separator ≠ [] := by
  induction h with
  | whole _ => exact fun _ hnone => nomatch hnone
  | cut _ hfirst _ ih =>
    obtain ⟨before, after, rfl, hne, -, -⟩ := hfirst
    exact List.forall_mem_cons.mpr ⟨⟨List.mem_append_right _ List.mem_cons_self, hne⟩, ih⟩

/-- No separator stands in a piece. -/
theorem Divided.free (h : Divided separators text pieces matched) :
    ∀ piece ∈ pieces, ∀ separator ∈ separators, separator ≠ [] → ¬ separator <:+: piece := by
  have hbegins : ∀ {piece separator : Bytes} (after : Bytes), separator ≠ [] → separator <:+: piece →
      ∃ k < piece.length, separator <+: (piece ++ after).drop k := by
    intro piece separator after hne hinfix
    obtain ⟨before, behind, rfl⟩ := hinfix
    have hpos := List.length_pos_iff.mpr hne
    refine ⟨before.length, by simp only [List.length_append]; omega, ?_⟩
    rw [List.append_assoc, List.append_assoc, List.drop_left]
    exact List.prefix_append _ _
  induction h with
  | @whole text hfree =>
    intro piece hpiece separator hseparator hne hinfix
    obtain rfl := List.mem_singleton.mp hpiece
    obtain ⟨k, hk, hstarts⟩ := hbegins [] hne hinfix
    rw [List.append_nil] at hstarts
    exact hfree k hk ⟨separator, hseparator, hne, hstarts⟩
  | cut hfree _ _ ih =>
    refine List.forall_mem_cons.mpr ⟨fun separator hseparator hne hinfix => ?_, ih⟩
    obtain ⟨k, hk, hstarts⟩ := hbegins _ hne hinfix
    exact hfree k hk ⟨separator, hseparator, hne, hstarts⟩

end

/-! ### What the loops find -/

theorem find_none {text pattern : Bytes} (h : find text pattern = none) (k : Nat) : ¬ pattern <+: text.drop k := by
  intro hbegins
  rw [find, Option.map_eq_none_iff] at h
  have hsome := Occurs.cut_isSome hbegins
  rw [h] at hsome
  cases hsome

theorem find_some {text pattern : Bytes} {hit : Nat} (h : find text pattern = some hit) :
    pattern <+: text.drop hit ∧ ∀ k < hit, ¬ pattern <+: text.drop k := by
  obtain ⟨⟨before, after⟩, hcut, rfl⟩ := Option.map_eq_some_iff.mp h
  obtain ⟨htext, hfirst⟩ := Occurs.cut_spec hcut
  refine ⟨?_, hfirst⟩
  rw [htext, List.append_assoc, List.drop_left]
  exact List.prefix_append _ _

/-- What a search for the separators of a list so far has come to. -/
def Best (text : Bytes) (separators : List Bytes) : Option (Nat × Nat) → Prop
  | none => ∀ k, ¬ Begins separators (text.drop k)
  | some (hit, width) => (∀ k < hit, ¬ Begins separators (text.drop k)) ∧
      ∃ separator, First separators separator (text.drop hit) ∧ separator.length = width

theorem begins_append {separators : List Bytes} {text : Bytes} :
    Begins (separators ++ [separator]) text ↔ Begins separators text ∨ separator ≠ [] ∧ separator <+: text := by
  simp only [Begins, List.mem_append, List.mem_singleton, or_and_right, exists_or, exists_eq_left]

theorem First.append {separators : List Bytes} {text : Bytes} (h : First separators separator text)
    (more : List Bytes) : First (separators ++ more) separator text := by
  obtain ⟨before, after, rfl, hspec⟩ := h
  exact ⟨before, after ++ more, by rw [List.append_assoc]; rfl, hspec⟩

theorem First.begins {separators : List Bytes} {text : Bytes} (h : First separators separator text) :
    Begins separators text := by
  obtain ⟨before, after, rfl, hne, hstarts, -⟩ := h
  exact ⟨separator, List.mem_append_right _ List.mem_cons_self, hne, hstarts⟩

theorem first_last {separators : List Bytes} {text : Bytes} (hnone : ¬ Begins separators text)
    (hne : separator ≠ []) (hstarts : separator <+: text) : First (separators ++ [separator]) separator text :=
  ⟨separators, [], rfl, hne, hstarts, fun other hother hne hbegins => hnone ⟨other, hother, hne, hbegins⟩⟩

/-- One separator more. -/
theorem Best.earlier {text : Bytes} {separators : List Bytes} {best : Option (Nat × Nat)}
    (h : Best text separators best) (separator : Bytes) :
    Best text (separators ++ [separator]) (earlier text best separator) := by
  unfold Text.earlier
  by_cases hne : separator = []
  · rw [if_pos hne]
    subst hne
    have hsame : ∀ text : Bytes, Begins (separators ++ [[]]) text ↔ Begins separators text := fun text => by
      rw [begins_append]
      exact or_iff_left fun hnil => hnil.1 rfl
    cases best with
    | none => exact fun k => mt (hsame _).mp (h k)
    | some best =>
      obtain ⟨hbefore, found, hfirst, hwidth⟩ := h
      exact ⟨fun k hk => mt (hsame _).mp (hbefore k hk), found, hfirst.append _, hwidth⟩
  · rw [if_neg hne]
    cases hfind : find text separator with
    | none =>
      have hsame : ∀ k, Begins (separators ++ [separator]) (text.drop k) ↔ Begins separators (text.drop k) :=
          fun k => by
        rw [begins_append]
        exact or_iff_left fun hbegins => find_none hfind k hbegins.2
      cases best with
      | none => exact fun k => mt (hsame k).mp (h k)
      | some best =>
        obtain ⟨hbefore, found, hfirst, hwidth⟩ := h
        exact ⟨fun k hk => mt (hsame k).mp (hbefore k hk), found, hfirst.append _, hwidth⟩
    | some found =>
      obtain ⟨hstarts, hearliest⟩ := find_some hfind
      have hnone : ∀ k < found, ¬ Begins separators (text.drop k) →
          ¬ Begins (separators ++ [separator]) (text.drop k) := fun k hk hother hbegins => by
        rcases begins_append.mp hbegins with hbegins | hbegins
        · exact hother hbegins
        · exact hearliest k hk hbegins.2
      cases best with
      | none => exact ⟨fun k hk => hnone k hk (h k), separator, first_last (h found) hne hstarts, rfl⟩
      | some best =>
        obtain ⟨hit, width⟩ := best
        obtain ⟨hbefore, other, hfirst, hwidth⟩ := h
        dsimp only
        split
        · next hlt =>
          exact ⟨fun k hk => hnone k hk (hbefore k (Nat.lt_trans hk hlt)), separator,
            first_last (hbefore found hlt) hne hstarts, rfl⟩
        · next hle =>
          exact ⟨fun k hk => hnone k (Nat.lt_of_lt_of_le hk (Nat.le_of_not_lt hle)) (hbefore k hk), other,
            hfirst.append _, hwidth⟩

theorem best_foldl (text : Bytes) (separators : List Bytes) :
    Best text separators (separators.foldl (earlier text) none) := by
  induction separators using List.reverseRecOn with
  | nil => exact fun _ hbegins => nomatch hbegins.choose_spec.1
  | append_singleton separators separator ih =>
    rw [List.foldl_append]
    exact ih.earlier separator

/-- White space is the first of what it is that begins there. -/
theorem first_space {c : UInt8} (h : isSpace c = true) (rest : Bytes) : First (separating []) [c] (c :: rest) := by
  have hmem : [c] ∈ separating [] := by
    have hall : ∀ n < 256, isSpace (UInt8.ofNat n) = true → [UInt8.ofNat n] ∈ separating [] := by decide +kernel
    have hc := hall c.toNat (UInt8.toNat_lt c)
    rw [UInt8.ofNat_toNat] at hc
    exact hc h
  obtain ⟨before, after, hsplit⟩ := List.append_of_mem hmem
  have hnodup : (separating []).Nodup := by decide
  rw [hsplit] at hnodup
  refine ⟨before, after, hsplit, List.cons_ne_nil _ _, ⟨rest, rfl⟩, fun other hother hne hstarts => ?_⟩
  have hone : ∀ separator ∈ separating [], separator.length = 1 := by decide
  have hlength := hone other (hsplit ▸ List.mem_append_left _ hother)
  obtain ⟨d, rfl⟩ := List.length_eq_one_iff.mp hlength
  obtain ⟨tail, htail⟩ := hstarts
  obtain ⟨rfl, -⟩ := List.cons.inj htail
  exact (List.nodup_append'.mp hnodup).2.2 hother List.mem_cons_self

theorem begins_space {c : UInt8} {rest : Bytes} (h : Begins (separating []) (c :: rest)) : isSpace c = true := by
  obtain ⟨separator, hmem, hne, tail, htail⟩ := h
  have hall : ∀ separator ∈ separating [], ∃ d, separator = [d] ∧ isSpace d = true := by
    simp [separating, isSpace]
  obtain ⟨d, rfl, hd⟩ := hall separator hmem
  obtain ⟨rfl, -⟩ := List.cons.inj htail
  exact hd

theorem nextHit_best (separators : List Bytes) (text : Bytes) :
    Best text (separating separators) (nextHit separators text) := by
  unfold nextHit
  split
  · next hnil =>
    subst hnil
    have hdrop : ∀ {k}, k < text.length → ∃ c rest, text.drop k = c :: rest ∧ text[k]? = some c := fun {k} hk =>
      ⟨text[k], text.drop (k + 1), (List.getElem_cons_drop hk).symm, List.getElem?_eq_getElem hk⟩
    cases hfind : text.findIdx? isSpace with
    | none =>
      intro k hbegins
      rw [List.findIdx?_eq_none_iff] at hfind
      by_cases hk : k < text.length
      · obtain ⟨c, rest, htext, hc⟩ := hdrop hk
        rw [htext] at hbegins
        exact Bool.false_ne_true ((hfind c (List.mem_of_getElem? hc)).symm.trans (begins_space hbegins))
      · rw [List.drop_eq_nil_of_le (Nat.le_of_not_lt hk)] at hbegins
        obtain ⟨separator, -, hne, hstarts⟩ := hbegins
        exact hne (List.prefix_nil.mp hstarts)
    | some hit =>
      obtain ⟨hlt, hspace, hearliest⟩ := List.findIdx?_eq_some_iff_getElem.mp hfind
      refine ⟨fun k hk hbegins => ?_, [text[hit]], ?_, rfl⟩
      · obtain ⟨c, rest, htext, hc⟩ := hdrop (Nat.lt_trans hk hlt)
        rw [htext] at hbegins
        have hnot := hearliest k hk
        rw [List.getElem?_eq_getElem (Nat.lt_trans hk hlt)] at hc
        rw [Option.some.inj hc] at hnot
        exact hnot (begins_space hbegins)
      · rw [← List.getElem_cons_drop hlt]
        exact first_space hspace _
  · next hne =>
    rw [separating, if_neg hne]
    exact best_foldl text separators

/-! ### The loops -/

/-- A separator that is found splits the text. -/
theorem First.split {separators : List Bytes} {text : Bytes} {hit : Nat}
    (h : First separators separator (text.drop hit)) :
    text = text.take hit ++ (separator ++ text.drop (hit + separator.length)) ∧ (text.take hit).length = hit ∧
      (text.drop (hit + separator.length)).length < text.length := by
  obtain ⟨before, after, -, hne, ⟨tail, htail⟩, -⟩ := h
  have hlength := congrArg List.length htail
  have hpos := List.length_pos_iff.mpr hne
  rw [List.length_append, List.length_drop] at hlength
  have hrest : text.drop (hit + separator.length) = tail := by
    rw [← List.drop_drop, ← htail, List.drop_left]
  refine ⟨?_, ?_, ?_⟩
  · rw [hrest, htail, List.take_append_drop]
  · rw [List.length_take]
    omega
  · rw [List.length_drop]
    omega

/-- The loop of `SplitText` ends, with as many turns as there are bytes and one more. -/
theorem splitTurns_divided (separators : List Bytes) (text : Bytes) : ∃ pieces matched,
    Divided (separating separators) text pieces matched ∧
      ∀ turns, text.length < turns → splitTurns separators turns text = some pieces := by
  induction hlength : text.length using Nat.strong_induction_on generalizing text with
  | h n ih =>
    subst hlength
    have hbest := nextHit_best separators text
    cases hhit : nextHit separators text with
    | none =>
      rw [hhit] at hbest
      refine ⟨[text], [], .whole fun k _ => hbest k, fun turns hturns => ?_⟩
      obtain ⟨turns, rfl⟩ := Nat.exists_eq_succ_of_ne_zero (Nat.ne_zero_of_lt hturns)
      rw [splitTurns, hhit]
    | some found =>
      obtain ⟨hit, width⟩ := found
      rw [hhit] at hbest
      obtain ⟨hfree, separator, hfirst, rfl⟩ := hbest
      obtain ⟨htext, htake, hshorter⟩ := hfirst.split
      obtain ⟨pieces, matched, hdivided, hturns⟩ := ih _ hshorter _ rfl
      refine ⟨text.take hit :: pieces, separator :: matched, ?_, fun turns hlt => ?_⟩
      · have hcut : Divided (separating separators) _ _ _ := .cut (by rwa [← htext, htake]) (by
          have hdrop : text.drop hit = separator ++ text.drop (hit + separator.length) := by
            have hself := congrArg (List.drop (text.take hit).length) htext
            rwa [List.drop_left, htake] at hself
          rwa [← hdrop]) hdivided
        rwa [← htext] at hcut
      · obtain ⟨turns, rfl⟩ := Nat.exists_eq_succ_of_ne_zero (Nat.ne_zero_of_lt hlt)
        rw [splitTurns, hhit]
        dsimp only
        rw [hturns turns (Nat.lt_of_lt_of_le hshorter (Nat.le_of_lt_succ hlt))]
        rfl

/-- `ReplaceText` divides a text in the same way. -/
theorem replaceTurns_divided {text : Bytes} (hne : separator ≠ []) {pieces matched : List Bytes}
    (h : Divided [separator] text pieces matched) (replacement : Bytes) :
    ∀ turns, text.length < turns →
      replaceTurns separator replacement turns text = some (replacement.intercalate pieces) := by
  have hbegins : ∀ {text : Bytes}, separator <+: text → Begins [separator] text :=
    fun hstarts => ⟨separator, List.mem_singleton_self _, hne, hstarts⟩
  induction h with
  | @whole text hfree =>
    intro turns hturns
    have hnone : find text separator = none := by
      by_contra hsome
      obtain ⟨hit, hhit⟩ := Option.ne_none_iff_exists'.mp hsome
      have hstarts := (find_some hhit).1
      by_cases hlt : hit < text.length
      · exact hfree hit hlt (hbegins hstarts)
      · rw [List.drop_eq_nil_of_le (Nat.le_of_not_lt hlt)] at hstarts
        exact hne (List.prefix_nil.mp hstarts)
    obtain ⟨turns, rfl⟩ := Nat.exists_eq_succ_of_ne_zero (Nat.ne_zero_of_lt hturns)
    rw [replaceTurns, hnone, List.intercalate_singleton]
  | @cut piece found rest pieces matched hfree hfirst hdivided ih =>
    intro turns hturns
    obtain rfl : found = separator := by
      obtain ⟨before, after, hsplit, -⟩ := hfirst
      exact List.mem_singleton.mp (hsplit ▸ List.mem_append_right _ List.mem_cons_self)
    have hhit : find (piece ++ (found ++ rest)) found = some piece.length := by
      rw [find, ← List.append_assoc, Occurs.cut_eq piece rest fun k hk hstarts => ?_]
      · rfl
      · rw [List.append_assoc] at hstarts
        exact hfree k hk (hbegins hstarts)
    have hpos := List.length_pos_iff.mpr hne
    have hpieces : pieces ≠ [] := fun hnil => by
      have hlength := hdivided.length
      rw [hnil] at hlength
      cases hlength
    obtain ⟨turns, rfl⟩ := Nat.exists_eq_succ_of_ne_zero (Nat.ne_zero_of_lt hturns)
    simp only [List.length_append] at hturns
    have hrest : (piece ++ (found ++ rest)).drop (piece.length + found.length) = rest := by
      rw [← List.drop_drop, List.drop_left, List.drop_left]
    rw [replaceTurns, hhit]
    dsimp only
    rw [hrest, ih turns (by omega), List.take_left]
    obtain ⟨next, others, rfl⟩ := List.exists_cons_of_ne_nil hpieces
    rw [List.intercalate_cons_cons, Option.map_some, List.append_assoc]

/-- **`Split` ends**, with the pieces that the separators leave of the text, which `Replace` joins. -/
theorem split_text (text : Bytes) (separators : List Bytes) : ∃ pieces matched,
    (∀ turns, text.length < turns → splitTurns separators turns text = some pieces) ∧
    splitText text separators = some pieces ∧
    Divided (separating separators) text pieces matched ∧
    interleaved pieces matched = text ∧
    pieces.length = matched.length + 1 ∧
    (∀ piece ∈ pieces, ∀ separator ∈ separating separators, separator ≠ [] → ¬ separator <:+: piece) ∧
    (∀ separator ∈ matched, separator ∈ separating separators ∧ separator ≠ []) ∧
    (separators ≠ [] → (∀ separator ∈ separators, separator = []) → pieces = [text]) ∧
    ∀ separator replacement, separator ≠ [] → separators = [separator] →
      replaceText text separator replacement = some (replacement.intercalate pieces) := by
  obtain ⟨pieces, matched, hdivided, hturns⟩ := splitTurns_divided separators text
  refine ⟨pieces, matched, hturns, hturns _ (Nat.lt_succ_self _), hdivided, hdivided.text_eq, hdivided.length,
    hdivided.free, hdivided.of_mem, fun hne hblank => ?_, fun separator replacement hne hone => ?_⟩
  · cases hdivided with
    | whole _ => rfl
    | cut _ hfirst _ =>
      obtain ⟨other, hother, hnonempty, -⟩ := hfirst.begins
      rw [separating, if_neg hne] at hother
      exact absurd (hblank other hother) hnonempty
  · subst hone
    rw [replaceText, if_neg hne]
    rw [separating, if_neg (List.cons_ne_nil _ _)] at hdivided
    exact replaceTurns_divided hne hdivided replacement _ (Nat.lt_succ_self _)

example : splitText (ascii "a, b,,c") [ascii ", ", ascii ",", []] =
    some [ascii "a", ascii "b", [], ascii "c"] := by decide

end Agiru.Text
