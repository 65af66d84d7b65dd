import Agiru.Filter.Phrase

/-! The normal form means what is written.

The splitter finds the separators of a phrase and the group test its parentheses, so the conjunctions
that `parseFilter` lists accept a value together where the phrase does. -/
namespace Agiru.Filter
open Bytes

variable {s t : Opened} {separator : UInt8} {right : Expression}

/-! ### Splitting -/

/-- A character moves the splitter as it moves what is open. -/
theorem splitFrom_next {c : UInt8} (h : s.next c = some t) (separator : UInt8) (part rest : Bytes) :
    splitFrom separator s.quoted s.depth part (c :: rest) =
      if t = {} ∧ c = separator then part :: splitFrom separator false 0 [] rest
      else splitFrom separator t.quoted t.depth (part ++ [c]) rest := by
  rw [splitFrom]
  unfold Opened.next at h
  by_cases htoggled : toggled s.quoted c = true
  · rw [if_pos htoggled] at h ⊢
    rw [← Option.some.inj h, if_neg]
    intro hand
    cases hand.1
  · rw [if_neg htoggled] at h ⊢
    have hstate : t = ⟨false, nested s.depth c⟩ := by
      unfold nested
      split at h
      · next hopen => rw [if_pos hopen, ← Option.some.inj h]
      · next hopen =>
        rw [if_neg hopen]
        split at h
        · next hclose =>
          rw [if_pos hclose]
          split at h
          · cases h
          · rw [← Option.some.inj h]
        · next hclose => rw [if_neg hclose, ← Option.some.inj h]
    have hiff : t = {} ↔ nested s.depth c = 0 := by
      rw [hstate]
      constructor
      · exact fun heq => congrArg Opened.depth heq
      · intro heq
        rw [heq]
    simp only [hiff]
    rw [hstate]

theorem splitFrom_after {text : Bytes} (h : s.after text = some {}) (separator : UInt8)
    (hsep : Opened.next {} separator = some {}) (part rest : Bytes) :
    splitFrom separator s.quoted s.depth part (text ++ separator :: rest) =
      splitFrom separator s.quoted s.depth part text ++ splitOutsideQuotes rest separator := by
  induction text generalizing s part with
  | nil =>
    obtain rfl : s = {} := Option.some.inj h
    rw [List.nil_append, splitFrom_next hsep, if_pos ⟨rfl, rfl⟩]
    rfl
  | cons c text ih =>
    obtain ⟨t, ht, hrest⟩ := Option.bind_eq_some_iff.mp h
    rw [List.cons_append, splitFrom_next ht, splitFrom_next ht]
    split
    · next hhere =>
      rw [hhere.1] at hrest
      rw [List.cons_append]
      exact congrArg (part :: ·) (ih hrest [])
    · exact ih hrest (part ++ [c])

/-- Before and after a separator a text is split on its own. -/
theorem split_append {text : Bytes} (h : Balanced text)
    (hsep : separator = Ch.bar ∨ separator = Ch.ampersand) (rest : Bytes) :
    splitOutsideQuotes (text ++ separator :: rest) separator =
      splitOutsideQuotes text separator ++ splitOutsideQuotes rest separator := by
  refine splitFrom_after h separator ?_ [] rest
  rcases hsep with rfl | rfl <;> rfl

theorem splitFrom_unseparated {text : Bytes} (h : s.after text = some t)
    (hnone : s.separates separator text = false) (part : Bytes) :
    splitFrom separator s.quoted s.depth part text = [part ++ text] := by
  induction text generalizing s part with
  | nil => rw [splitFrom, List.append_nil]
  | cons c text ih =>
    obtain ⟨u, hu, hrest⟩ := Option.bind_eq_some_iff.mp h
    rw [Opened.separates, hu] at hnone
    obtain ⟨hhere, hlater⟩ := Bool.or_eq_false_iff.mp hnone
    have hnot : ¬ (u = {} ∧ c = separator) := by
      intro hand
      simp [hand.1, hand.2] at hhere
    rw [splitFrom_next hu, if_neg hnot, ih hrest hlater, List.append_assoc]
    rfl

theorem split_unseparated {text : Bytes} (h : Balanced text) (hnone : Opened.separates {} separator text = false) :
    splitOutsideQuotes text separator = [text] :=
  splitFrom_unseparated h hnone []

/-! ### Groups -/

/-- Behind an open parenthesis a balanced text closes none too early. -/
theorem closesEarly_after {text : Bytes} (h : s.after text = some t) (rest : Bytes) :
    closesEarly s.quoted (s.depth + 1) (text ++ rest) = closesEarly t.quoted (t.depth + 1) rest := by
  induction text generalizing s with
  | nil =>
    obtain rfl : s = t := Option.some.inj h
    rfl
  | cons c text ih =>
    obtain ⟨u, hu, hafter⟩ := Option.bind_eq_some_iff.mp h
    rw [List.cons_append, ← ih hafter, closesEarly]
    unfold Opened.next at hu
    by_cases htoggled : toggled s.quoted c = true
    · rw [if_pos htoggled] at hu ⊢
      rw [← Option.some.inj hu]
    · rw [if_neg htoggled] at hu ⊢
      by_cases hopen : c = Ch.openParen
      · rw [if_pos hopen] at hu ⊢
        rw [← Option.some.inj hu]
        push_cast
        rfl
      · rw [if_neg hopen] at hu ⊢
        by_cases hclose : c = Ch.closeParen
        · rw [if_pos hclose] at hu ⊢
          split at hu
          · cases hu
          · next hdepth =>
            have hstill : ¬ ((s.depth : Int) + 1 - 1 = 0 ∧ text ++ rest ≠ []) := by
              intro hand
              exact hdepth (by omega)
            rw [if_neg hstill, ← Option.some.inj hu]
            congr 1
            dsimp only
            omega
        · rw [if_neg hclose] at hu ⊢
          rw [← Option.some.inj hu]

/-- A text that closes no parenthesis too early is balanced without the outer ones. -/
theorem after_of_closesEarly {text : Bytes} {rest : Bytes} (hrest : rest ≠ [])
    (hearly : closesEarly s.quoted (s.depth + 1) (text ++ rest) = false)
    (h : Opened.after ⟨s.quoted, s.depth + 1⟩ text = some t) :
    ∃ depth, t = ⟨t.quoted, depth + 1⟩ ∧ s.after text = some ⟨t.quoted, depth⟩ := by
  induction text generalizing s with
  | nil =>
    obtain rfl := Option.some.inj h
    exact ⟨s.depth, rfl, rfl⟩
  | cons c text ih =>
    obtain ⟨u, hu, hafter⟩ := Option.bind_eq_some_iff.mp h
    rw [List.cons_append, closesEarly] at hearly
    rw [Opened.after]
    unfold Opened.next at hu ⊢
    dsimp only at hu
    by_cases htoggled : toggled s.quoted c = true
    · rw [if_pos htoggled] at hu hearly ⊢
      obtain rfl := Option.some.inj hu
      exact ih (s := ⟨true, s.depth⟩) hearly hafter
    · rw [if_neg htoggled] at hu hearly ⊢
      by_cases hopen : c = Ch.openParen
      · rw [if_pos hopen] at hu hearly ⊢
        obtain rfl := Option.some.inj hu
        exact ih (s := ⟨false, s.depth + 1⟩) hearly hafter
      · rw [if_neg hopen] at hu hearly ⊢
        by_cases hclose : c = Ch.closeParen
        · rw [if_pos hclose] at hu hearly ⊢
          rw [if_neg (Nat.succ_ne_zero _)] at hu
          obtain rfl := Option.some.inj hu
          have hdepth : s.depth ≠ 0 := by
            intro hzero
            rw [if_pos] at hearly
            · cases hearly
            · refine ⟨by omega, ?_⟩
              simp [hrest]
          rw [if_neg hdepth]
          have hsucc : s.depth - 1 + 1 = s.depth := Nat.succ_pred_eq_of_ne_zero hdepth
          split at hearly
          · cases hearly
          · refine ih (s := ⟨false, s.depth - 1⟩) ?_ ?_
            · dsimp only
              rwa [show ((s.depth - 1 : Nat) : Int) + 1 = (s.depth : Int) + 1 - 1 by omega]
            · dsimp only
              rw [hsucc]
              exact hafter
        · rw [if_neg hclose] at hu hearly ⊢
          obtain rfl := Option.some.inj hu
          exact ih (s := ⟨false, s.depth⟩) hearly hafter

theorem trim_group {before inner after : Bytes} (h : trim before = [] ∧ trim after = []) :
    trim (before ++ Ch.openParen :: (inner ++ Ch.closeParen :: after)) =
      Ch.openParen :: (inner ++ [Ch.closeParen]) := by
  have hshape : before ++ Ch.openParen :: (inner ++ Ch.closeParen :: after) =
      before ++ ((Ch.openParen :: (inner ++ [Ch.closeParen])) ++ after) := by simp
  rw [hshape, trim_surrounded h.1 h.2]
  apply trim_of_ends
  · intro c hc
    rw [← Option.some.inj hc]
    rfl
  · intro c hc
    rw [← List.cons_append, List.getLast?_concat] at hc
    rw [← Option.some.inj hc]
    rfl

/-- The group test finds the parentheses of a group. -/
theorem grouped_group {before inner after : Bytes} (hbalanced : Balanced inner)
    (h : trim before = [] ∧ trim after = []) :
    grouped (before ++ Ch.openParen :: (inner ++ Ch.closeParen :: after)) = some inner := by
  have hearly : closesEarly false 0 (Ch.openParen :: (inner ++ [Ch.closeParen])) = false := by
    rw [closesEarly, if_neg (by decide), if_pos rfl]
    exact closesEarly_after hbalanced [Ch.closeParen]
  have hlast : (Ch.openParen :: (inner ++ [Ch.closeParen])).getLast? = some Ch.closeParen := by
    rw [← List.cons_append]
    exact List.getLast?_concat
  rw [grouped, trim_group h]
  simp [hearly, hlast]

theorem balanced_trim {text : Bytes} (h : Balanced text) : Balanced (trim text) := by
  obtain ⟨before, after, htext, hbefore, hafter⟩ := eq_trim text
  rw [htext, Balanced, Opened.after_append, Opened.after_spaces _ (trim_eq_nil_iff.mp hbefore), Option.bind_some,
    Opened.after_append] at h
  obtain ⟨t, ht, hspaces⟩ := Option.bind_eq_some_iff.mp h
  rw [Opened.after_spaces _ (trim_eq_nil_iff.mp hafter)] at hspaces
  rw [Balanced, ht, hspaces]

/-- The group test finds none around an atom. -/
theorem grouped_atom {text : Bytes} (h : Atomic text) : grouped text = none := by
  unfold grouped
  dsimp only
  split
  · rfl
  · next hends =>
    split
    · rfl
    · next hearly =>
      simp only [Bool.or_eq_true, decide_eq_true_eq, not_or, not_not, Nat.not_lt] at hends
      obtain ⟨⟨hlong, hfirst⟩, hlast⟩ := hends
      -- the text between the first and the last parenthesis
      obtain ⟨rest, htrim⟩ := List.head?_eq_some_iff.mp hfirst
      have hne : rest ≠ [] := by
        intro hnil
        rw [htrim, hnil] at hlong
        exact absurd hlong (by decide)
      obtain ⟨inner, hinner⟩ : ∃ inner, rest = inner ++ [Ch.closeParen] := by
        rw [htrim, List.getLast?_cons_of_ne_nil hne] at hlast
        exact List.getLast?_eq_some_iff.mp hlast
      have hshape : trim text = Ch.openParen :: (inner ++ [Ch.closeParen]) := by rw [htrim, hinner]
      refine absurd hshape (h.bare inner ?_)
      have hbalanced := balanced_trim h.balanced
      rw [hshape, Balanced, Opened.after, show Opened.next {} Ch.openParen = some ⟨false, 0 + 1⟩ from rfl,
        Option.bind_some, Opened.after_append] at hbalanced
      obtain ⟨t, ht, hclose⟩ := Option.bind_eq_some_iff.mp hbalanced
      rw [hshape, closesEarly, if_neg (by decide), if_pos rfl] at hearly
      obtain ⟨depth, hdepth, hafter⟩ := after_of_closesEarly (s := {}) (List.cons_ne_nil _ [])
        (Bool.eq_false_iff.mpr hearly) ht
      rw [Balanced, hafter]
      rw [hdepth] at hclose
      cases hquoted : t.quoted with
      | true =>
        rw [hquoted] at hclose
        cases hclose
      | false =>
        rw [hquoted] at hclose
        have hzero : depth = 0 := congrArg Opened.depth (Option.some.inj hclose)
        rw [hzero]

/-! ### What an expression accepts -/

section
variable (value : Bytes) (field : FieldDef)

/-- Whether one of the conjunctions accepts a value. -/
def oneHolds (expression : Expression) : Bool :=
  expression.any fun conjunction => conjunction.all fun atom => satisfies atom value field

variable {value field}

theorem both_ne_nil {left : Expression} (hleft : left ≠ []) (hright : right ≠ []) : both left right ≠ [] := by
  rw [both, if_neg hleft, if_neg hright]
  obtain ⟨a, left, rfl⟩ := List.exists_cons_of_ne_nil hleft
  obtain ⟨b, right, rfl⟩ := List.exists_cons_of_ne_nil hright
  exact List.cons_ne_nil _ _

theorem oneHolds_both {left : Expression} (hleft : left ≠ []) (hright : right ≠ []) :
    oneHolds value field (both left right) = (oneHolds value field left && oneHolds value field right) := by
  rw [both, if_neg hleft, if_neg hright, oneHolds, List.any_flatMap, Bool.eq_iff_iff]
  simp only [oneHolds, List.any_eq_true, List.mem_map, Bool.and_eq_true]
  constructor
  · intro h
    obtain ⟨a, ha, joined, hjoined, hall⟩ := h
    obtain ⟨b, hb, rfl⟩ := hjoined
    rw [List.all_append, Bool.and_eq_true] at hall
    exact ⟨⟨a, ha, hall.1⟩, b, hb, hall.2⟩
  · intro h
    obtain ⟨⟨a, ha, hfirst⟩, b, hb, hsecond⟩ := h
    refine ⟨a, ha, a ++ b, ⟨b, hb, rfl⟩, ?_⟩
    rw [List.all_append, hfirst, hsecond]
    rfl

theorem oneHolds_single (atom : Atom) : oneHolds value field [[atom]] = satisfies atom value field := by
  simp [oneHolds]

theorem matchesValue_eq {expression : Expression} (h : expression ≠ []) :
    matchesValue expression value field = oneHolds value field expression := by
  rw [matchesValue, decide_eq_false h, Bool.false_or]
  rfl

end

/-! ### What the parser makes of a phrase -/

/-- The parser's reading of a text at a level of the grammar. -/
def readAt : Level → Bytes → Expression
  | .part, text => parsePart parseFilter text
  | .conjunction, text => parseAlternative parseFilter text
  | .filter, text => (splitOutsideQuotes text Ch.bar).flatMap (parseAlternative parseFilter)

theorem readAt_filter (text : Bytes) :
    readAt .filter text = (splitOutsideQuotes text Ch.bar).flatMap (readAt .conjunction) := rfl

theorem readAt_conjunction (text : Bytes) : readAt .conjunction text = parseAlternative parseFilter text := rfl

/-- A reading that accepts what is expected of it. -/
structure Reads (value : Bytes) (field : FieldDef) (expression : Expression) (expected : Bool) : Prop where
  some : expression ≠ []
  holds : oneHolds value field expression = expected

theorem parseFilter_written {text : Bytes} (h : trim text ≠ []) : parseFilter text = readAt .filter text := by
  rw [parseFilter_eq, if_neg h]
  rfl

theorem both_left (h : right ≠ []) : both [[]] right = right := by
  rw [both, if_neg (List.cons_ne_nil _ _), if_neg h]
  simp

theorem parseAlternative_append {left right : Bytes} (hleft : Balanced left)
    (hright : splitOutsideQuotes right Ch.ampersand = [right]) :
    parseAlternative parseFilter (left ++ Ch.ampersand :: right) =
      both (parseAlternative parseFilter left) (parsePart parseFilter right) := by
  rw [parseAlternative, split_append hleft (.inr rfl), hright, List.foldl_append]
  rfl

variable {value : Bytes} {field : FieldDef}

/-- The conjunctions that a phrase is listed as. -/
def Phrase.normal : {level : Level} → Phrase level → Expression
  | _, atom text _ => [[readAtom text]]
  | _, blank _ _ => [[{}]]
  | _, group _ inner _ _ => inner.normal
  | _, part p => p.normal
  | _, and left right => both left.normal right.normal
  | _, conjunction c => c.normal
  | _, or left right => left.normal ++ right.normal

theorem Phrase.normal_ne_nil : {level : Level} → (phrase : Phrase level) → phrase.normal ≠ []
  | _, atom _ _ => List.cons_ne_nil _ _
  | _, blank _ _ => List.cons_ne_nil _ _
  | _, group _ inner _ _ => inner.normal_ne_nil
  | _, part p => p.normal_ne_nil
  | _, and left right => both_ne_nil left.normal_ne_nil right.normal_ne_nil
  | _, conjunction c => c.normal_ne_nil
  | _, or left _ => List.append_ne_nil_of_left_ne_nil left.normal_ne_nil _

/-- The parser lists a phrase as it stands. -/
theorem readAt_text {level : Level} (phrase : Phrase level) (h : phrase.GroupsWritten) :
    readAt level phrase.text = phrase.normal := by
  induction phrase with
  | atom text hatom =>
    show parsePart parseFilter text = [[readAtom text]]
    rw [parsePart, if_neg hatom.written, grouped_atom hatom]
  | blank text hblank =>
    show parsePart parseFilter text = [[{}]]
    rw [parsePart, if_pos hblank]
  | group before inner after hspaces ih =>
    obtain ⟨hwritten, hinner⟩ := h
    have hne : trim (Phrase.group before inner after hspaces).text ≠ [] := by
      rw [Phrase.text, trim_group hspaces]
      exact List.cons_ne_nil _ _
    have hread : readAt .part (Phrase.group before inner after hspaces).text = readAt .filter inner.text := by
      rw [readAt, parsePart, if_neg hne, Phrase.text, grouped_group inner.balanced hspaces]
      exact parseFilter_written hwritten
    exact hread.trans (ih hinner)
  | part part ih =>
    have hsplit : splitOutsideQuotes part.text Ch.ampersand = [part.text] :=
      split_unseparated part.balanced (part.separates_part (.inr rfl))
    have hpart := ih h
    have hread : readAt .conjunction part.text = readAt .part part.text := by
      rw [readAt_conjunction, parseAlternative, hsplit, List.foldl_cons, List.foldl_nil]
      apply both_left
      show readAt .part part.text ≠ []
      rw [hpart]
      exact part.normal_ne_nil
    exact hread.trans hpart
  | and left right ihLeft ihRight =>
    have hread : readAt .conjunction (Phrase.and left right).text =
        both (readAt .conjunction left.text) (readAt .part right.text) :=
      parseAlternative_append left.balanced
        (split_unseparated right.balanced (right.separates_part (.inr rfl)))
    rw [hread, ihLeft h.1, ihRight h.2]
    rfl
  | conjunction conjunction ih =>
    have hsplit : splitOutsideQuotes conjunction.text Ch.bar = [conjunction.text] :=
      split_unseparated conjunction.balanced conjunction.separates_conjunction
    have hread : readAt .filter conjunction.text = readAt .conjunction conjunction.text := by
      rw [readAt_filter, hsplit]
      exact List.flatMap_singleton _ _
    exact hread.trans (ih h)
  | or left right ihLeft ihRight =>
    have hsplit : splitOutsideQuotes right.text Ch.bar = [right.text] :=
      split_unseparated right.balanced right.separates_conjunction
    have hread : readAt .filter (Phrase.or left right).text =
        readAt .filter left.text ++ readAt .conjunction right.text := by
      rw [readAt_filter, Phrase.text, split_append left.balanced (.inl rfl), hsplit, List.flatMap_append,
        List.flatMap_singleton]
      rfl
    rw [hread, ihLeft h.1, ihRight h.2]
    rfl

/-- The normal form of a filter that is not blank. -/
theorem parseFilter_text (phrase : Phrase .filter) (h : phrase.GroupsWritten) (hwritten : trim phrase.text ≠ []) :
    parseFilter phrase.text = phrase.normal := by
  rw [parseFilter_written hwritten, readAt_text phrase h]

theorem oneHolds_normal : {level : Level} → (phrase : Phrase level) →
    oneHolds value field phrase.normal = phrase.accepts value field
  | _, .atom _ _ => oneHolds_single _
  | _, .blank _ _ => oneHolds_single _
  | _, .group _ inner _ _ => oneHolds_normal inner
  | _, .part p => oneHolds_normal p
  | _, .and left right => by
    rw [Phrase.normal, oneHolds_both left.normal_ne_nil right.normal_ne_nil, oneHolds_normal left,
      oneHolds_normal right]
    rfl
  | _, .conjunction c => oneHolds_normal c
  | _, .or left right => by
    have happend : oneHolds value field (left.normal ++ right.normal) =
        (oneHolds value field left.normal || oneHolds value field right.normal) := List.any_append
    rw [Phrase.normal, happend, oneHolds_normal left, oneHolds_normal right]
    rfl

theorem reads_phrase {level : Level} (phrase : Phrase level) (h : phrase.GroupsWritten) :
    Reads value field (readAt level phrase.text) (phrase.accepts value field) := by
  rw [readAt_text phrase h]
  exact ⟨phrase.normal_ne_nil, oneHolds_normal phrase⟩

/-- What a filter means: nothing is asked where nothing is written, and otherwise what its phrase says. -/
def Phrase.means (phrase : Phrase .filter) (value : Bytes) (field : FieldDef) : Bool :=
  trim phrase.text = [] || phrase.accepts value field

/-- **The normal form keeps the meaning.** A value matches what the parser makes of a filter where the
filter, read as it stands, accepts it. -/
theorem normal_form_means (phrase : Phrase .filter) (h : phrase.GroupsWritten) (value : Bytes)
    (field : FieldDef) :
    matchesValue (parseFilter phrase.text) value field = phrase.means value field := by
  by_cases hwritten : trim phrase.text = []
  · rw [parseFilter_eq, if_pos hwritten, Phrase.means, decide_eq_true hwritten]
    rfl
  · have hreads := @reads_phrase value field _ phrase h
    rw [parseFilter_written hwritten, matchesValue_eq hreads.some, hreads.holds, Phrase.means, decide_eq_false hwritten]
    rfl

/-- `(1|2)&<>2`. -/
def oneOrTwo : Phrase .filter :=
  let word (text : Bytes) (h : Atomic text) : Phrase .conjunction := .part (.atom text h)
  let one := word (ascii "1") (.of_head (by decide) rfl rfl (by decide) (by decide))
  let two := word (ascii "2") (.of_head (by decide) rfl rfl (by decide) (by decide))
  .conjunction (.and (.part (.group [] (.or (.conjunction one) two) [] ⟨rfl, rfl⟩))
    (.atom (ascii "<>2") (.of_head (by decide) rfl rfl (by decide) (by decide))))

theorem normal_form_means_oneOrTwo :
    let field : FieldDef := {no := 1, name := ascii "No", caption := [], type := .integer}
    oneOrTwo.text = ascii "(1|2)&<>2" ∧
      matchesValue (parseFilter oneOrTwo.text) (ascii "1") field = oneOrTwo.means (ascii "1") field :=
  ⟨rfl, normal_form_means oneOrTwo ⟨⟨by decide, trivial, trivial⟩, trivial⟩ _ _⟩

end Agiru.Filter
