import Agiru.Filter.Match

/-! A value as a filter expression that means exactly itself.

`literally` writes it, `parseFilter` reads it, and the two disagree on which
characters a quoted text protects. `Plain` is where they agree: outside it some other
text is accepted, or the value itself is not. -/
namespace Agiru.Filter
open Bytes
open Ch

variable {separator : UInt8}

/-- A character the filter language reads as an operator. -/
def special (c : UInt8) : Bool :=
  c ∈ [dot, bar, ampersand, less, greater, equals, star, question,
    commercialAt, quote, openParen, closeParen]

/-- A text with each of its quotes doubled. -/
def doubled (value : Bytes) : Bytes := value.flatMap fun c => if c = quote then [c, c] else [c]

def quoted (value : Bytes) : Bytes := quote :: (doubled value ++ [quote])

/-- `Literally`. -/
def literally (value : Bytes) : Bytes :=
  if value = [] then quoted []
  else if !value.any special then value
  else quoted value

/-- The texts `literally` spells as themselves. -/
structure Plain (value : Bytes) : Prop where
  noRange : ¬ [dot, dot] <:+: value
  noQuote : quote ∉ value
  noModifier : value.head? ≠ some commercialAt
  kept : trim value = value ∨ value.any special = true

/-! ### A text of one part -/

theorem splitFrom_plain {depth : Nat} {part text : Bytes} (h : ∀ c ∈ text, c ≠ quote ∧ c ≠ separator) :
    splitFrom separator false depth part text = [part ++ text] := by
  induction text generalizing depth part with
  | nil => simp [splitFrom]
  | cons c rest ih =>
    obtain ⟨hquote, hsep⟩ := h c List.mem_cons_self
    have hrest : ∀ c ∈ rest, c ≠ quote ∧ c ≠ separator := fun d hd =>
      h d (List.mem_cons_of_mem _ hd)
    simp [splitFrom, toggled, hquote, hsep, ih hrest]

/-- Between quotes nothing separates: a doubled quote closes them and opens them
again. -/
theorem splitFrom_doubled (hsep : separator ≠ quote) {depth : Nat} {part rest : Bytes} (value : Bytes) :
    splitFrom separator true depth part (doubled value ++ rest) =
      splitFrom separator true depth (part ++ doubled value) rest := by
  induction value generalizing part with
  | nil => simp [doubled]
  | cons c value ih =>
    by_cases hc : c = quote
    · subst hc
      have hdoubled : doubled (quote :: value) = quote :: quote :: doubled value := by
        simp [doubled]
      have hnested : nested depth quote = depth := rfl
      rw [hdoubled]
      simp [splitFrom, toggled, hnested, hsep.symm, ih]
    · have hdoubled : doubled (c :: value) = c :: doubled value := by simp [doubled, hc]
      rw [hdoubled]
      simp [splitFrom, toggled, hc, ih]

theorem split_quoted (hsep : separator ≠ quote) (value : Bytes) :
    splitOutsideQuotes (quoted value) separator = [quoted value] := by
  have hnested : nested 0 quote = 0 := rfl
  rw [splitOutsideQuotes, quoted, splitFrom, if_pos (by decide), splitFrom_doubled hsep, splitFrom,
    if_neg (by decide), hnested, if_neg (fun h => hsep h.2.symm)]
  simp [splitFrom]

/-- A text that nothing separates or groups is one atom. -/
theorem parseFilter_atom {text : Bytes} (hbar : splitOutsideQuotes text bar = [text])
    (hand : splitOutsideQuotes text ampersand = [text]) (htrim : trim text ≠ [])
    (hgroup : grouped text = none) : parseFilter text = [[readAtom text]] := by
  rw [parseFilter_eq, if_neg htrim, hbar]
  simp [parseAlternative, hand, parsePart, htrim, hgroup, both]

/-! ### The two dots -/

theorem splitDots_cons {c : UInt8} {text : Bytes} :
    splitDots (c :: text) = none ↔
      ¬ (c = dot ∧ text.head? = some dot) ∧ splitDots text = none := by
  cases text with
  | nil => simp [splitDots]
  | cons d rest =>
    rw [splitDots]
    by_cases h : c = dot ∧ d = dot
    · simp [h.1, h.2]
    · have hne : ¬ (c = dot ∧ (d :: rest).head? = some dot) := by simpa using h
      simp only [hne, not_false_eq_true, true_and]
      rw [if_neg (by simpa using h), Option.map_eq_none_iff]

theorem splitDots_eq_none {text : Bytes} :
    splitDots text = none ↔ ¬ [dot, dot] <:+: text := by
  induction text with
  | nil => simp [splitDots]
  | cons c rest ih =>
    rw [splitDots_cons, ih, List.infix_cons_iff, not_or, List.cons_prefix_cons]
    have hhead : rest.head? = some dot ↔ [dot] <+: rest := by
      cases rest with
      | nil => simp
      | cons d rest => simp [List.cons_prefix_cons, eq_comm]
    rw [hhead, @eq_comm _ c]

theorem splitDots_some {text before after : Bytes} (h : splitDots text = some (before, after)) :
    text = before ++ dot :: dot :: after ∧ splitDots before = none := by
  induction text generalizing before with
  | nil => simp [splitDots] at h
  | cons c text ih =>
    cases text with
    | nil => simp [splitDots] at h
    | cons d rest =>
      rw [splitDots] at h
      split at h
      · next hdots =>
        cases h
        have : c = dot ∧ d = dot := by simpa using hdots
        simp [this.1, this.2, splitDots]
      · next hdots =>
        obtain ⟨⟨inner, tail⟩, hinner, heq⟩ := Option.map_eq_some_iff.mp h
        cases heq
        obtain ⟨htext, hnone⟩ := ih hinner
        refine ⟨by rw [htext]; rfl, splitDots_cons.mpr ⟨?_, hnone⟩⟩
        rintro ⟨rfl, hhead⟩
        have hd : d = dot := by
          cases inner with
          | nil => simp at hhead
          | cons e inner =>
            have : d = e := (List.cons.inj htext).1
            simpa [this] using hhead
        exact hdots (by simp [hd])

theorem doubled_cons_of_ne {c : UInt8} (hc : c ≠ quote) (value : Bytes) :
    doubled (c :: value) = c :: doubled value := by
  simp [doubled, hc]

theorem doubled_cons_quote (value : Bytes) :
    doubled (quote :: value) = quote :: quote :: doubled value := by
  simp [doubled]

theorem doubled_of_not_mem {value : Bytes} (h : quote ∉ value) : doubled value = value := by
  induction value with
  | nil => rfl
  | cons c value ih =>
    have hc : c ≠ quote := fun he => h (he ▸ List.mem_cons_self)
    rw [doubled_cons_of_ne hc, ih fun hmem => h (List.mem_cons_of_mem _ hmem)]

theorem length_doubled (value : Bytes) :
    (doubled value).length = value.length + value.count quote := by
  induction value with
  | nil => rfl
  | cons c value ih =>
    by_cases hc : c = quote
    · subst hc
      rw [doubled_cons_quote]
      simp [ih]
      omega
    · rw [doubled_cons_of_ne hc]
      simp [ih, hc]
      omega

theorem count_doubled {c : UInt8} (hc : c ≠ quote) (value : Bytes) :
    (doubled value).count c = value.count c := by
  induction value with
  | nil => rfl
  | cons d value ih =>
    by_cases hd : d = quote
    · subst hd
      rw [doubled_cons_quote]
      simp [ih, hc.symm]
    · rw [doubled_cons_of_ne hd]
      simp [List.count_cons, ih]

/-- Quoting adds no two dots and parts none. -/
theorem splitDots_quoted {value : Bytes} :
    splitDots (quoted value) = none ↔ splitDots value = none := by
  have hquote : ∀ text, splitDots (quote :: text) = none ↔ splitDots text = none := by
    intro text
    rw [splitDots_cons]
    have : quote ≠ dot := by decide
    simp [this]
  rw [quoted, hquote]
  induction value with
  | nil => simp [doubled, splitDots]
  | cons c value ih =>
    by_cases hc : c = quote
    · subst hc
      rw [doubled_cons_quote, List.cons_append, List.cons_append, hquote, hquote, hquote]
      exact ih
    · rw [doubled_cons_of_ne hc, List.cons_append, splitDots_cons, splitDots_cons]
      have hhead : (doubled value ++ [quote]).head? = some dot ↔
          value.head? = some dot := by
        cases value with
        | nil => decide
        | cons d rest =>
          by_cases hd : d = quote
          · subst hd
            rw [doubled_cons_quote]
            rfl
          · rw [doubled_cons_of_ne hd]
            rfl
      rw [hhead]
      exact and_congr_right fun _ => ih

/-! ### What the atom of a literal says -/

theorem sameText_refl (a : Bytes) : sameText a a = true := decide_eq_true rfl

theorem sameText_dots {a b : Bytes} (h : sameText a b = true) :
    splitDots a = none ↔ splitDots b = none := by
  replace h : a.map lower = b.map lower := of_decide_eq_true h
  have hdot : ∀ c, lower c = dot ↔ c = dot := fun c => lower_eq_iff (by decide) (by decide)
  induction a generalizing b with
  | nil =>
    obtain rfl : b = [] := by simpa using h.symm
    rfl
  | cons c a ih =>
    cases b with
    | nil => cases h
    | cons d b =>
      obtain ⟨hcd, hab⟩ := List.cons.inj h
      have hc : c = dot ↔ d = dot := by rw [← hdot c, ← hdot d, hcd]
      have hhead : a.head? = some dot ↔ b.head? = some dot := by
        cases a with
        | nil =>
          obtain rfl : b = [] := by simpa using hab.symm
          rfl
        | cons e a =>
          cases b with
          | nil => cases hab
          | cons f b =>
            have hef : lower e = lower f := (List.cons.inj hab).1
            simp only [List.head?_cons, Option.some.injEq]
            rw [← hdot e, ← hdot f, hef]
      rw [splitDots_cons, splitDots_cons, hc, hhead]
      exact and_congr_right fun _ => ih hab

/-- A text that starts with no operator is compared for equality. -/
theorem takeOperator_none {text : Bytes}
    (h : ∀ c ∈ [less, greater, equals], (trim text).head? ≠ some c) :
    takeOperator text = (.equal, trim text) := by
  unfold takeOperator
  split
  · next c d rest htrim =>
    simp only [htrim, List.head?_cons, ne_eq, Option.some.injEq, List.mem_cons, List.not_mem_nil,
      or_false, forall_eq_or_imp, forall_eq] at h
    simp [h, htrim]
  · next c htrim =>
    simp only [htrim, List.head?_cons, ne_eq, Option.some.injEq, List.mem_cons, List.not_mem_nil,
      or_false, forall_eq_or_imp, forall_eq] at h
    simp [h, htrim]
  · next htrim => rw [htrim]

theorem hasWildcard_eq_false {text : Bytes} (hstar : star ∉ text) (hmark : question ∉ text) :
    hasWildcard text = false := by
  simp [hasWildcard, hstar, hmark]

theorem unquote_of_head {text : Bytes} (h : (trim text).head? ≠ some quote) :
    unquote text = trim text := by
  simp [unquote, h]

/-- The atom of a text without operators is equality with the text, trimmed. -/
theorem readAtom_plain {value : Bytes} (h : ∀ c ∈ value, special c = false) :
    readAtom value = {value := trim value} := by
  have hnot : ∀ c : UInt8, special c = true → c ∉ trim value := fun c hc hin => by
    simp [h c ((infix_trim value).subset hin)] at hc
  have hhead : ∀ c : UInt8, special c = true → (trim value).head? ≠ some c := fun c hc hs =>
    hnot c hc (List.mem_of_head? hs)
  have htake : takeOperator (trim value) = (.equal, trim value) := by
    rw [takeOperator_none, trim_trim]
    rw [trim_trim]
    simp only [List.mem_cons, List.not_mem_nil, or_false, forall_eq_or_imp, forall_eq]
    exact ⟨hhead _ rfl, hhead _ rfl, hhead _ rfl⟩
  have hdots : splitDots (trim value) = none := by
    rw [splitDots_eq_none]
    exact fun hin => hnot dot rfl (hin.subset (by simp))
  have hunquote : unquote (trim value) = trim value := by
    rw [unquote_of_head, trim_trim]
    rw [trim_trim]
    exact hhead _ rfl
  simp [readAtom, hhead commercialAt rfl, htake, hdots, hunquote, hasWildcard_eq_false (hnot _ rfl) (hnot _ rfl)]

/-! ### The atom of a quoted text -/

theorem head_quoted (value : Bytes) : (quoted value).head? = some quote := rfl

theorem last_quoted (value : Bytes) : (quoted value).getLast? = some quote := by
  rw [quoted, ← List.cons_append]
  exact List.getLast?_concat

theorem head_quoted_ne (value : Bytes) {c : UInt8} (hc : quote ≠ c) :
    (quoted value).head? ≠ some c := by
  rw [head_quoted]
  exact fun h => hc (Option.some.inj h)

theorem trim_quoted (value : Bytes) : trim (quoted value) = quoted value := by
  refine trim_of_ends (fun c hc => ?_) fun c hc => ?_
  · rw [head_quoted] at hc
    cases hc
    rfl
  · rw [last_quoted] at hc
    cases hc
    rfl

theorem unquote_quoted (value : Bytes) : unquote (quoted value) = doubled value := by
  have hlong : 2 ≤ (quoted value).length := by simp [quoted]
  simp only [unquote, trim_quoted, head_quoted, last_quoted, hlong]
  simp [quoted]

theorem takeOperator_quoted (value : Bytes) :
    takeOperator (quoted value) = (.equal, quoted value) := by
  rw [takeOperator_none, trim_quoted]
  rw [trim_quoted]
  intro c hc
  refine head_quoted_ne value fun he => ?_
  subst he
  revert hc
  decide

/-- Without two dots the atom of a quoted text is its content with the quotes doubled,
less a leading `@`, which makes it a pattern where it has a wildcard. -/
theorem readAtom_quoted {value : Bytes} (h : splitDots value = none) :
    readAtom (quoted value) =
      if (doubled value).head? = some commercialAt then
        { value := (doubled value).tail
          compare := if hasWildcard (doubled value).tail then .like else .equal }
      else {value := doubled value} := by
  have hmod : ¬ some quote = some commercialAt := by decide
  have hdots : splitDots (quoted value) = none := splitDots_quoted.mpr h
  simp only [readAtom, trim_quoted, head_quoted, hmod, if_false, takeOperator_quoted, if_true, hdots, unquote_quoted]
  by_cases hat : (doubled value).head? = some commercialAt <;> simp [hat]

theorem parseFilter_quoted (value : Bytes) :
    parseFilter (quoted value) = [[readAtom (quoted value)]] := by
  have hfront := head_quoted_ne value (show quote ≠ openParen by decide)
  refine parseFilter_atom (split_quoted (by decide) value) (split_quoted (by decide) value) ?_ ?_
  · rw [trim_quoted]
    exact List.cons_ne_nil _ _
  · simp [grouped, trim_quoted, hfront]

theorem parseFilter_plain {value : Bytes} (h : ∀ c ∈ value, special c = false)
    (htrim : trim value ≠ []) : parseFilter value = [[{value := trim value}]] := by
  have hne : ∀ c ∈ value, ∀ d : UInt8, special d = true → c ≠ d := fun c hc d hd he => by
    simp [← he, h c hc] at hd
  have hsplit : ∀ separator : UInt8, special separator = true →
      splitOutsideQuotes value separator = [value] := fun separator hs =>
    splitFrom_plain fun c hc => ⟨hne c hc _ rfl, hne c hc _ hs⟩
  have hfront : (trim value).head? ≠ some openParen := fun hs =>
    hne _ ((infix_trim value).subset (List.mem_of_head? hs)) _ rfl rfl
  rw [parseFilter_atom (hsplit _ rfl) (hsplit _ rfl) htrim (by simp [grouped, hfront]), readAtom_plain h]

/-! ### The range of a quoted text with two dots -/

theorem infix_unquote (text : Bytes) : unquote text <:+: text := by
  unfold unquote
  dsimp only
  split
  · have htail : (trim text).tail.dropLast <:+: trim text :=
      (List.dropLast_prefix _).isInfix.trans (List.tail_suffix _).isInfix
    exact htail.trans (infix_trim text)
  · exact infix_trim text

/-- A quoted text with two dots is a range, closed at both ends. -/
theorem readAtom_range {value before after : Bytes}
    (h : splitDots (quoted value) = some (before, after)) :
    readAtom (quoted value) =
      {compare := .between, value := unquote before, upper := unquote after} := by
  have hmod : ¬ some quote = some commercialAt := by decide
  have hdot : quote ≠ dot := by decide
  obtain ⟨hsplit, -⟩ := splitDots_some h
  have hbefore : quote ∈ before := by
    have hhead := head_quoted value
    rw [hsplit] at hhead
    cases before with
    | nil => exact absurd (Option.some.inj hhead).symm hdot
    | cons c rest =>
      obtain rfl : c = quote := Option.some.inj hhead
      exact List.mem_cons_self
  have hafter : quote ∈ after := by
    have hlast := last_quoted value
    rw [hsplit] at hlast
    cases after with
    | nil =>
      rw [List.getLast?_append_cons] at hlast
      exact absurd (Option.some.inj hlast).symm hdot
    | cons c rest =>
      rw [List.getLast?_append_cons, List.getLast?_cons_cons, List.getLast?_cons_cons] at hlast
      exact List.mem_of_getLast? hlast
  have hlower : trim before ≠ [] := trim_ne_nil hbefore rfl
  have hupper : trim after ≠ [] := trim_ne_nil hafter rfl
  simp only [readAtom, trim_quoted, head_quoted, hmod, if_false, takeOperator_quoted, if_true, h,
    hlower, hupper, decide_false]

/-! ### Where a literal means its value -/

section Text
variable {field : FieldDef} (hfield : field.type = .text ∨ field.type = .code)
include hfield

theorem numeric_text : numeric field = false := by
  rcases hfield with h | h <;> simp [numeric, h]

theorem order_text (value against : Bytes) :
    order value against field = Ord.compare value against := by
  rcases hfield with h | h <;> simp [order, h]

/-- A text field's value satisfies an expression of one atom as it stands. -/
theorem matches_atom (atom : Atom) (value : Bytes) :
    matchesValue [[atom]] value field = satisfiesCanonical atom value field := by
  rcases hfield with h | h <;> simp [matchesValue, satisfies, h]

theorem matches_equal (text value : Bytes) :
    matchesValue [[{value := text}]] value field = sameText value text := by
  rw [matches_atom hfield]
  simp [satisfiesCanonical, sameValue, numeric_text hfield]

/-- The value itself is accepted only by a text as long as it. -/
theorem not_itself_of_length {value text : Bytes} (hlen : value.length ≠ text.length) :
    ¬ ∀ w, matchesValue [[{value := text}]] w field = true ↔ sameText w value = true := by
  intro h
  have hself := (h value).mpr (sameText_refl value)
  rw [matches_equal hfield] at hself
  exact hlen (sameText_length hself)

/-- A range that accepts the value accepts its own lower bound, which has no two
dots. -/
theorem not_itself_of_range {value : Bytes} (hdots : splitDots value ≠ none) :
    ¬ ∀ w, matchesValue (parseFilter (quoted value)) w field = true ↔ sameText w value = true := by
  intro h
  obtain ⟨⟨before, after⟩, hsplit⟩ := Option.ne_none_iff_exists'.mp
    fun hnone => hdots (splitDots_quoted.mp hnone)
  have hrange : ∀ w, matchesValue (parseFilter (quoted value)) w field = true ↔
      Ord.compare w (unquote before) ≠ .lt ∧ Ord.compare w (unquote after) ≠ .gt := by
    intro w
    rw [parseFilter_quoted, readAtom_range hsplit, matches_atom hfield]
    simp [satisfiesCanonical, order_text hfield]
  obtain ⟨hlow, hhigh⟩ := (hrange value).mp ((h value).mpr (sameText_refl value))
  have hfirst : (Ord.compare (unquote before) value).isLE := by
    rw [Std.OrientedOrd.eq_swap]
    cases ho : Ord.compare value (unquote before) with
    | lt => exact absurd ho hlow
    | eq | gt => rfl
  have hsecond : (Ord.compare value (unquote after)).isLE := by
    cases ho : Ord.compare value (unquote after) with
    | lt | eq => rfl
    | gt => exact absurd ho hhigh
  have hbetween : (Ord.compare (unquote before) (unquote after)).isLE :=
    Std.TransOrd.isLE_trans hfirst hsecond
  have hsame : sameText (unquote before) value = true := by
    refine (h _).mp ((hrange _).mpr ⟨?_, ?_⟩)
    · rw [Std.ReflOrd.compare_self]
      decide
    · intro hgt
      rw [hgt] at hbetween
      cases hbetween
  have hnone : splitDots (unquote before) = none := by
    rw [splitDots_eq_none]
    exact fun hin => splitDots_eq_none.mp (splitDots_some hsplit).2 (hin.trans (infix_unquote before))
  exact hdots ((sameText_dots hsame).mp hnone)

/-- A leading `@` is taken off, and what is left accepts itself. -/
theorem not_itself_of_modifier {value : Bytes} (hdots : splitDots value = none)
    (hat : value.head? = some commercialAt) :
    ¬ ∀ w, matchesValue (parseFilter (quoted value)) w field = true ↔ sameText w value = true := by
  intro h
  obtain ⟨rest, rfl⟩ : ∃ rest, value = commercialAt :: rest := by
    cases value with
    | nil => cases hat
    | cons c rest =>
      cases hat
      exact ⟨rest, rfl⟩
  have hdoubled := doubled_cons_of_ne (show commercialAt ≠ quote by decide) rest
  have hself : matchesValue (parseFilter (quoted (commercialAt :: rest))) (doubled rest) field =
      true := by
    rw [parseFilter_quoted, readAtom_quoted hdots, hdoubled]
    simp only [List.head?_cons, if_true, List.tail_cons]
    rw [matches_atom hfield]
    by_cases hwild : hasWildcard (doubled rest) = true
    · simp [satisfiesCanonical, hwild, wildcardMatch_self]
    · simp [satisfiesCanonical, hwild, sameValue, numeric_text hfield, sameText_refl]
  have hsame : (doubled rest).map lower = (commercialAt :: rest).map lower :=
    of_decide_eq_true ((h (doubled rest)).mp hself)
  have hat : ∀ c, lower c = commercialAt ↔ c = commercialAt := fun c =>
    lower_eq_iff (by decide) (by decide)
  have hcount : ∀ t : Bytes, (t.map lower).count commercialAt = t.count commercialAt := by
    intro t
    induction t with
    | nil => rfl
    | cons c t ih => simp [List.count_cons, ih, hat]
  have := congrArg (List.count commercialAt) hsame
  rw [hcount, hcount, count_doubled (by decide), List.count_cons_self] at this
  omega

/-- A quoted value means itself exactly when it has no two dots, no quote and no
leading `@`. -/
theorem quoted_iff (value : Bytes) :
    (∀ w, matchesValue (parseFilter (quoted value)) w field = true ↔ sameText w value = true) ↔
      ¬ [dot, dot] <:+: value ∧ quote ∉ value ∧
        value.head? ≠ some commercialAt := by
  constructor
  · intro h
    have hdots : splitDots value = none := by
      by_contra hne
      exact not_itself_of_range hfield hne h
    have hat : value.head? ≠ some commercialAt := fun hat =>
      not_itself_of_modifier hfield hdots hat h
    refine ⟨splitDots_eq_none.mp hdots, fun hquote => ?_, hat⟩
    have hhead : (doubled value).head? ≠ some commercialAt := by
      cases value with
      | nil => cases hquote
      | cons c rest =>
        by_cases hc : c = quote
        · subst hc
          rw [doubled_cons_quote]
          exact fun he => absurd (Option.some.inj he) (by decide)
        · rwa [doubled_cons_of_ne hc]
    have hlonger : value.length ≠ (doubled value).length := by
      have := List.count_pos_iff.mpr hquote
      rw [length_doubled]
      omega
    refine not_itself_of_length hfield hlonger ?_
    simpa only [parseFilter_quoted, readAtom_quoted hdots, if_neg hhead] using h
  · rintro ⟨hdots, hquote, hat⟩ w
    rw [parseFilter_quoted, readAtom_quoted (splitDots_eq_none.mpr hdots),
      doubled_of_not_mem hquote, if_neg hat, matches_equal hfield]

/-- A value without operators means itself exactly when it is trimmed. -/
theorem unquoted_iff {value : Bytes} (hne : value ≠ []) (hplain : ∀ c ∈ value, special c = false) :
    (∀ w, matchesValue (parseFilter value) w field = true ↔ sameText w value = true) ↔
      trim value = value := by
  by_cases htrim : trim value = []
  · constructor
    · intro h
      -- a blank expression is no filter, and accepts the empty text
      have hempty : matchesValue (parseFilter value) [] field = true := by
        rw [parseFilter_eq, if_pos htrim]
        rfl
      have := sameText_length ((h []).mp hempty)
      exact absurd (List.length_eq_zero_iff.mp this.symm) hne
    · intro h
      exact absurd (h ▸ htrim) hne
  · rw [parseFilter_plain hplain htrim]
    constructor
    · intro h
      by_contra hother
      have hshorter : value.length ≠ (trim value).length := fun hlen =>
        hother ((infix_trim value).eq_of_length hlen.symm)
      exact not_itself_of_length hfield hshorter h
    · intro h w
      rw [matches_equal hfield, h]

/-- **A literal means its value exactly where the value is plain**: elsewhere a filter
set to it accepts other texts, or refuses it. -/
theorem literally_means_itself_iff (value : Bytes) :
    (∀ w, matchesValue (parseFilter (literally value)) w field = true ↔ sameText w value = true) ↔
      Plain value := by
  have hquoted : value = [] ∨ value.any special = true → ((∀ w,
      matchesValue (parseFilter (quoted value)) w field = true ↔ sameText w value = true) ↔
        Plain value) := by
    intro hkept
    rw [quoted_iff hfield]
    constructor
    · rintro ⟨hdots, hquote, hat⟩
      refine ⟨hdots, hquote, hat, ?_⟩
      rcases hkept with rfl | hany
      · exact .inl rfl
      · exact .inr hany
    · rintro ⟨hdots, hquote, hat, -⟩
      exact ⟨hdots, hquote, hat⟩
  unfold literally
  split
  · next hnil =>
    subst hnil
    exact hquoted (.inl rfl)
  · next hne =>
    split
    · next hnone =>
      have hplain : ∀ c ∈ value, special c = false := by simpa using hnone
      have hnot : ∀ c : UInt8, special c = true → c ∉ value := fun c hc hmem => by
        simp [hplain c hmem] at hc
      rw [unquoted_iff hfield hne hplain]
      constructor
      · intro htrim
        exact ⟨fun hin => hnot dot rfl (hin.subset (by simp)), hnot _ rfl,
          fun hhead => hnot _ rfl (List.mem_of_head? hhead), .inl htrim⟩
      · intro h
        rcases h.kept with htrim | hany
        · exact htrim
        · simp [hany] at hnone
    · next hany => exact hquoted (.inr (by simpa using hany))

end Text

/-- A code whose filter is a range, and accepts another code. -/
theorem literally_of_dots_is_a_range :
    ¬ ∀ w, matchesValue (parseFilter (literally (ascii "A..B"))) w ⟨1, [], [], .code, .normal, 20, []⟩ =
      true ↔ sameText w (ascii "A..B") = true := by
  intro h
  exact absurd ((h (ascii "AX")).mp (by decide)) (by decide)

/-- A plain text with an operator in it means itself. -/
theorem literally_of_ampersand_means_itself :
    matchesValue (parseFilter (literally (ascii "R&D"))) (ascii "r&d")
      ⟨1, [], [], .text, .normal, 20, []⟩ = true := by
  have hplain : Plain (ascii "R&D") := by
    refine ⟨?_, by decide, by decide, .inr (by decide)⟩
    rw [← splitDots_eq_none]
    rfl
  exact ((literally_means_itself_iff (.inl rfl) (ascii "R&D")).mpr hplain _).mpr (by decide)

end Agiru.Filter
