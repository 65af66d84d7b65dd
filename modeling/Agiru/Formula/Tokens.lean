import Agiru.Formula.Reader
import Agiru.Library.Digits
import Agiru.Library.Strip

/-! The tokens of a formula, and which of them the reader reads.

A `Dialect` says what may stand for a constant, for a filter and for the name of a field; `read_iff` says
which dialect is the reader's, and that it reads a text that only begins with a formula. -/
namespace Agiru.Formula
open Bytes
open Ch

variable {rest : Bytes}
variable {text token : Bytes}

/-- The tokens, white space before each, and what is behind them. -/
abbrev Laid : List Bytes → Bytes → Bytes → Prop := Spaced isSpace isWordChar

def IsWord (token : Bytes) : Prop := token ≠ [] ∧ ∀ c ∈ token, isWordChar c = true

/-- A name: a word, or what stands between double quotes. -/
inductive NameToken : Bytes → Bytes → Prop
  | word {token : Bytes} (h : IsWord token) : NameToken token token
  | quoted {name : Bytes} (h : doubleQuote ∉ name) : NameToken (doubleQuote :: (name ++ [doubleQuote]))
      name

/-- What stands between parentheses. -/
def region (raw : Bytes) : Bytes := openParen :: (raw ++ [closeParen])

/-- What may stand for a value: between a constant's or a filter's parentheses, as the name of a field,
and as the name of one whose upper limit is meant. -/
structure Dialect where
  constant : Bytes → Bytes → Prop
  filter : Bytes → Bytes → Prop
  fieldName : Bytes → Prop
  limitName : Bytes → Prop

inductive FieldTokens (d : Dialect) : How → Bytes → List Bytes → Prop
  | field {token value : Bytes} (hname : NameToken token value) (hplain : d.fieldName token) :
      FieldTokens d .field value [token]
  | filter {filter token value : Bytes} (hfilter : means filter (ascii "filter") = true)
      (hname : NameToken token value) :
      FieldTokens d .fieldFilter value [filter, [openParen], token, [closeParen]]
  | limit {limit token value : Bytes} (hlimit : means limit (ascii "upperlimit") = true)
      (hname : NameToken token value) (hplain : d.limitName token) :
      FieldTokens d .fieldUpperLimit value [limit, [openParen], token, [closeParen]]
  | limitFilter {limit filter token value : Bytes} (hlimit : means limit (ascii "upperlimit") = true)
      (hfilter : means filter (ascii "filter") = true) (hname : NameToken token value) :
      FieldTokens d .fieldUpperLimitFilter value
        [limit, [openParen], filter, [openParen], token, [closeParen], [closeParen]]

inductive HowTokens (d : Dialect) : How → Bytes → List Bytes → Prop
  | const {how raw value : Bytes} (hhow : means how (ascii "const") = true) (hvalue : d.constant raw value) :
      HowTokens d .const value [how, region raw]
  | filter {how raw value : Bytes} (hhow : means how (ascii "filter") = true) (hvalue : d.filter raw value) :
      HowTokens d .filter value [how, region raw]
  | field {how value : Bytes} {kind : How} {tokens : List Bytes} (hhow : means how (ascii "field") = true)
      (hfield : FieldTokens d kind value tokens) :
      HowTokens d kind value ([how, [openParen]] ++ tokens ++ [[closeParen]])

inductive TermTokens (d : Dialect) : FlowTerm → List Bytes → Prop
  | mk {target name value : Bytes} {how : How} {tokens : List Bytes} (hname : NameToken target name)
      (hhow : HowTokens d how value tokens) : TermTokens d ⟨name, how, value⟩ ([target, [equals]] ++ tokens)

inductive TermsTokens (d : Dialect) : List FlowTerm → List Bytes → Prop
  | last {term : FlowTerm} {tokens : List Bytes} (hterm : TermTokens d term tokens) :
      TermsTokens d [term] (tokens ++ [[closeParen]])
  | cons {term : FlowTerm} {terms : List FlowTerm} {tokens others : List Bytes} (hterm : TermTokens d term tokens)
      (hterms : TermsTokens d terms others) : TermsTokens d (term :: terms) (tokens ++ [[comma]] ++ others)

inductive SignTokens : Bool → List Bytes → Prop
  | minus : SignTokens true [[minus]]
  | none : SignTokens false []

inductive ColumnTokens : Bytes → List Bytes → Prop
  | named {token name : Bytes} (hname : NameToken token name) : ColumnTokens name [[dot], token]
  | none : ColumnTokens [] []

inductive ClauseTokens (d : Dialect) : List FlowTerm → List Bytes → Prop
  | terms {clause : Bytes} {terms : List FlowTerm} {tokens : List Bytes}
      (hclause : means clause (ascii "where") = true) (hterms : TermsTokens d terms tokens) :
      ClauseTokens d terms ([clause, [openParen]] ++ tokens)
  | none : ClauseTokens d [] []

inductive FormulaTokens (d : Dialect) : FlowFormula → List Bytes → Prop
  | mk {formula : FlowFormula} {sign column clause : List Bytes} {word keyword table : Bytes}
      (hsign : SignTokens formula.reverseSign sign) (hkind : (keyword, formula.kind) ∈ kinds)
      (hword : means word keyword = true) (htable : NameToken table formula.table)
      (hcolumn : ColumnTokens formula.field column) (hclause : ClauseTokens d formula.terms clause) :
      FormulaTokens d formula
        (sign ++ [word, [openParen], table] ++ column ++ clause ++ [[closeParen]])

/-! ### What the counter of parentheses passes over -/

/-- Whether the counter is where it began behind a text, and was not below in it. -/
def closes : Bool → Nat → Bytes → Bool
  | quoted, depth, [] => !quoted && depth = 0
  | quoted, depth, c :: rest =>
    if c = doubleQuote then closes (!quoted) depth rest
    else if !quoted && c = openParen then closes quoted (depth + 1) rest
    else if !quoted && c = closeParen then
      match depth with
      | 0 => false
      | depth + 1 => closes quoted depth rest
    else closes quoted depth rest

/-- A text that the counter passes over. -/
abbrev Counted (raw : Bytes) : Prop := closes false 0 raw = true

theorem balancedFrom_iff {quoted : Bool} {depth : Nat} {raw : Bytes} :
    balancedFrom quoted depth text = some (raw, rest) ↔
      text = raw ++ closeParen :: rest ∧ closes quoted depth raw = true := by
  induction text generalizing quoted depth raw with
  | nil =>
    refine iff_of_false (by simp [balancedFrom]) ?_
    rintro ⟨htext, -⟩
    simp at htext
  | cons c text ih =>
    have hon : ∀ quoted depth,
        (balancedFrom quoted depth text).map (fun found => (c :: found.1, found.2)) = some (raw, rest) ↔
          ∃ inner, raw = c :: inner ∧ text = inner ++ closeParen :: rest ∧
            closes quoted depth inner = true := by
      intro quoted depth
      rw [Option.map_eq_some_iff]
      constructor
      · rintro ⟨⟨inner, behind⟩, hread, heq⟩
        cases heq
        exact ⟨inner, rfl, ih.mp hread⟩
      · rintro ⟨inner, rfl, hread⟩
        exact ⟨(inner, rest), ih.mpr hread, rfl⟩
    have hcons : c :: text = raw ++ closeParen :: rest ∧ closes quoted depth raw = true ↔
        (c = closeParen ∧ raw = [] ∧ text = rest ∧ quoted = false ∧ depth = 0) ∨
          ∃ inner, raw = c :: inner ∧ text = inner ++ closeParen :: rest ∧
            closes quoted depth (c :: inner) = true := by
      cases raw with
      | nil => simp [closes, and_assoc]
      | cons d raw =>
        simp only [List.cons_append, List.cons.injEq, reduceCtorEq, false_and, and_false, false_or]
        constructor
        · rintro ⟨⟨rfl, htext⟩, hcloses⟩
          exact ⟨raw, ⟨rfl, rfl⟩, htext, hcloses⟩
        · rintro ⟨inner, ⟨rfl, rfl⟩, htext, hcloses⟩
          exact ⟨⟨rfl, htext⟩, hcloses⟩
    rw [hcons]
    unfold balancedFrom closes
    dsimp only
    by_cases hquote : c = doubleQuote
    · have hclose : c ≠ closeParen := by
        rw [hquote]
        decide
      simp only [if_pos hquote, hclose, false_and, false_or]
      exact hon _ _
    · simp only [if_neg hquote]
      by_cases hopen : (!quoted && decide (c = openParen)) = true
      · have hclose : c ≠ closeParen := by
          rw [Bool.and_eq_true, decide_eq_true_eq] at hopen
          rw [hopen.2]
          decide
        simp only [hopen, if_true, hclose, false_and, false_or]
        exact hon _ _
      · simp only [if_neg hopen]
        by_cases hclose : (!quoted && decide (c = closeParen)) = true
        · rw [Bool.and_eq_true, Bool.not_eq_true', decide_eq_true_eq] at hclose
          obtain ⟨rfl, rfl⟩ := hclose
          cases depth with
          | zero => simp
          | succ depth => simpa using hon false depth
        · have hfirst : ¬ (c = closeParen ∧ raw = [] ∧ text = rest ∧ quoted = false ∧ depth = 0) := by
            rintro ⟨rfl, -, -, rfl, -⟩
            exact hclose rfl
          simp only [if_neg hclose, hfirst, false_or]
          exact hon _ _

/-- What the reader takes for a formula. -/
def counted : Dialect where
  constant raw value := Counted raw ∧ unquoted raw = value
  filter raw value := Counted raw ∧ trimmed raw = value
  fieldName token := means token (ascii "upperlimit") = false ∧ means token (ascii "filter") = false
  limitName token := means token (ascii "filter") = false

/-! ### What the reader reads of a token -/

theorem isSpace_word {c : UInt8} (h : isWordChar c = true) : isSpace c = false := by
  unfold isWordChar isDigit at h
  unfold isSpace
  grind

theorem laid_cons {tokens : List Bytes} :
    Laid (token :: tokens) text rest ↔ ∃ mid, Laid [token] text mid ∧ Laid tokens mid rest := by
  show Laid ([token] ++ tokens) text rest ↔ _
  exact Spaced.append_iff

theorem laid_two {first second : Bytes} {tokens : List Bytes} :
    Laid (first :: second :: tokens) text rest ↔ ∃ mid, Laid [first, second] text mid ∧ Laid tokens mid rest := by
  show Laid ([first, second] ++ tokens) text rest ↔ _
  exact Spaced.append_iff

/-- A character that is a token on its own. -/
structure Mark (c : UInt8) : Prop where
  space : isSpace c = false
  word : isWordChar c = false

theorem laid_mark {c : UInt8} (hc : Mark c) : Laid [[c]] text rest ↔ text.dropWhile isSpace = c :: rest := by
  have hjoins : ∀ mid, ¬ Joins isWordChar [c] mid := by
    rintro mid ⟨⟨d, hd, hword⟩, -⟩
    obtain rfl : c = d := Option.some.inj hd
    rw [hc.word] at hword
    cases hword
  refine (Spaced.cons_iff hc.space).trans ?_
  constructor
  · rintro ⟨mid, htext, -, hmid⟩
    rw [Spaced.nil_iff.mp hmid] at htext
    exact htext
  · intro htext
    exact ⟨rest, htext, hjoins rest, .nil rest⟩

theorem take_iff {c : UInt8} (hc : Mark c) : take c text = some rest ↔ Laid [[c]] text rest := by
  rw [laid_mark hc, take, space]
  cases htext : text.dropWhile isSpace with
  | nil => simp
  | cons d behind =>
    dsimp only
    split
    · next heq => simp [heq]
    · next hne => simp [hne]

theorem expect_iff {c : UInt8} (hc : Mark c) : expect c text = .ok rest ↔ Laid [[c]] text rest := by
  rw [← take_iff hc, expect]
  cases take c text with
  | none => exact iff_of_false nofun nofun
  | some behind => simp

theorem markOpen : Mark openParen := ⟨rfl, rfl⟩
theorem markClose : Mark closeParen := ⟨rfl, rfl⟩
theorem markEquals : Mark equals := ⟨rfl, rfl⟩
theorem markComma : Mark comma := ⟨rfl, rfl⟩
theorem markDot : Mark dot := ⟨rfl, rfl⟩
theorem markMinus : Mark minus := ⟨rfl, rfl⟩

/-- A word is laid where the text behind the white space is the word, and goes on as no word. -/
theorem laid_word (h : IsWord token) : Laid [token] text rest ↔
    text.dropWhile isSpace = token ++ rest ∧ ∀ c, rest.head? = some c → isWordChar c = false := by
  obtain ⟨c, behind, rfl⟩ := List.exists_cons_of_ne_nil h.1
  have hlast : ∃ d, (c :: behind).getLast? = some d ∧ isWordChar d = true := by
    have hd := List.getLast?_eq_some_getLast h.1
    exact ⟨_, hd, h.2 _ (List.mem_of_getLast? hd)⟩
  have hjoins : ¬ Joins isWordChar (c :: behind) rest ↔ ∀ d, rest.head? = some d → isWordChar d = false := by
    rw [Joins, and_iff_right hlast]
    simp
  rw [← hjoins]
  refine (Spaced.cons_iff (isSpace_word (h.2 c List.mem_cons_self))).trans ?_
  constructor
  · rintro ⟨mid, htext, hends, hmid⟩
    obtain rfl := Spaced.nil_iff.mp hmid
    exact ⟨htext, hends⟩
  · rintro ⟨htext, hends⟩
    exact ⟨rest, htext, hends, .nil rest⟩

theorem takeWhile_word (h : ∀ c ∈ token, isWordChar c = true)
    (hrest : ∀ c, rest.head? = some c → isWordChar c = false) :
    (token ++ rest).takeWhile isWordChar = token ∧ (token ++ rest).dropWhile isWordChar = rest := by
  rw [List.takeWhile_append_of_pos h, List.dropWhile_append_of_pos h]
  cases rest with
  | nil => simp
  | cons d rest =>
    have hd := hrest d rfl
    rw [List.takeWhile_cons_of_neg (by simp [hd]), List.dropWhile_cons_of_neg (by simp [hd])]
    simp

theorem peek_word (h : IsWord token) (hlaid : Laid [token] text rest) : peek text = token := by
  obtain ⟨htext, hends⟩ := (laid_word h).mp hlaid
  rw [peek, space, htext]
  exact (takeWhile_word h.2 hends).1

theorem word_iff : word text = .ok (token, rest) ↔ IsWord token ∧ Laid [token] text rest := by
  constructor
  · intro h
    unfold word at h
    split at h
    · cases h
    · next hne =>
      cases h
      have hword : IsWord (peek text) := ⟨hne, fun c hc => List.mem_takeWhile_imp hc⟩
      refine ⟨hword, (laid_word hword).mpr ⟨(List.takeWhile_append_dropWhile (p := isWordChar)).symm, ?_⟩⟩
      intro c hc
      have hnot := List.head?_dropWhile_not isWordChar (space text)
      rw [hc] at hnot
      exact hnot
  · rintro ⟨hword, hlaid⟩
    obtain ⟨htext, hends⟩ := (laid_word hword).mp hlaid
    have hpeek := peek_word hword hlaid
    rw [word, hpeek, if_neg hword.1, space, htext, (takeWhile_word hword.2 hends).2]

/-- A name between quotes is laid where the text behind the white space is the name between them. -/
theorem laid_quoted {name : Bytes} : Laid [doubleQuote :: (name ++ [doubleQuote])] text rest ↔
    text.dropWhile isSpace = doubleQuote :: (name ++ doubleQuote :: rest) := by
  have hjoins : ∀ mid, ¬ Joins isWordChar (doubleQuote :: (name ++ [doubleQuote])) mid := by
    rintro mid ⟨⟨d, hd, hword⟩, -⟩
    rw [← List.cons_append, List.getLast?_concat] at hd
    cases hd
    cases hword
  refine (Spaced.cons_iff (show isSpace doubleQuote = false from rfl)).trans ?_
  constructor
  · rintro ⟨mid, htext, -, hmid⟩
    obtain rfl := Spaced.nil_iff.mp hmid
    simpa using htext
  · intro htext
    exact ⟨rest, by simpa using htext, hjoins rest, .nil rest⟩

theorem split_quoted {name : Bytes} (hname : doubleQuote ∉ name) : text = name ++ doubleQuote :: rest ↔
      doubleQuote ∈ text ∧ text.takeWhile (· ≠ doubleQuote) = name ∧
        (text.dropWhile (· ≠ doubleQuote)).tail = rest := by
  constructor
  · rintro rfl
    have hall : ∀ c ∈ name, decide (c ≠ doubleQuote) = true := by
      intro c hc
      rw [decide_eq_true_eq]
      rintro rfl
      exact hname hc
    refine ⟨by simp, ?_, ?_⟩
    · rw [List.takeWhile_append_of_pos hall]
      simp
    · rw [List.dropWhile_append_of_pos hall]
      simp
  · rintro ⟨hmem, rfl, rfl⟩
    cases hdrop : text.dropWhile (· ≠ doubleQuote) with
    | nil =>
      have hall := List.dropWhile_eq_nil_iff.mp hdrop _ hmem
      simp at hall
    | cons c behind =>
      have hc := List.head?_dropWhile_not (· ≠ doubleQuote) text
      rw [hdrop] at hc
      obtain rfl : c = doubleQuote := by simpa using hc
      rw [List.tail_cons, ← hdrop, List.takeWhile_append_dropWhile]

theorem name_iff {name : Bytes} :
    Formula.name text = .ok (name, rest) ↔ ∃ token, NameToken token name ∧ Laid [token] text rest := by
  have hword : word text = .ok (name, rest) ↔ IsWord name ∧ Laid [name] text rest := word_iff
  cases htext : text.dropWhile isSpace with
  | nil =>
    have hname : Formula.name text = word text := by
      rw [Formula.name, space, htext]
    rw [hname, hword]
    constructor
    · rintro ⟨hisWord, hlaid⟩
      exact ⟨name, .word hisWord, hlaid⟩
    · rintro ⟨token, hname | hname, hlaid⟩
      · exact ⟨hname, hlaid⟩
      · rw [laid_quoted, htext] at hlaid
        cases hlaid
  | cons c behind =>
    by_cases hc : c = doubleQuote
    · subst hc
      have hread : Formula.name text = .ok (name, rest) ↔ doubleQuote ∈ behind ∧
          behind.takeWhile (· ≠ doubleQuote) = name ∧ (behind.dropWhile (· ≠ doubleQuote)).tail = rest := by
        rw [Formula.name, space, htext]
        dsimp only
        rw [if_pos rfl]
        split
        · next hmem =>
          rw [and_iff_right hmem, Except.ok.injEq, Prod.mk.injEq]
        · next hmem => exact iff_of_false nofun fun h => hmem h.1
      rw [hread]
      constructor
      · rintro ⟨hmem, hinner, hbehind⟩
        have hplain : doubleQuote ∉ name := by
          intro hquote
          rw [← hinner] at hquote
          have := List.mem_takeWhile_imp hquote
          simp at this
        refine ⟨_, .quoted hplain, laid_quoted.mpr ?_⟩
        rw [htext, (split_quoted hplain).mpr ⟨hmem, hinner, hbehind⟩]
      · rintro ⟨token, hname | hname, hlaid⟩
        · obtain ⟨hlaid, -⟩ := (laid_word hname).mp hlaid
          obtain ⟨d, rest', rfl⟩ := List.exists_cons_of_ne_nil hname.1
          rw [htext] at hlaid
          have hd := hname.2 d List.mem_cons_self
          rw [← (List.cons.inj hlaid).1] at hd
          cases hd
        · rw [laid_quoted, htext] at hlaid
          exact (split_quoted hname).mp (List.cons.inj hlaid).2
    · have hname : Formula.name text = word text := by
        rw [Formula.name, space, htext]
        exact if_neg hc
      rw [hname, hword]
      constructor
      · rintro ⟨hisWord, hlaid⟩
        exact ⟨name, .word hisWord, hlaid⟩
      · rintro ⟨token, hname | hname, hlaid⟩
        · exact ⟨hname, hlaid⟩
        · rw [laid_quoted, htext] at hlaid
          exact absurd (List.cons.inj hlaid).1 hc

theorem laid_region {raw : Bytes} : Laid [region raw] text rest ↔
    text.dropWhile isSpace = openParen :: (raw ++ closeParen :: rest) := by
  have hjoins : ∀ mid, ¬ Joins isWordChar (region raw) mid := by
    rintro mid ⟨⟨d, hd, hword⟩, -⟩
    rw [region, ← List.cons_append, List.getLast?_concat] at hd
    cases hd
    cases hword
  refine (Spaced.cons_iff (show isSpace openParen = false from rfl)).trans ?_
  constructor
  · rintro ⟨mid, htext, -, hmid⟩
    obtain rfl := Spaced.nil_iff.mp hmid
    simpa using htext
  · intro htext
    exact ⟨rest, by simpa using htext, hjoins rest, .nil rest⟩

/-- What the counter passes over, between parentheses. -/
theorem region_iff {raw : Bytes} : (∃ mid, expect openParen text = .ok mid ∧ balanced mid = .ok (raw, rest)) ↔
      Counted raw ∧ Laid [region raw] text rest := by
  have hbalanced : ∀ mid, balanced mid = .ok (raw, rest) ↔
      mid = raw ++ closeParen :: rest ∧ closes false 0 raw = true := by
    intro mid
    rw [← balancedFrom_iff, balanced]
    cases balancedFrom false 0 mid with
    | none => exact iff_of_false nofun nofun
    | some read => simp
  rw [laid_region]
  constructor
  · rintro ⟨mid, hopen, hread⟩
    obtain ⟨rfl, hcloses⟩ := (hbalanced mid).mp hread
    exact ⟨hcloses, (laid_mark markOpen).mp ((expect_iff markOpen).mp hopen)⟩
  · rintro ⟨hcloses, htext⟩
    exact ⟨_, (expect_iff markOpen).mpr ((laid_mark markOpen).mpr htext), (hbalanced _).mpr ⟨rfl, hcloses⟩⟩

end Agiru.Formula
