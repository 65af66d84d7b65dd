import Agiru.Filter.Literal
import Agiru.Formula.Accepted

/-! When a formula means what is written.

`al` is the dialect that AL writes. The reader's counter of parentheses does not know the quotes of a
string, it takes any text that the counter passes over for a constant or a filter, a field whose name is
a keyword for the keyword, and it does not look behind the last parenthesis; `means_iff` says of which
texts that makes no difference. -/
namespace Agiru.Formula
open Bytes
open Fallible
open Ch

variable {terms : List FlowTerm} {rest rest' : Bytes}
variable {value text : Bytes} {tokens : List Bytes}
variable {formula : FlowFormula} {c : UInt8}

/-! ### What AL writes -/

/-- A constant: a string, the quoted name of a member, or a word. -/
inductive Constant : Bytes → Bytes → Prop
  | literal (value : Bytes) : Constant (Filter.quoted value) value
  | member {value : Bytes} (h : doubleQuote ∉ value) :
      Constant (doubleQuote :: (value ++ [doubleQuote])) value
  | word {value : Bytes} (h : IsWord value) : Constant value value

/-- Whether the parentheses outside quotes of both kinds are balanced, and the quotes closed. -/
def balances : Option UInt8 → Nat → Bytes → Bool
  | quote, depth, [] => quote = none && depth = 0
  | some quote, depth, c :: rest => balances (if c = quote then none else some quote) depth rest
  | none, depth, c :: rest =>
    if c = quote ∨ c = doubleQuote then balances (some c) depth rest
    else if c = openParen then balances none (depth + 1) rest
    else if c = closeParen then
      match depth with
      | 0 => false
      | depth + 1 => balances none depth rest
    else balances none depth rest

/-- The formulas that AL writes, with any white space between their tokens. -/
def al : Dialect where
  constant raw value := Constant (trim raw) value
  filter raw value := balances none 0 raw = true ∧ trim raw = value
  fieldName _ := True
  limitName _ := True

/-- What the reader finds as it is: the counter passes over it, and no vertical tab or form feed is at its
ends. -/
def Found (raw : Bytes) : Prop := Counted raw ∧ trimmed raw = trim raw

/-- The formulas that AL writes and the reader reads: what stands for a value is found, and no field is
named like a keyword without quotes. -/
def careful : Dialect where
  constant raw value := al.constant raw value ∧ Found raw
  filter raw value := al.filter raw value ∧ Found raw
  fieldName := counted.fieldName
  limitName := counted.limitName

/-- A text that is a formula, with white space around it. -/
def Spells (d : Dialect) (formula : FlowFormula) (text : Bytes) : Prop :=
  ∃ tokens behind, FormulaTokens d formula tokens ∧ Laid tokens text behind ∧ ∀ c ∈ behind, isSpace c = true

/-- A text that begins with a formula. -/
def Begins (d : Dialect) (formula : FlowFormula) (text : Bytes) : Prop :=
  ∃ tokens behind, FormulaTokens d formula tokens ∧ Laid tokens text behind

/-- The text is read as the formula that it is, and refused where it is none. -/
structure Means (text : Bytes) : Prop where
  formula : ∀ formula, Spells al formula text → read text = .ok formula
  refused : (∀ formula, ¬ Spells al formula text) → ∃ refusal, read text = .error refusal

/-! ### Dialects -/

/-- What one dialect writes, another writes as well. -/
structure Dialect.Within (d e : Dialect) : Prop where
  constant : ∀ raw value, d.constant raw value → e.constant raw value
  filter : ∀ raw value, d.filter raw value → e.filter raw value
  fieldName : ∀ token, d.fieldName token → e.fieldName token
  limitName : ∀ token, d.limitName token → e.limitName token

section Within
variable {d e : Dialect} (h : d.Within e)
include h

theorem FieldTokens.within {how : How} (hfield : FieldTokens d how value tokens) : FieldTokens e how value tokens := by
  cases hfield with
  | field hname hplain => exact .field hname (h.fieldName _ hplain)
  | filter hfilter hname => exact .filter hfilter hname
  | limit hlimit hname hplain => exact .limit hlimit hname (h.limitName _ hplain)
  | limitFilter hlimit hfilter hname => exact .limitFilter hlimit hfilter hname

theorem HowTokens.within {how : How} (hhow : HowTokens d how value tokens) : HowTokens e how value tokens := by
  cases hhow with
  | const hhow hvalue => exact .const hhow (h.constant _ _ hvalue)
  | filter hhow hvalue => exact .filter hhow (h.filter _ _ hvalue)
  | field hhow hfield => exact .field hhow (hfield.within h)

theorem TermTokens.within {term : FlowTerm} (hterm : TermTokens d term tokens) : TermTokens e term tokens := by
  cases hterm with
  | mk hname hhow => exact .mk hname (hhow.within h)

theorem TermsTokens.within (hterms : TermsTokens d terms tokens) : TermsTokens e terms tokens := by
  induction hterms with
  | last hterm => exact .last (hterm.within h)
  | cons hterm _ ih => exact .cons (hterm.within h) ih

theorem ClauseTokens.within (hclause : ClauseTokens d terms tokens) : ClauseTokens e terms tokens := by
  cases hclause with
  | terms hclause hterms => exact .terms hclause (hterms.within h)
  | none => exact .none

theorem FormulaTokens.within (hformula : FormulaTokens d formula tokens) : FormulaTokens e formula tokens := by
  cases hformula with
  | mk hsign hkind hword htable hcolumn hclause =>
    exact .mk hsign hkind hword htable hcolumn (hclause.within h)

end Within

/-! ### Constants -/

theorem undoubled_doubled (value : Bytes) : undoubled (Filter.doubled value) = value := by
  induction value with
  | nil => rfl
  | cons c value ih =>
    by_cases hc : c = quote
    · subst hc
      rw [Filter.doubled_cons_quote, undoubled, if_pos ⟨rfl, rfl⟩, ih]
    · rw [Filter.doubled_cons_of_ne hc]
      cases hrest : Filter.doubled value with
      | nil =>
        rw [hrest] at ih
        rw [← ih]
        rfl
      | cons d rest =>
        rw [undoubled, if_neg (fun h => hc h.1), ← hrest, ih]

theorem between_surrounded (quote : UInt8) (inner : Bytes) : between quote (quote :: (inner ++ [quote])) =
    true := by
  have hlast : (quote :: (inner ++ [quote])).getLast? = some quote := by
    rw [← List.cons_append]
    exact List.getLast?_concat
  simp [between, hlast]

theorem not_between_of_head {quote : UInt8} (hc : c ≠ quote) (rest : Bytes) : between quote (c :: rest) = false := by
  simp [between, hc]

/-- What is read of a constant that is written as it should be. -/
theorem unquoted_constant {raw : Bytes} (h : Constant (trim raw) value) (htrim : trimmed raw = trim raw) :
    unquoted raw = value := by
  unfold unquoted
  rw [htrim]
  generalize trim raw = token at h
  cases h with
  | literal value =>
    have hother : between doubleQuote (Filter.quoted value) = false := not_between_of_head (by decide) _
    have hquote : between quote (Filter.quoted value) = true := between_surrounded _ _
    simp only [hother, hquote, if_true, Bool.false_eq_true, if_false]
    rw [Filter.quoted, List.tail_cons, List.dropLast_concat, undoubled_doubled]
  | @member value hplain =>
    simp only [between_surrounded, if_true]
    rw [List.tail_cons, List.dropLast_concat]
  | @word value hword =>
    obtain ⟨c, rest, rfl⟩ := List.exists_cons_of_ne_nil hword.1
    have hne : ∀ quote, isWordChar quote = false → c ≠ quote := by
      rintro quote hquote rfl
      rw [hword.2 c List.mem_cons_self] at hquote
      cases hquote
    simp only [not_between_of_head (hne doubleQuote rfl), not_between_of_head (hne quote rfl),
      Bool.false_eq_true, if_false]

theorem careful_within_counted : careful.Within counted where
  constant _ _ h := ⟨h.2.1, unquoted_constant h.1 h.2.2⟩
  filter _ _ h := ⟨h.2.1, h.2.2.trans h.1.2⟩
  fieldName _ h := h
  limitName _ h := h

/-- A formula that is written with care is read. -/
theorem read_careful (h : Spells careful formula text) : read text = .ok formula := by
  obtain ⟨tokens, behind, htokens, hlaid, -⟩ := h
  exact read_complete (htokens.within careful_within_counted) hlaid

/-! ### What is read of a value, if it is the value

The counter stops at another parenthesis only with more of them, or fewer, before it. -/

theorem count_ends {p : UInt8 → Bool} (hc : p c = false) (text : Bytes) :
    ((text.dropWhile p).rdropWhile p).count c = text.count c := by
  have hnone : ∀ part : Bytes, (∀ d ∈ part, p d = true) → part.count c = 0 := by
    intro part hpart
    rw [List.count_eq_zero]
    intro hmem
    rw [hpart c hmem] at hc
    cases hc
  have hfront := List.takeWhile_append_dropWhile (p := p) (l := text)
  have hback := List.rdropWhile_append_rtakeWhile (p := p) (l := text.dropWhile p)
  have hcount := congrArg (List.count c) hfront
  have hcount' := congrArg (List.count c) hback
  rw [List.count_append, hnone _ fun d hd => List.mem_takeWhile_imp hd] at hcount
  rw [List.count_append, hnone _ fun d hd => List.mem_rtakeWhile_imp hd] at hcount'
  omega

theorem count_undoubled (hc : c ≠ quote) (text : Bytes) : (undoubled text).count c = text.count c := by
  induction hlength : text.length using Nat.strongRecOn generalizing text with
  | ind length ih =>
    cases text with
    | nil => rfl
    | cons first rest =>
      cases rest with
      | nil => rfl
      | cons second rest =>
        rw [List.length_cons, List.length_cons] at hlength
        by_cases hpair : first = quote ∧ second = quote
        · have hrest := ih rest.length (by omega) rest rfl
          obtain ⟨rfl, rfl⟩ := hpair
          rw [undoubled, if_pos ⟨rfl, rfl⟩, List.count_cons_of_ne hc.symm, List.count_cons_of_ne hc.symm,
            List.count_cons_of_ne hc.symm, hrest]
        · have hrest := ih (second :: rest).length (by rw [List.length_cons]; omega) (second :: rest) rfl
          rw [undoubled, if_neg hpair, List.count_cons, List.count_cons, hrest]

theorem between_split {quote : UInt8} (h : between quote text = true) :
    text = quote :: (text.tail.dropLast ++ [quote]) := by
  simp only [between, Bool.and_eq_true, decide_eq_true_eq] at h
  obtain ⟨⟨hlong, hhead⟩, hlast⟩ := h
  cases text with
  | nil => cases hhead
  | cons c rest =>
    obtain rfl : c = quote := Option.some.inj hhead
    have hne : rest ≠ [] := by
      rintro rfl
      simp at hlong
    rw [List.getLast?_cons_of_ne_nil hne] at hlast
    rw [List.tail_cons, List.dropLast_append_getLast? c hlast]

theorem count_unquoted (hspace : isTrimmed c = false) (hquote : c ≠ quote)
    (hdouble : c ≠ doubleQuote) (raw : Bytes) : (unquoted raw).count c = raw.count c := by
  rw [← count_ends hspace raw, ← trimmed]
  have hinner : ∀ quote, c ≠ quote → between quote (trimmed raw) = true →
      (trimmed raw).tail.dropLast.count c = (trimmed raw).count c := by
    intro quote hne hbetween
    have hsplit := congrArg (List.count c) (between_split hbetween)
    rw [List.count_cons_of_ne hne.symm, List.count_append, List.count_singleton, beq_false_of_ne hne.symm] at hsplit
    simpa using hsplit.symm
  unfold unquoted
  dsimp only
  split
  · next hbetween => exact hinner _ hdouble hbetween
  · split
    · next hbetween =>
      rw [count_undoubled hquote]
      exact hinner _ hquote hbetween
    · rfl

theorem count_doubled (hc : c ≠ quote) (value : Bytes) : (Filter.quoted value).count c = value.count c := by
  rw [Filter.quoted, List.count_cons_of_ne hc.symm, List.count_append, Filter.count_doubled hc,
    List.count_singleton, beq_false_of_ne hc.symm]
  rfl

theorem count_constant (hquote : c ≠ quote) (hdouble : c ≠ doubleQuote) {token : Bytes}
    (h : Constant token value) : value.count c = token.count c := by
  cases h with
  | literal value => exact (count_doubled hquote value).symm
  | member hplain =>
    rw [List.count_cons_of_ne hdouble.symm, List.count_append, List.count_singleton, beq_false_of_ne hdouble.symm]
    rfl
  | word => rfl

theorem length_constant {token : Bytes} (h : Constant token value) : value.length ≤ token.length := by
  cases h with
  | literal value =>
    have := Filter.length_doubled value
    simp only [Filter.quoted, List.length_cons, List.length_append]
    omega
  | member hplain =>
    simp only [List.length_cons, List.length_append]
    omega
  | word => exact Nat.le_refl _

/-- The parenthesis that closes, if as many stand before it. -/
theorem same_region {raw raw' : Bytes} (h : raw ++ closeParen :: rest = raw' ++ closeParen :: rest')
    (hcount : raw.count closeParen = raw'.count closeParen) : raw = raw' ∧ rest = rest' := by
  rcases List.append_eq_append_iff.mp h with ⟨between, hlong, hbehind⟩ | ⟨between, hlong, hbehind⟩
  · cases between with
    | nil =>
      rw [List.append_nil] at hlong
      exact ⟨hlong.symm, (List.cons.inj hbehind).2⟩
    | cons c between =>
      obtain rfl := (List.cons.inj hbehind).1
      rw [hlong, List.count_append, List.count_cons_self] at hcount
      omega
  · cases between with
    | nil =>
      rw [List.append_nil] at hlong
      exact ⟨hlong, (List.cons.inj hbehind).2.symm⟩
    | cons c between =>
      obtain rfl := (List.cons.inj hbehind).1
      rw [hlong, List.count_append, List.count_cons_self] at hcount
      omega

theorem trim_trimmed (raw : Bytes) : trim (trimmed raw) = trim raw := by
  have hspace : ∀ c, isTrimmed c = true → isSpace c = true := by
    intro c hc
    simp only [isTrimmed, Bool.or_eq_true, decide_eq_true_eq] at hc
    rcases hc with ((rfl | rfl) | rfl) | rfl <;> rfl
  have hblank : ∀ part : Bytes, (∀ c ∈ part, isTrimmed c = true) → trim part = [] :=
    fun part hpart => trim_eq_nil_iff.mpr fun c hc => hspace c (hpart c hc)
  have hsplit : raw = raw.takeWhile isTrimmed ++ (trimmed raw ++ (raw.dropWhile isTrimmed).rtakeWhile
      isTrimmed) := by
    rw [trimmed, List.rdropWhile_append_rtakeWhile, List.takeWhile_append_dropWhile]
  have hsurrounded := @trim_surrounded (trimmed raw) _ _
    (hblank (raw.takeWhile isTrimmed) fun c hc => List.mem_takeWhile_imp hc)
    (hblank ((raw.dropWhile isTrimmed).rtakeWhile isTrimmed) fun c hc => List.mem_rtakeWhile_imp hc)
  rw [← hsplit] at hsurrounded
  exact hsurrounded.symm

/-- A constant that is read as its value has no white space at its ends that is not trimmed. -/
theorem trimmed_of_constant {raw : Bytes} (h : Constant (trim raw) value) (hread : unquoted raw = value) :
    trimmed raw = trim raw := by
  by_contra hother
  have htrim := trim_trimmed raw
  have hnot : ∀ quote, isSpace quote = false → between quote (trimmed raw) = false := by
    intro quote hquote
    rw [← Bool.not_eq_true]
    intro hbetween
    simp only [between, Bool.and_eq_true, decide_eq_true_eq] at hbetween
    obtain ⟨⟨-, hhead⟩, hlast⟩ := hbetween
    apply hother
    rw [← htrim, trim_of_ends]
    · intro c hc
      rw [hhead] at hc
      cases hc
      exact hquote
    · intro c hc
      rw [hlast] at hc
      cases hc
      exact hquote
  unfold unquoted at hread
  simp only [hnot doubleQuote rfl, hnot quote rfl, Bool.false_eq_true, if_false] at hread
  have hshort := length_constant h
  rw [← hread, ← htrim] at hshort
  have heq := (infix_trim (trimmed raw)).eq_of_length (Nat.le_antisymm (trim_length_le _) hshort)
  exact hother (heq.symm.trans htrim)

/-! ### What the reader reads of a formula that is written, if it is the formula -/

/-- Whether a word is read, and a parenthesis behind it. -/
def Opens (text : Bytes) : Prop :=
  ∃ keyword mid inner, word text = .ok (keyword, mid) ∧ expect openParen mid = .ok inner

/-- Behind a name stands no parenthesis that opens. -/
theorem not_opens {token name mid : Bytes} (hname : NameToken token name) (hlaid : Laid [token] text mid)
    (hclose : Laid [[closeParen]] mid rest) : ¬ Opens text := by
  rintro ⟨keyword, behind, inner, hword, hopen⟩
  obtain ⟨hisWord, hkeyword⟩ := word_iff.mp hword
  obtain ⟨htext, -⟩ := (laid_word hisWord).mp hkeyword
  cases hname with
  | word hnameWord =>
    rw [word_iff.mpr ⟨hnameWord, hlaid⟩] at hword
    cases hword
    have hnone : take openParen mid = none := take_none markClose (by decide) hclose
    rw [(take_iff markOpen).mpr ((expect_iff markOpen).mp hopen)] at hnone
    cases hnone
  | quoted hplain =>
    rw [laid_quoted.mp hlaid] at htext
    obtain ⟨c, rest', rfl⟩ := List.exists_cons_of_ne_nil hisWord.1
    have hc := hisWord.2 c List.mem_cons_self
    rw [← (List.cons.inj htext).1] at hc
    cases hc

theorem readField_opens {read : (How × Bytes) × Bytes} (h : readField text = .ok read)
    (hkeyword : means (peek text) (ascii "upperlimit") = true ∨ means (peek text) (ascii "filter") = true) :
    Opens text := by
  unfold readField at h
  split at h
  · obtain ⟨⟨limit, mid⟩, hword, h⟩ := of_bind h
    obtain ⟨inner, hopen, -⟩ := of_bind h
    exact ⟨limit, mid, inner, hword, hopen⟩
  · next hlimit =>
    rw [if_pos (hkeyword.resolve_left hlimit)] at h
    obtain ⟨⟨filter, mid⟩, hword, h⟩ := of_bind h
    obtain ⟨inner, hopen, -⟩ := of_bind h
    exact ⟨filter, mid, inner, hword, hopen⟩

theorem readField_limit_opens {mid inner limit : Bytes} {read : (How × Bytes) × Bytes}
    (h : readField text = .ok read) (hlimit : means (peek text) (ascii "upperlimit") = true)
    (hword : word text = .ok (limit, mid)) (hopen : expect openParen mid = .ok inner)
    (hfilter : means (peek inner) (ascii "filter") = true) : Opens inner := by
  unfold readField at h
  rw [if_pos hlimit] at h
  replace h := ((bind_ok hword).trans (bind_ok hopen)).symm.trans h
  rw [if_pos hfilter] at h
  obtain ⟨⟨filter, behind⟩, hword, h⟩ := of_bind h
  obtain ⟨innermost, hopen, -⟩ := of_bind h
  exact ⟨filter, behind, innermost, hword, hopen⟩

/-- A field that is read is not named like a keyword. -/
theorem field_careful {how : How} (h : FieldTokens al how value tokens)
    {mid : Bytes} (hlaid : Laid tokens text mid) (hclose : Laid [[closeParen]] mid rest)
    {read : (How × Bytes) × Bytes} (hread : readField text = .ok read) : FieldTokens careful how value tokens := by
  cases h with
  | @field token value hname _ =>
    have hopens := not_opens hname hlaid hclose
    refine .field hname ⟨?_, ?_⟩
    · rw [← means_peek hname hlaid isWord_upperlimit, ← Bool.not_eq_true]
      exact fun hkeyword => hopens (readField_opens hread (.inl hkeyword))
    · rw [← means_peek hname hlaid isWord_filter, ← Bool.not_eq_true]
      exact fun hkeyword => hopens (readField_opens hread (.inr hkeyword))
  | filter hfilter hname => exact .filter hfilter hname
  | @limit limit token value hlimit hname _ =>
    obtain ⟨inner, hopened, hclosed⟩ := laid_two.mp hlaid
    obtain ⟨behind, hfirst, hclose⟩ := laid_cons.mp hclosed
    obtain ⟨hpeek, mid, hword, hopen⟩ := opened_keyword hlimit isWord_upperlimit hopened
    refine .limit hlimit hname ?_
    show means token (ascii "filter") = false
    rw [← means_peek hname hfirst isWord_filter, ← Bool.not_eq_true]
    exact fun hkeyword => not_opens hname hfirst hclose
      (readField_limit_opens hread (by rw [hpeek, hlimit]) hword hopen hkeyword)
  | limitFilter hlimit hfilter hname => exact .limitFilter hlimit hfilter hname

/-- A term whose value is read as it is written. -/
theorem meant_careful {how : How} (h : HowTokens al how value tokens)
    (hlaid : Laid tokens text rest) (hread : readMeant text = .ok ((how, value), rest')) :
    HowTokens careful how value tokens ∧ rest' = rest := by
  -- what the counter passes over, where as many parentheses close in the value
  have hregion : ∀ {raw raw' mid : Bytes}, Laid [region raw] mid rest →
      (∃ inner, expect openParen mid = .ok inner ∧ balanced inner = .ok (raw', rest')) →
      raw.count closeParen = raw'.count closeParen → Counted raw ∧ raw = raw' ∧ rest' = rest := by
    intro raw raw' mid hlaid hbalanced hcount
    obtain ⟨hcounted, hlaid'⟩ := region_iff.mp hbalanced
    have htext := laid_region.mp hlaid
    rw [laid_region.mp hlaid'] at htext
    obtain ⟨rfl, rfl⟩ := same_region (List.cons.inj htext).2.symm hcount
    exact ⟨hcounted, rfl, rfl⟩
  -- the word and the parenthesis are read as they are laid
  have hfront : ∀ {keyword other raw mid : Bytes}, means keyword other = true → IsWord other →
      Laid [keyword] text mid → Laid [region raw] mid rest →
      ∃ inner, expect openParen mid = .ok inner ∧ readHow keyword inner = .ok ((how, value), rest') := by
    intro keyword other raw mid hmeans hother hfirst hregionLaid
    have hopen := (expect_iff markOpen).mpr ((laid_mark markOpen).mpr (laid_region.mp hregionLaid))
    have hword := word_iff.mpr ⟨isWord_of_means hmeans hother, hfirst⟩
    exact ⟨_, hopen, ((bind_ok hword).trans (bind_ok hopen)).symm.trans hread⟩
  cases h with
  | @const keyword raw value hhow hvalue =>
    obtain ⟨mid, hfirst, hregionLaid⟩ := laid_cons.mp hlaid
    obtain ⟨inner, hopen, hread⟩ := hfront hhow isWord_const hfirst hregionLaid
    rw [readHow, hhow, if_pos rfl] at hread
    obtain ⟨⟨raw', behind⟩, hbalanced, hread⟩ := of_bind hread
    cases hread
    have hcount : raw.count closeParen = raw'.count closeParen := by
      have hwritten := count_constant (c := closeParen) (by decide) (by decide) hvalue
      rw [count_unquoted rfl (by decide) (by decide)] at hwritten
      exact (count_ends rfl raw).symm.trans hwritten.symm
    obtain ⟨hcounted, rfl, rfl⟩ := hregion hregionLaid ⟨inner, hopen, hbalanced⟩ hcount
    exact ⟨.const hhow ⟨hvalue, hcounted, trimmed_of_constant hvalue rfl⟩, rfl⟩
  | @filter keyword raw value hhow hvalue =>
    obtain ⟨mid, hfirst, hregionLaid⟩ := laid_cons.mp hlaid
    obtain ⟨inner, hopen, hread⟩ := hfront hhow isWord_filter hfirst hregionLaid
    rw [readHow, means_other hhow (by decide), if_neg Bool.false_ne_true, hhow, if_pos rfl] at hread
    obtain ⟨⟨raw', behind⟩, hbalanced, hread⟩ := of_bind hread
    cases hread
    have hcount : raw.count closeParen = raw'.count closeParen := by
      have hwritten := congrArg (List.count closeParen) hvalue.2
      rw [trim, count_ends rfl, trimmed, count_ends rfl] at hwritten
      exact hwritten
    obtain ⟨hcounted, rfl, rfl⟩ := hregion hregionLaid ⟨inner, hopen, hbalanced⟩ hcount
    exact ⟨.filter hhow ⟨hvalue, hcounted, hvalue.2.symm⟩, rfl⟩
  | @field keyword value kind tokens hhow hfield =>
    obtain ⟨behind, hinner, hclose⟩ := Spaced.append_iff.mp hlaid
    obtain ⟨inner, hopened, hfieldLaid⟩ := Spaced.append_iff.mp hinner
    obtain ⟨-, mid, hword, hopen⟩ := opened_keyword hhow isWord_field hopened
    replace hread := ((bind_ok hword).trans (bind_ok hopen)).symm.trans hread
    rw [readHow, means_other hhow (by decide), if_neg Bool.false_ne_true, means_other hhow (by decide),
      if_neg Bool.false_ne_true, hhow, if_pos rfl] at hread
    obtain ⟨found, hfound, -⟩ := of_bind hread
    have hcareful := field_careful hfield hfieldLaid hclose hfound
    have hcomplete := readField_complete (hcareful.within careful_within_counted) hfieldLaid
    replace hread := ((bind_ok hcomplete).trans (bind_ok ((expect_iff markClose).mpr hclose))).symm.trans hread
    cases hread
    exact ⟨.field hhow hcareful, rfl⟩

theorem term_careful {term : FlowTerm} (h : TermTokens al term tokens)
    (hlaid : Laid tokens text rest) (hread : readTerm text = .ok (term, rest')) :
    TermTokens careful term tokens ∧ rest' = rest := by
  cases h with
  | @mk token name value how tokens hname hhow =>
    obtain ⟨behind, hfirst, hlaid⟩ := Spaced.append_iff.mp hlaid
    obtain ⟨mid, htarget, hequals⟩ := laid_cons.mp hfirst
    rw [readTerm_eq] at hread
    replace hread := ((bind_ok (name_iff.mpr ⟨token, hname, htarget⟩)).trans
      (bind_ok ((expect_iff markEquals).mpr hequals))).symm.trans hread
    obtain ⟨⟨⟨how', value'⟩, behind'⟩, hmeant, hread⟩ := of_bind hread
    cases hread
    obtain ⟨hcareful, rfl⟩ := meant_careful hhow hlaid hmeant
    exact ⟨.mk hname hcareful, rfl⟩

theorem terms_careful (h : TermsTokens al terms tokens) {turns : Nat} (hlaid : Laid tokens text rest)
    (hread : readTerms turns text = .ok (terms, rest')) : TermsTokens careful terms tokens ∧ rest' = rest := by
  induction h generalizing turns text with
  | @last term tokens hterm =>
    obtain ⟨mid, hfirst, hclose⟩ := Spaced.append_iff.mp hlaid
    cases turns with
    | zero => cases hread
    | succ turns =>
      obtain ⟨read, behind, hreadTerm, hrest⟩ := readTerms_turn hread
      have hterm' : read = term := by
        rcases hrest with ⟨_, _, -, -, heq⟩ | ⟨-, -, heq⟩ <;> exact (List.cons.inj heq).1.symm
      subst hterm'
      obtain ⟨hcareful, rfl⟩ := term_careful hterm hfirst hreadTerm
      have hcomma : take comma behind = none := take_none markClose (by decide) hclose
      rcases hrest with ⟨_, _, hsome, -, -⟩ | ⟨-, hend, -⟩
      · rw [hcomma] at hsome
        cases hsome
      · rw [(expect_iff markClose).mpr hclose] at hend
        cases hend
        exact ⟨.last hcareful, rfl⟩
  | @cons term terms tokens others hterm _ ih =>
    obtain ⟨behindComma, hfront, hothers⟩ := Spaced.append_iff.mp hlaid
    obtain ⟨mid, hfirst, hcomma⟩ := Spaced.append_iff.mp hfront
    cases turns with
    | zero => cases hread
    | succ turns =>
      obtain ⟨read, behind, hreadTerm, hrest⟩ := readTerms_turn hread
      have hterm' : read = term := by
        rcases hrest with ⟨_, _, -, -, heq⟩ | ⟨-, -, heq⟩ <;> exact (List.cons.inj heq).1.symm
      subst hterm'
      obtain ⟨hcareful, rfl⟩ := term_careful hterm hfirst hreadTerm
      have hsome := (take_iff markComma).mpr hcomma
      rcases hrest with ⟨_, _, hsome', hread, heq⟩ | ⟨hnone, -, -⟩
      · rw [hsome] at hsome'
        cases hsome'
        obtain rfl := (List.cons.inj heq).2
        obtain ⟨hcarefuls, rfl⟩ := ih hothers hread
        exact ⟨.cons hcareful hcarefuls, rfl⟩
      · rw [hsome] at hnone
        cases hnone

theorem clause_careful (h : ClauseTokens al terms tokens)
    (hlaid : Laid tokens text rest) (hread : readClause text = .ok (terms, rest')) :
    ClauseTokens careful terms tokens := by
  cases h with
  | @terms clause terms tokens hclause hterms =>
    obtain ⟨inner, hopened, hlaid⟩ := Spaced.append_iff.mp hlaid
    obtain ⟨hpeek, mid, hword, hopen⟩ := opened_keyword hclause isWord_where hopened
    unfold readClause at hread
    rw [hpeek, hclause, if_pos rfl] at hread
    replace hread := ((bind_ok hword).trans (bind_ok hopen)).symm.trans hread
    exact .terms hclause (terms_careful hterms hlaid hread).1
  | none => exact .none

/-- A formula that is read as it is written is written with care. -/
theorem formula_careful (h : FormulaTokens al formula tokens)
    (hlaid : Laid tokens text rest) (hread : read text = .ok formula) : FormulaTokens careful formula tokens := by
  cases h with
  | mk hsign hkind hword htable hcolumn hclause =>
    obtain ⟨behindTerms, hlaid, hclose⟩ := Spaced.append_iff.mp hlaid
    obtain ⟨behindField, hlaid, hclauseLaid⟩ := Spaced.append_iff.mp hlaid
    rw [read_front hsign hkind hword htable hcolumn hlaid (clause_dot hclause hclauseLaid hclose)] at hread
    obtain ⟨⟨terms, behind⟩, hterms, hread⟩ := of_bind hread
    obtain ⟨behind', -, hread⟩ := of_bind hread
    have hsame : terms = formula.terms := congrArg FlowFormula.terms (Except.ok.inj hread)
    subst hsame
    exact .mk hsign hkind hword htable hcolumn (clause_careful hclause hclauseLaid hterms)

/-! ### When a formula means what is written -/

/-- **When a text means what is written in it**: as a formula, it is one written with care; and where it is
none, it does not begin with one as the reader takes it. -/
theorem means_iff (text : Bytes) : Means text ↔
    (∀ formula, Spells al formula text → Spells careful formula text) ∧
      ((∃ formula, Begins counted formula text) → ∃ formula, Spells al formula text) := by
  constructor
  · intro h
    constructor
    · intro formula hspells
      have hread := h.formula formula hspells
      obtain ⟨tokens, behind, htokens, hlaid, hbehind⟩ := hspells
      exact ⟨tokens, behind, formula_careful htokens hlaid hread, hlaid, hbehind⟩
    · rintro ⟨formula, tokens, behind, htokens, hlaid⟩
      by_contra hnone
      obtain ⟨refusal, hrefused⟩ := h.refused fun other hother => hnone ⟨other, hother⟩
      rw [read_complete htokens hlaid] at hrefused
      cases hrefused
  · rintro ⟨hcareful, hbegins⟩
    refine ⟨fun formula hspells => read_careful (hcareful formula hspells), fun hnone => ?_⟩
    cases hread : read text with
    | error refusal => exact ⟨refusal, rfl⟩
    | ok formula =>
      obtain ⟨tokens, behind, htokens, hlaid⟩ := read_sound hread
      obtain ⟨other, hother⟩ := hbegins ⟨formula, tokens, behind, htokens, hlaid⟩
      exact absurd hother (hnone other)

/-- A string with a parenthesis in it. -/
theorem means_not_parenthesis : ¬ Means (ascii "exist(T where(a=const('b)')))") := by
  intro h
  have hread : read (ascii "exist(T where(a=const('b)')))") =
      .error ⟨ascii "no ')'", ascii "')))"⟩ := by decide +kernel
  have htokens : FormulaTokens al ⟨.exist, false, ascii "T", [], [⟨ascii "a", .const, ascii "b)"⟩]⟩
      ([] ++ [ascii "exist", [openParen], ascii "T"] ++ [] ++ ([ascii "where", [openParen]] ++
        (([ascii "a", [equals]] ++ [ascii "const", region (ascii "'b)'")]) ++ [[closeParen]])) ++
        [[closeParen]]) :=
    .mk .none (show (ascii "exist", Kind.exist) ∈ kinds by decide +kernel) rfl
        (.word (isWord_of_all (List.cons_ne_nil _ _) rfl)) .none
      (.terms rfl (.last (.mk (.word (isWord_of_all (List.cons_ne_nil _ _) rfl))
          (.const rfl (.literal (ascii "b)"))))))
  have hword : ∀ {token text rest : Bytes}, IsWord token → text.dropWhile isSpace = token ++ rest →
      (rest.head?.all fun c => !isWordChar c) = true → Laid [token] text rest := by
    intro token text rest htoken htext hends
    refine (laid_word htoken).mpr ⟨htext, fun c hc => ?_⟩
    rw [hc] at hends
    simpa using hends
  have hlaid : Laid ([] ++ [ascii "exist", [openParen], ascii "T"] ++ [] ++ ([ascii "where", [openParen]] ++
        (([ascii "a", [equals]] ++ [ascii "const", region (ascii "'b)'")]) ++ [[closeParen]])) ++
        [[closeParen]]) (ascii "exist(T where(a=const('b)')))") [] :=
    laid_cons.mpr ⟨ascii "(T where(a=const('b)')))", hword (isWord_of_all (List.cons_ne_nil _ _) rfl) rfl rfl,
      laid_cons.mpr ⟨ascii "T where(a=const('b)')))", (laid_mark markOpen).mpr rfl,
      laid_cons.mpr ⟨ascii " where(a=const('b)')))", hword (isWord_of_all (List.cons_ne_nil _ _) rfl) rfl rfl,
      laid_cons.mpr ⟨ascii "(a=const('b)')))", hword (isWord_of_all (List.cons_ne_nil _ _) rfl) rfl rfl,
      laid_cons.mpr ⟨ascii "a=const('b)')))", (laid_mark markOpen).mpr rfl,
      laid_cons.mpr ⟨ascii "=const('b)')))", hword (isWord_of_all (List.cons_ne_nil _ _) rfl) rfl rfl,
      laid_cons.mpr ⟨ascii "const('b)')))", (laid_mark markEquals).mpr rfl,
      laid_cons.mpr ⟨ascii "('b)')))", hword (isWord_of_all (List.cons_ne_nil _ _) rfl) rfl rfl,
      laid_cons.mpr ⟨ascii "))", laid_region.mpr rfl,
      laid_cons.mpr ⟨ascii ")", (laid_mark markClose).mpr rfl, (laid_mark markClose).mpr rfl⟩⟩⟩⟩⟩⟩⟩⟩⟩⟩
  have hformula := h.formula _ ⟨_, [], htokens, hlaid, fun c hc => absurd hc List.not_mem_nil⟩
  rw [hread] at hformula
  cases hformula

end Agiru.Formula
