import Agiru.Formula.Tokens

/-! The reader reads exactly the texts that begin with a formula of its dialect (`read_iff`). -/
namespace Agiru.Formula
open Bytes
open Fallible

variable {terms : List FlowTerm}
variable {token keyword text rest value : Bytes} {tokens : List Bytes}
variable {formula : FlowFormula}

/-! ### Keywords -/

theorem isWord_of_means (h : means token keyword = true) (hkeyword : IsWord keyword) : IsWord token := by
  have hlower : ∀ c : UInt8, isWordChar (lower c) = isWordChar c := by
    intro c
    unfold lower isWordChar isDigit
    grind
  have hsame : token.map lower = keyword.map lower := of_decide_eq_true h
  constructor
  · rintro rfl
    exact hkeyword.1 (List.map_eq_nil_iff.mp hsame.symm)
  · intro c hc
    have hmem : lower c ∈ keyword.map lower := hsame ▸ List.mem_map_of_mem hc
    obtain ⟨d, hd, heq⟩ := List.mem_map.mp hmem
    rw [← hlower c, ← heq, hlower d]
    exact hkeyword.2 d hd

theorem isWord_of_all (hne : token ≠ []) (h : token.all isWordChar = true) : IsWord token :=
  ⟨hne, List.all_eq_true.mp h⟩

theorem isWord_const : IsWord (ascii "const") := isWord_of_all (List.cons_ne_nil _ _) rfl
theorem isWord_filter : IsWord (ascii "filter") := isWord_of_all (List.cons_ne_nil _ _) rfl
theorem isWord_field : IsWord (ascii "field") := isWord_of_all (List.cons_ne_nil _ _) rfl
theorem isWord_upperlimit : IsWord (ascii "upperlimit") := isWord_of_all (List.cons_ne_nil _ _) rfl
theorem isWord_where : IsWord (ascii "where") := isWord_of_all (List.cons_ne_nil _ _) rfl

/-- Of a name the reader sees a keyword exactly where it is one. -/
theorem means_peek {name : Bytes} (hname : NameToken token name)
    (hlaid : Laid [token] text rest) (hkeyword : IsWord keyword) :
    means (peek text) keyword = means token keyword := by
  cases hname with
  | word hword => rw [peek_word hword hlaid]
  | quoted hplain =>
    have hpeek : peek text = [] := by
      rw [peek, space, laid_quoted.mp hlaid]
      rfl
    have hnone : ∀ word, ¬ IsWord word → means word keyword = false := by
      intro word hword
      rw [← Bool.not_eq_true]
      exact fun h => hword (isWord_of_means h hkeyword)
    rw [hpeek, hnone _ fun h => h.1 rfl, hnone _ fun h => absurd (h.2 _ List.mem_cons_self) (by decide)]

/-! ### Fields -/

/-- A word and the parenthesis behind it. -/
theorem opened_iff : (∃ mid, word text = .ok (keyword, mid) ∧ expect Ch.openParen mid = .ok rest) ↔
      IsWord keyword ∧ Laid [keyword, [Ch.openParen]] text rest := by
  rw [laid_cons]
  constructor
  · rintro ⟨mid, hword, hopen⟩
    obtain ⟨hisWord, hlaid⟩ := word_iff.mp hword
    exact ⟨hisWord, mid, hlaid, (expect_iff markOpen).mp hopen⟩
  · rintro ⟨hisWord, mid, hlaid, hopen⟩
    exact ⟨mid, word_iff.mpr ⟨hisWord, hlaid⟩, (expect_iff markOpen).mpr hopen⟩

theorem closedName_iff : closedName text = .ok (value, rest) ↔
    ∃ token, NameToken token value ∧ Laid [token, [Ch.closeParen]] text rest := by
  constructor
  · intro h
    obtain ⟨⟨name, mid⟩, hname, h⟩ := of_bind h
    obtain ⟨behind, hclose, h⟩ := of_bind h
    cases h
    obtain ⟨token, htoken, hlaid⟩ := name_iff.mp hname
    exact ⟨token, htoken, laid_cons.mpr ⟨mid, hlaid, (expect_iff markClose).mp hclose⟩⟩
  · rintro ⟨token, htoken, hlaid⟩
    obtain ⟨mid, hlaid, hclose⟩ := laid_cons.mp hlaid
    refine (bind_ok (name_iff.mpr ⟨token, htoken, hlaid⟩)).trans ?_
    exact bind_ok ((expect_iff markClose).mpr hclose)

/-- A keyword, once it was seen, is read. -/
theorem peek_means {mid : Bytes} (h : means (peek text) keyword = true)
    (hword : word text = .ok (token, mid)) : means token keyword = true := by
  obtain ⟨hisWord, hlaid⟩ := word_iff.mp hword
  rwa [peek_word hisWord hlaid] at h

theorem readField_sound {how : How} (h : readField text = .ok ((how, value), rest)) :
    ∃ tokens, FieldTokens counted how value tokens ∧ Laid tokens text rest := by
  unfold readField at h
  split at h
  · next hlimit =>
    obtain ⟨⟨limit, mid⟩, hword, h⟩ := of_bind h
    obtain ⟨inner, hopen, h⟩ := of_bind h
    have hlimit := peek_means hlimit hword
    have hopened := (opened_iff.mp ⟨mid, hword, hopen⟩).2
    dsimp only at h
    split at h
    · next hfilter =>
      obtain ⟨⟨filter, mid⟩, hword, h⟩ := of_bind h
      obtain ⟨innermost, hopen, h⟩ := of_bind h
      obtain ⟨⟨name, behind⟩, hname, h⟩ := of_bind h
      obtain ⟨behind', hclose, h⟩ := of_bind h
      cases h
      obtain ⟨token, htoken, hlaid⟩ := closedName_iff.mp hname
      have hfilter := peek_means hfilter hword
      have hinner := (opened_iff.mp ⟨mid, hword, hopen⟩).2
      exact ⟨_, .limitFilter hlimit hfilter htoken,
        ((hopened.append hinner).append hlaid).append ((expect_iff markClose).mp hclose)⟩
    · next hfilter =>
      obtain ⟨⟨name, behind⟩, hname, h⟩ := of_bind h
      cases h
      obtain ⟨token, htoken, hlaid⟩ := closedName_iff.mp hname
      obtain ⟨mid, hfirst, -⟩ := laid_cons.mp hlaid
      have hplain : counted.limitName token := by
        rw [means_peek htoken hfirst isWord_filter, Bool.not_eq_true] at hfilter
        exact hfilter
      exact ⟨_, .limit hlimit htoken hplain, hopened.append hlaid⟩
  · next hlimit =>
    split at h
    · next hfilter =>
      obtain ⟨⟨filter, mid⟩, hword, h⟩ := of_bind h
      obtain ⟨inner, hopen, h⟩ := of_bind h
      obtain ⟨⟨name, behind⟩, hname, h⟩ := of_bind h
      cases h
      obtain ⟨token, htoken, hlaid⟩ := closedName_iff.mp hname
      have hfilter := peek_means hfilter hword
      have hopened := (opened_iff.mp ⟨mid, hword, hopen⟩).2
      exact ⟨_, .filter hfilter htoken, hopened.append hlaid⟩
    · next hfilter =>
      obtain ⟨⟨name, behind⟩, hname, h⟩ := of_bind h
      cases h
      obtain ⟨token, htoken, hlaid⟩ := name_iff.mp hname
      rw [means_peek htoken hlaid isWord_upperlimit, Bool.not_eq_true] at hlimit
      rw [means_peek htoken hlaid isWord_filter, Bool.not_eq_true] at hfilter
      exact ⟨_, .field htoken ⟨hlimit, hfilter⟩, hlaid⟩

/-- No word is two keywords. -/
theorem means_other {other : Bytes} (h : means token keyword = true)
    (hdiffer : keyword.map lower ≠ other.map lower) : means token other = false := by
  rw [← Bool.not_eq_true]
  intro hother
  exact hdiffer ((of_decide_eq_true h).symm.trans (of_decide_eq_true hother))

/-- A keyword that is laid first is seen, and is read with the parenthesis behind it. -/
theorem opened_keyword (h : means token keyword = true)
    (hkeyword : IsWord keyword) (hlaid : Laid [token, [Ch.openParen]] text rest) :
    peek text = token ∧ ∃ mid, word text = .ok (token, mid) ∧ expect Ch.openParen mid = .ok rest := by
  have hword := isWord_of_means h hkeyword
  obtain ⟨mid, hfirst, -⟩ := laid_cons.mp hlaid
  exact ⟨peek_word hword hfirst, opened_iff.mpr ⟨hword, hlaid⟩⟩

theorem readField_complete {how : How} (h : FieldTokens counted how value tokens) (hlaid : Laid tokens text rest) :
    readField text = .ok ((how, value), rest) := by
  unfold readField
  cases h with
  | @field token value hname hplain =>
    rw [means_peek hname hlaid isWord_upperlimit, hplain.1, if_neg Bool.false_ne_true,
      means_peek hname hlaid isWord_filter, hplain.2, if_neg Bool.false_ne_true]
    exact bind_ok (name_iff.mpr ⟨token, hname, hlaid⟩)
  | @filter filter token value hfilter hname =>
    obtain ⟨behind, hopened, hclosed⟩ := laid_two.mp hlaid
    obtain ⟨hpeek, mid, hword, hopen⟩ := opened_keyword hfilter isWord_filter hopened
    rw [hpeek, means_other hfilter (by decide), if_neg Bool.false_ne_true, hfilter, if_pos rfl]
    exact (bind_ok hword).trans <| (bind_ok hopen).trans <|
      bind_ok (closedName_iff.mpr ⟨token, hname, hclosed⟩)
  | @limit limit token value hlimit hname hplain =>
    obtain ⟨behind, hopened, hclosed⟩ := laid_two.mp hlaid
    obtain ⟨hpeek, mid, hword, hopen⟩ := opened_keyword hlimit isWord_upperlimit hopened
    obtain ⟨ends, hfirst, -⟩ := laid_cons.mp hclosed
    rw [hpeek, hlimit, if_pos rfl]
    refine (bind_ok hword).trans ((bind_ok hopen).trans ?_)
    rw [means_peek hname hfirst isWord_filter, show means token (ascii "filter") = false from hplain,
      if_neg Bool.false_ne_true]
    exact bind_ok (closedName_iff.mpr ⟨token, hname, hclosed⟩)
  | @limitFilter limit filter token value hlimit hfilter hname =>
    obtain ⟨behind, hopened, hinner⟩ := laid_two.mp hlaid
    obtain ⟨innermost, hopenedInner, hrest⟩ := laid_two.mp hinner
    obtain ⟨behind', hclosed, hclose⟩ := laid_two.mp hrest
    obtain ⟨hpeek, mid, hword, hopen⟩ := opened_keyword hlimit isWord_upperlimit hopened
    obtain ⟨hpeek', mid', hword', hopen'⟩ := opened_keyword hfilter isWord_filter hopenedInner
    rw [hpeek, hlimit, if_pos rfl]
    refine (bind_ok hword).trans ((bind_ok hopen).trans ?_)
    rw [hpeek', hfilter, if_pos rfl]
    exact (bind_ok hword').trans <| (bind_ok hopen').trans <|
      (bind_ok (closedName_iff.mpr ⟨token, hname, hclosed⟩)).trans <|
        bind_ok ((expect_iff markClose).mpr hclose)

/-! ### Terms -/

/-- The word of a term and what is read behind its parenthesis. -/
def readMeant (text : Bytes) : Except Refusal ((How × Bytes) × Bytes) := do
  let (how, text) ← word text
  let text ← expect Ch.openParen text
  readHow how text

theorem readMeant_sound {how : How} (h : readMeant text = .ok ((how, value), rest)) :
    ∃ tokens, HowTokens counted how value tokens ∧ Laid tokens text rest := by
  obtain ⟨⟨keyword, mid⟩, hword, h⟩ := of_bind h
  obtain ⟨inner, hopen, h⟩ := of_bind h
  have hlaid := (word_iff.mp hword).2
  unfold readHow at h
  split at h
  · next hconst =>
    obtain ⟨⟨raw, behind⟩, hraw, h⟩ := of_bind h
    cases h
    obtain ⟨hcounted, hregion⟩ := region_iff.mp ⟨inner, hopen, hraw⟩
    exact ⟨_, .const hconst ⟨hcounted, rfl⟩, laid_cons.mpr ⟨mid, hlaid, hregion⟩⟩
  · split at h
    · next hfilter =>
      obtain ⟨⟨raw, behind⟩, hraw, h⟩ := of_bind h
      cases h
      obtain ⟨hcounted, hregion⟩ := region_iff.mp ⟨inner, hopen, hraw⟩
      exact ⟨_, .filter hfilter ⟨hcounted, rfl⟩, laid_cons.mpr ⟨mid, hlaid, hregion⟩⟩
    · split at h
      · next hfield =>
        obtain ⟨⟨⟨kind, name⟩, behind⟩, hread, h⟩ := of_bind h
        obtain ⟨behind', hclose, h⟩ := of_bind h
        cases h
        obtain ⟨tokens, htokens, hfield'⟩ := readField_sound hread
        exact ⟨_, .field hfield htokens, ((opened_iff.mp ⟨mid, hword, hopen⟩).2.append hfield').append
          ((expect_iff markClose).mp hclose)⟩
      · cases h

theorem readMeant_complete {how : How} (h : HowTokens counted how value tokens) (hlaid : Laid tokens text rest) :
    readMeant text = .ok ((how, value), rest) := by
  cases h with
  | @const keyword raw value hhow hvalue =>
    obtain ⟨mid, hfirst, hregion⟩ := laid_cons.mp hlaid
    obtain ⟨inner, hopen, hraw⟩ := region_iff.mpr ⟨hvalue.1, hregion⟩
    refine (bind_ok (word_iff.mpr ⟨isWord_of_means hhow isWord_const, hfirst⟩)).trans
      ((bind_ok hopen).trans ?_)
    rw [readHow, hhow, if_pos rfl]
    refine (bind_ok hraw).trans ?_
    rw [← hvalue.2]
    rfl
  | @filter keyword raw value hhow hvalue =>
    obtain ⟨mid, hfirst, hregion⟩ := laid_cons.mp hlaid
    obtain ⟨inner, hopen, hraw⟩ := region_iff.mpr ⟨hvalue.1, hregion⟩
    refine (bind_ok (word_iff.mpr ⟨isWord_of_means hhow isWord_filter, hfirst⟩)).trans
      ((bind_ok hopen).trans ?_)
    rw [readHow, means_other hhow (by decide), if_neg Bool.false_ne_true, hhow, if_pos rfl]
    refine (bind_ok hraw).trans ?_
    rw [← hvalue.2]
    rfl
  | @field keyword value kind tokens hhow hfield =>
    obtain ⟨behind, hinner, hclose⟩ := Spaced.append_iff.mp hlaid
    obtain ⟨inner, hopened, hfieldLaid⟩ := Spaced.append_iff.mp hinner
    obtain ⟨-, mid, hword, hopen⟩ := opened_keyword hhow isWord_field hopened
    refine (bind_ok hword).trans ((bind_ok hopen).trans ?_)
    rw [readHow, means_other hhow (by decide), if_neg Bool.false_ne_true, means_other hhow (by decide),
      if_neg Bool.false_ne_true, hhow, if_pos rfl]
    exact (bind_ok (readField_complete hfield hfieldLaid)).trans
      (bind_ok ((expect_iff markClose).mpr hclose))

theorem readTerm_eq (text : Bytes) : readTerm text = do
    let (target, text) ← name text
    let text ← expect Ch.equals text
    let ((how, value), text) ← readMeant text
    return (⟨target, how, value⟩, text) := by
  unfold readTerm readMeant
  simp only [bind_assoc]

theorem readTerm_iff {term : FlowTerm} :
    readTerm text = .ok (term, rest) ↔ ∃ tokens, TermTokens counted term tokens ∧ Laid tokens text rest := by
  rw [readTerm_eq]
  constructor
  · intro h
    obtain ⟨⟨target, mid⟩, hname, h⟩ := of_bind h
    obtain ⟨behind, hequals, h⟩ := of_bind h
    obtain ⟨⟨⟨how, value⟩, behind'⟩, hmeant, h⟩ := of_bind h
    cases h
    obtain ⟨token, htoken, hlaid⟩ := name_iff.mp hname
    obtain ⟨tokens, htokens, hrest⟩ := readMeant_sound hmeant
    exact ⟨_, .mk htoken htokens, (hlaid.append ((expect_iff markEquals).mp hequals)).append hrest⟩
  · rintro ⟨tokens, htokens, hlaid⟩
    cases htokens with
    | @mk token name value how tokens hname hhow =>
      obtain ⟨mid, hfirst, hrest⟩ := Spaced.append_iff.mp hlaid
      obtain ⟨behind, htarget, hequals⟩ := laid_cons.mp hfirst
      exact (bind_ok (name_iff.mpr ⟨token, hname, htarget⟩)).trans <|
        (bind_ok ((expect_iff markEquals).mpr hequals)).trans <|
          bind_ok (readMeant_complete hhow hrest)

theorem take_none {c d : UInt8} (hd : Mark d) (hdiffer : d ≠ c) (h : Laid [[d]] text rest) : take c text = none := by
  rw [take, space, (laid_mark hd).mp h]
  exact if_neg hdiffer

theorem take_none_word {c : UInt8} (hc : Mark c) (hword : IsWord token)
    (h : Laid [token] text rest) : take c text = none := by
  obtain ⟨d, behind, rfl⟩ := List.exists_cons_of_ne_nil hword.1
  have hd := hword.2 d List.mem_cons_self
  rw [take, space, ((laid_word hword).mp h).1]
  refine if_neg ?_
  rintro rfl
  rw [hc.word] at hd
  cases hd

/-- A turn reads a term, and a comma and the rest, or the parenthesis. -/
theorem readTerms_turn {turns : Nat} (h : readTerms (turns + 1) text = .ok (terms, rest)) :
    ∃ term mid, readTerm text = .ok (term, mid) ∧
      ((∃ behind others, take Ch.comma mid = some behind ∧ readTerms turns behind = .ok (others, rest) ∧
          terms = term :: others) ∨
        (take Ch.comma mid = none ∧ expect Ch.closeParen mid = .ok rest ∧ terms = [term])) := by
  obtain ⟨⟨term, mid⟩, hterm, h⟩ := of_bind h
  refine ⟨term, mid, hterm, ?_⟩
  dsimp only at h
  cases hcomma : take Ch.comma mid with
  | some behind =>
    rw [hcomma] at h
    obtain ⟨⟨others, behind'⟩, hothers, h⟩ := of_bind h
    cases h
    exact .inl ⟨behind, others, rfl, hothers, rfl⟩
  | none =>
    rw [hcomma] at h
    obtain ⟨behind, hclose, h⟩ := of_bind h
    cases h
    exact .inr ⟨rfl, hclose, rfl⟩

theorem readTerms_sound {turns : Nat} (h : readTerms turns text = .ok (terms, rest)) :
    ∃ tokens, TermsTokens counted terms tokens ∧ Laid tokens text rest := by
  induction turns generalizing text terms with
  | zero => cases h
  | succ turns ih =>
    obtain ⟨term, mid, hterm, ⟨behind, others, hcomma, hothers, rfl⟩ | ⟨-, hclose, rfl⟩⟩ := readTerms_turn h
    · obtain ⟨tokens, htokens, hlaid⟩ := readTerm_iff.mp hterm
      obtain ⟨otherTokens, hotherTokens, hrest⟩ := ih hothers
      exact ⟨_, .cons htokens hotherTokens, (hlaid.append ((take_iff markComma).mp hcomma)).append hrest⟩
    · obtain ⟨tokens, htokens, hlaid⟩ := readTerm_iff.mp hterm
      exact ⟨_, .last htokens, hlaid.append ((expect_iff markClose).mp hclose)⟩

theorem readTerms_complete (h : TermsTokens counted terms tokens)
    {turns : Nat} (hturns : terms.length ≤ turns) (hlaid : Laid tokens text rest) :
    readTerms turns text = .ok (terms, rest) := by
  induction h generalizing turns text with
  | @last term tokens hterm =>
    obtain ⟨turns, rfl⟩ : ∃ n, turns = n + 1 := ⟨turns - 1, by simp at hturns; omega⟩
    obtain ⟨mid, hfirst, hclose⟩ := Spaced.append_iff.mp hlaid
    refine (bind_ok (readTerm_iff.mpr ⟨tokens, hterm, hfirst⟩)).trans ?_
    have hcomma : take Ch.comma mid = none := take_none markClose (by decide) hclose
    dsimp only
    rw [hcomma]
    exact bind_ok ((expect_iff markClose).mpr hclose)
  | @cons term terms tokens others hterm _ ih =>
    obtain ⟨turns, rfl⟩ : ∃ n, turns = n + 1 := ⟨turns - 1, by simp at hturns; omega⟩
    obtain ⟨behind, hfront, hothers⟩ := Spaced.append_iff.mp hlaid
    obtain ⟨mid, hfirst, hcomma⟩ := Spaced.append_iff.mp hfront
    refine (bind_ok (readTerm_iff.mpr ⟨tokens, hterm, hfirst⟩)).trans ?_
    dsimp only
    rw [(take_iff markComma).mpr hcomma]
    exact bind_ok (ih (by simpa using hturns) hothers)

theorem laid_length (h : Laid tokens text rest) : (tokens.map List.length).sum + rest.length ≤ text.length := by
  induction h with
  | nil => simp
  | cons hbefore hends htokens ih =>
    simp only [List.map_cons, List.sum_cons, List.length_append]
    omega

theorem terms_length {d : Dialect} (h : TermsTokens d terms tokens) : terms.length ≤ (tokens.map List.length).sum := by
  induction h with
  | last hterm => simp
  | cons hterm _ ih =>
    simp only [List.length_cons, List.map_append, List.sum_append, List.map_cons, List.sum_cons]
    omega

/-! ### The formula -/

theorem kindOf_iff {word : Bytes} {kind : Kind} :
    kindOf word text = .ok kind ↔ ∃ keyword, (keyword, kind) ∈ kinds ∧ means word keyword = true := by
  have hsymm : ∀ a b, means a b = means b a := by
    intro a b
    exact decide_eq_decide.mpr eq_comm
  constructor
  · intro h
    unfold kindOf at h
    split at h
    · next one hfind =>
      cases h
      have hmeans : means one.1 word = true := by simpa using List.find?_some hfind
      exact ⟨one.1, List.mem_of_find?_eq_some hfind, (hsymm _ _).trans hmeans⟩
    · cases h
  · rintro ⟨keyword, hmem, hmeans⟩
    have hsame : ∀ one : Bytes × Kind, means one.1 word = means one.1 keyword := by
      intro one
      unfold means sameText
      rw [of_decide_eq_true hmeans]
    unfold kindOf
    simp only [hsame]
    simp only [kinds, List.mem_cons, Prod.mk.injEq, List.not_mem_nil, or_false] at hmem
    rcases hmem with
      ⟨rfl, rfl⟩ | ⟨rfl, rfl⟩ | ⟨rfl, rfl⟩ | ⟨rfl, rfl⟩ | ⟨rfl, rfl⟩ | ⟨rfl, rfl⟩ | ⟨rfl, rfl⟩ <;> rfl

theorem isWord_kind {kind : Kind} (h : (keyword, kind) ∈ kinds) : IsWord keyword := by
  have hall : kinds.all (fun one => !one.1.isEmpty && one.1.all isWordChar) = true := rfl
  have hone := List.all_eq_true.mp hall _ h
  rw [Bool.and_eq_true] at hone
  exact isWord_of_all (by simpa using hone.1) hone.2

theorem readColumn_sound {field : Bytes} (h : readColumn text = .ok (field, rest)) :
    ∃ tokens, ColumnTokens field tokens ∧ Laid tokens text rest := by
  unfold readColumn at h
  split at h
  · next mid hdot =>
    obtain ⟨token, htoken, hlaid⟩ := name_iff.mp h
    exact ⟨_, .named htoken, laid_cons.mpr ⟨mid, (take_iff markDot).mp hdot, hlaid⟩⟩
  · cases h
    exact ⟨[], .none, .nil text⟩

theorem readColumn_complete {field : Bytes} (h : ColumnTokens field tokens)
    (hlaid : Laid tokens text rest) (hdot : take Ch.dot rest = none) : readColumn text = .ok (field, rest) := by
  unfold readColumn
  cases h with
  | @named token name hname =>
    obtain ⟨mid, hfirst, hlaid⟩ := laid_cons.mp hlaid
    rw [(take_iff markDot).mpr hfirst]
    exact name_iff.mpr ⟨token, hname, hlaid⟩
  | none =>
    obtain rfl := Spaced.nil_iff.mp hlaid
    rw [hdot]

theorem readClause_sound (h : readClause text = .ok (terms, rest)) :
    ∃ tokens, ClauseTokens counted terms tokens ∧ Laid tokens text rest := by
  unfold readClause at h
  split at h
  · next hwhere =>
    obtain ⟨⟨clause, mid⟩, hword, h⟩ := of_bind h
    obtain ⟨inner, hopen, h⟩ := of_bind h
    obtain ⟨tokens, htokens, hlaid⟩ := readTerms_sound h
    exact ⟨_, .terms (peek_means hwhere hword) htokens, (opened_iff.mp ⟨mid, hword, hopen⟩).2.append hlaid⟩
  · cases h
    exact ⟨[], .none, .nil text⟩

theorem readClause_complete (h : ClauseTokens counted terms tokens) (hlaid : Laid tokens text rest)
    (hwhere : means (peek rest) (ascii "where") = false) : readClause text = .ok (terms, rest) := by
  unfold readClause
  cases h with
  | @terms clause terms tokens hclause hterms =>
    obtain ⟨inner, hopened, hlaid⟩ := Spaced.append_iff.mp hlaid
    obtain ⟨hpeek, mid, hword, hopen⟩ := opened_keyword hclause isWord_where hopened
    rw [hpeek, hclause, if_pos rfl]
    refine (bind_ok hword).trans ((bind_ok hopen).trans ?_)
    have hlength := laid_length hlaid
    have hterms' := terms_length hterms
    exact readTerms_complete hterms (by omega) hlaid
  | none =>
    obtain rfl := Spaced.nil_iff.mp hlaid
    rw [hwhere, if_neg Bool.false_ne_true]

theorem readSign_sound (text : Bytes) :
    ∃ tokens, SignTokens (readSign text).1 tokens ∧ Laid tokens text (readSign text).2 := by
  unfold readSign
  split
  · next rest hminus => exact ⟨_, .minus, (take_iff markMinus).mp hminus⟩
  · exact ⟨[], .none, .nil text⟩

theorem readSign_complete {reverseSign : Bool}
    (h : SignTokens reverseSign tokens) (hlaid : Laid tokens text rest) (hminus : take Ch.minus rest = none) :
    readSign text = (reverseSign, rest) := by
  unfold readSign
  cases h with
  | minus => rw [(take_iff markMinus).mpr hlaid]
  | none =>
    obtain rfl := Spaced.nil_iff.mp hlaid
    rw [hminus]

theorem read_sound (h : read text = .ok formula) :
    ∃ tokens rest, FormulaTokens counted formula tokens ∧ Laid tokens text rest := by
  obtain ⟨sign, hsign, hsignLaid⟩ := readSign_sound text
  unfold read at h
  obtain ⟨⟨token, mid⟩, hword, h⟩ := of_bind h
  obtain ⟨kind, hkind, h⟩ := of_bind h
  obtain ⟨behind, hopen, h⟩ := of_bind h
  obtain ⟨⟨table, behindTable⟩, htable, h⟩ := of_bind h
  obtain ⟨⟨field, behindField⟩, hfield, h⟩ := of_bind h
  obtain ⟨⟨terms, behindTerms⟩, hterms, h⟩ := of_bind h
  obtain ⟨rest, hclose, h⟩ := of_bind h
  cases h
  obtain ⟨keyword, hmem, hmeans⟩ := kindOf_iff.mp hkind
  have hopened := (opened_iff.mp ⟨mid, hword, hopen⟩).2
  obtain ⟨tableToken, htableToken, htableLaid⟩ := name_iff.mp htable
  obtain ⟨column, hcolumn, hcolumnLaid⟩ := readColumn_sound hfield
  obtain ⟨clause, hclause, hclauseLaid⟩ := readClause_sound hterms
  refine ⟨_, rest, .mk hsign hmem hmeans htableToken hcolumn hclause, ?_⟩
  exact (((hsignLaid.append (hopened.append htableLaid)).append hcolumnLaid).append hclauseLaid).append
    ((expect_iff markClose).mp hclose)

/-- Behind the table and its field stands `where`, or the parenthesis. -/
theorem clause_dot {d : Dialect} {clause : List Bytes} {mid : Bytes}
    (h : ClauseTokens d terms clause) (hlaid : Laid clause text mid) (hclose : Laid [[Ch.closeParen]] mid rest) :
    take Ch.dot text = none := by
  cases h with
  | @terms clause _ _ hclause _ =>
    obtain ⟨inner, hopened, -⟩ := Spaced.append_iff.mp hlaid
    obtain ⟨_, hfirst, -⟩ := laid_cons.mp hopened
    exact take_none_word markDot (isWord_of_means hclause isWord_where) hfirst
  | none =>
    obtain rfl := Spaced.nil_iff.mp hlaid
    exact take_none markClose (by decide) hclose

/-- What is read before the terms. -/
theorem read_front {sign column : List Bytes} {table : Bytes}
    (hsign : SignTokens formula.reverseSign sign) (hkind : (keyword, formula.kind) ∈ kinds)
    (hword : means token keyword = true) (htable : NameToken table formula.table)
    (hcolumn : ColumnTokens formula.field column)
    (hlaid : Laid (sign ++ [token, [Ch.openParen], table] ++ column) text rest) (hdot : take Ch.dot rest = none) :
    read text = (do
      let (terms, text) ← readClause rest
      let _ ← expect Ch.closeParen text
      return {formula with terms}) := by
  obtain ⟨behindTable, hlaid, hcolumnLaid⟩ := Spaced.append_iff.mp hlaid
  obtain ⟨behindSign, hsignLaid, hlaid⟩ := Spaced.append_iff.mp hlaid
  obtain ⟨behind, hopened, htableLaid⟩ := laid_two.mp hlaid
  obtain ⟨-, mid, hwordRead, hopen⟩ := opened_keyword hword (isWord_kind hkind) hopened
  obtain ⟨hisWord, hwordLaid⟩ := word_iff.mp hwordRead
  unfold read
  rw [readSign_complete hsign hsignLaid (take_none_word markMinus hisWord hwordLaid)]
  exact (bind_ok hwordRead).trans <|
    (bind_ok (kindOf_iff.mpr ⟨keyword, hkind, hword⟩)).trans <|
      (bind_ok hopen).trans <|
        (bind_ok (name_iff.mpr ⟨table, htable, htableLaid⟩)).trans <|
          bind_ok (readColumn_complete hcolumn hcolumnLaid hdot)

theorem read_complete
    (h : FormulaTokens counted formula tokens) (hlaid : Laid tokens text rest) : read text = .ok formula := by
  cases h with
  | mk hsign hkind hword htable hcolumn hclause =>
    obtain ⟨behindTerms, hlaid, hclose⟩ := Spaced.append_iff.mp hlaid
    obtain ⟨behindField, hlaid, hclauseLaid⟩ := Spaced.append_iff.mp hlaid
    have hwhere : means (peek behindTerms) (ascii "where") = false := by
      rw [peek, space, (laid_mark markClose).mp hclose]
      rfl
    rw [read_front hsign hkind hword htable hcolumn hlaid (clause_dot hclause hclauseLaid hclose)]
    exact (bind_ok (readClause_complete hclause hclauseLaid hwhere)).trans
      (bind_ok ((expect_iff markClose).mpr hclose))

end Agiru.Formula
