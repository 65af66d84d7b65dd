import Agiru.Al.Consumed

/-! Every function of the reader is as specified, if the calls that it makes are; so `ParseStatements` makes of every
list of tokens what it should. -/
namespace Agiru.Al
open Fuel

variable {part : Part}

section
variable {rec : Reader} {depth : Nat} {tokens middle : List Token} {texts : List String}

/-- The calls of lesser need are as specified. -/
def Below (rec : Reader) (call : Call) : Prop :=
  ∀ call', call'.need < call.need → Safe (rec call') call'.Spec

/-- A call for the same tokens. -/
theorem Below.first (h : Below rec ⟨depth, part, tokens⟩) (depth' : Nat) (part' : Part)
    (hrank : part'.rank < part.rank) :
    Safe (rec ⟨depth', part', tokens⟩) (Call.Spec ⟨depth', part', tokens⟩) :=
  h _ (need_of_rank (Nat.le_refl _) hrank)

/-- A call after tokens were passed. -/
theorem Passes.call (h : Passes tokens middle texts)
    (hbelow : Below rec ⟨depth, part, tokens⟩) (depth' : Nat) (part' : Part)
    (hknown : part'.known = []) :
    Safe (rec ⟨depth', part', middle⟩) fun read =>
      Passes tokens read.2 (texts ++ part'.texts read.1) :=
  (hbelow _ (need_of_shorter h.shorter)).imp fun _ hread => h.trans (hread.fresh hknown)

theorem Passes.expect {what : String} (h : Passes tokens middle texts)
    (hwhat : what ∈ keywords ∨ what ∈ separators) :
    Safe (expect what middle) fun rest => Passes tokens rest texts :=
  (expect_dropped hwhat middle).imp fun _ hrest => h.skip hrest.covers

theorem Passes.semicolons (h : Passes tokens middle texts) :
    Passes tokens (skipSemicolons middle) texts :=
  h.skip (skipSemicolons_covers middle)

/-- What was read from a token on. -/
theorem Passes.spec {tree : part.Tree} {rest : List Token}
    (h : Passes tokens rest texts) (hknown : part.known = []) (hblock : part ≠ .block)
    (htexts : texts = part.texts tree) : Call.Spec ⟨depth, part, tokens⟩ (tree, rest) := by
  refine ⟨⟨texts, ?_, h.covers⟩, fun _ _ => h.shorter, fun heq => absurd heq hblock⟩
  rw [hknown]
  exact htexts.symm

/-- A part that advances has passed a token, if any was left for it or after it. -/
theorem Call.Spec.passes {read : Call.Read ⟨depth, part, tokens⟩}
    (h : Call.Spec ⟨depth, part, tokens⟩ read) (hknown : part.known = []) (hadvances : part.Advances)
    (hne : tokens ≠ [] ∨ read.2 ≠ []) : Passes tokens read.2 (part.texts read.1) := by
  refine ⟨h.fresh hknown, h.advances hadvances ?_⟩
  rcases hne with hne | hne
  · exact hne
  · rintro rfl
    exact hne (List.eq_nil_of_length_eq_zero (Nat.le_zero.mp h.length_le))

theorem Covers.passes {rest : List Token} {texts' : List String} (h : Covers tokens middle texts)
    (h' : Passes middle rest texts') : Passes tokens rest (texts ++ texts') :=
  ⟨h.trans h'.covers, Nat.lt_of_lt_of_le h'.shorter h.length_le⟩

theorem at_ne_nil {word : String} (h : atPunctuation tokens word = true) : tokens ≠ [] := by
  rintro rfl
  cases h

/-! ### Statements -/

theorem readBlock_safe (h : Below rec ⟨depth, .block, tokens⟩) :
    Safe (readBlock rec depth tokens) (Call.Spec ⟨depth, .block, tokens⟩) := by
  unfold readBlock
  split
  · next hstop => exact ⟨⟨[], rfl, .done tokens⟩, nofun, fun _ => hstop⟩
  · next hstop =>
    refine (h.first depth .statement (by decide)).bind ?_
    rintro ⟨statement, rest⟩ hstatement
    have hread := (hstatement.passes rfl trivial (.inl fun hnil => hstop (.inl hnil))).semicolons
    refine (h _ (need_of_shorter hread.shorter)).bind ?_
    rintro ⟨statements, rest'⟩ hstatements
    exact ⟨⟨_, rfl, hread.covers.trans (hstatements.fresh rfl)⟩, nofun, fun _ => hstatements.stops rfl⟩

theorem readIf_safe (h : Below rec ⟨depth, .statement, tokens⟩) :
    Safe (readIf rec depth tokens) (Call.Spec ⟨depth, .statement, tokens⟩) := by
  unfold readIf
  refine (expect_dropped (.inl (by decide)) tokens).bind fun _ hread => ?_
  refine (hread.call h depth .ternary rfl).bind ?_
  rintro ⟨condition, _⟩ hread
  refine (hread.expect (.inl (by decide))).bind fun _ hread => ?_
  refine (hread.call h depth .statement rfl).bind ?_
  rintro ⟨body, _⟩ hread
  dsimp only
  have hread := hread.semicolons
  split
  · next helse =>
    have hread := hread.skip
      (atKeyword_dropped (Bool.and_eq_true_iff.mp helse).2 (by decide)).covers
    refine (hread.call h depth .statement rfl).bind ?_
    rintro ⟨otherwise, _⟩ hread
    exact hread.spec rfl nofun (by simp [Part.texts, Stmt.texts, StmtKind.texts, textsAll])
  · exact hread.spec rfl nofun (by simp [Part.texts, Stmt.texts, StmtKind.texts, textsAll])

theorem expectTo_safe (tokens : List Token) :
    Safe (expectTo tokens) fun rest => Passes tokens rest [] := by
  unfold expectTo
  split
  · next hdownto => exact atKeyword_dropped hdownto (by decide)
  · exact expect_dropped (.inl (by decide)) tokens

theorem readFor_safe (h : Below rec ⟨depth, .statement, tokens⟩) :
    Safe (readFor rec depth tokens) (Call.Spec ⟨depth, .statement, tokens⟩) := by
  unfold readFor
  refine (expect_dropped (.inl (by decide)) tokens).bind fun _ hread => ?_
  refine (hread.call h depth .postfixed rfl).bind ?_
  rintro ⟨counter, _⟩ hread
  refine ((expect_word ":=" _).imp fun _ hword => hread.trans hword.covers).bind fun _ hread => ?_
  refine (hread.call h depth .ternary rfl).bind ?_
  rintro ⟨start, middle⟩ hread
  refine ((expectTo_safe middle).imp fun _ hto => hread.skip hto.covers).bind fun _ hread => ?_
  refine (hread.call h depth .ternary rfl).bind ?_
  rintro ⟨bound, _⟩ hread
  refine (hread.expect (.inl (by decide))).bind fun _ hread => ?_
  refine (hread.call h depth .statement rfl).bind ?_
  rintro ⟨body, _⟩ hread
  exact hread.spec rfl nofun
    (by simp [Part.texts, Stmt.texts, StmtKind.texts, textsAll, textsEach, Expr.texts, ExprKind.texts])

theorem readForEach_safe (h : Below rec ⟨depth, .statement, tokens⟩) :
    Safe (readForEach rec depth tokens) (Call.Spec ⟨depth, .statement, tokens⟩) := by
  unfold readForEach
  refine (expect_dropped (.inl (by decide)) tokens).bind fun _ hread => ?_
  refine (hread.call h depth .postfixed rfl).bind ?_
  rintro ⟨element, _⟩ hread
  refine (hread.expect (.inl (by decide))).bind fun _ hread => ?_
  refine (hread.call h depth .ternary rfl).bind ?_
  rintro ⟨list, _⟩ hread
  refine (hread.expect (.inl (by decide))).bind fun _ hread => ?_
  refine (hread.call h depth .statement rfl).bind ?_
  rintro ⟨body, _⟩ hread
  exact hread.spec rfl nofun
    (by simp [Part.texts, Stmt.texts, StmtKind.texts, textsAll, textsEach])

/-- A label or an item, where a token is left. -/
theorem readRange_safe (h : Below rec ⟨depth, part, tokens⟩)
    (hrank : Part.rank .ternary < part.rank) (hne : tokens ≠ []) :
    Safe (readRange rec depth tokens) fun read => Passes tokens read.2 read.1.texts := by
  unfold readRange
  refine (h.first depth .ternary hrank).bind ?_
  rintro ⟨first, rest⟩ hfirst
  have hread := hfirst.passes rfl trivial (.inl hne)
  dsimp only
  split
  · next hrange =>
    have hread := hread.trans (atPunctuation_word hrange).covers
    refine (hread.call h depth .ternary rfl).bind ?_
    rintro ⟨last, _⟩ hread
    exact Safe.pure (by simpa [Part.texts, Expr.texts, ExprKind.texts, textsEach] using hread)
  · exact Safe.pure hread

theorem readLabels_safe (h : Below rec ⟨depth, .labels, tokens⟩) :
    Safe (readLabels rec depth tokens) (Call.Spec ⟨depth, .labels, tokens⟩) := by
  unfold readLabels
  split
  · exact ⟨⟨[], rfl, .done tokens⟩, nofun, nofun⟩
  · next hstop =>
    refine (readRange_safe h (by decide) fun hnil => hstop (.inl hnil)).bind ?_
    rintro ⟨label, rest⟩ hread
    refine ((hread.skip (skipComma_covers rest)).call h depth .labels rfl).bind ?_
    rintro ⟨labels, _⟩ hread
    exact hread.spec rfl nofun (by simp [Part.texts, textsEach])

theorem readBranches_safe (h : Below rec ⟨depth, .branches, tokens⟩) :
    Safe (readBranches rec depth tokens) (Call.Spec ⟨depth, .branches, tokens⟩) := by
  unfold readBranches
  split
  · exact ⟨⟨[], rfl, .done tokens⟩, nofun, nofun⟩
  · refine (h.first depth .labels (by decide)).bind ?_
    rintro ⟨labels, rest⟩ hlabels
    have hcolon : Safe (expect ":" rest) fun body => Passes rest body [] :=
      expect_dropped (.inr (by decide)) rest
    refine (hcolon.imp fun _ hskip => (hlabels.fresh rfl).passes hskip).bind fun _ hread => ?_
    refine (hread.call h depth .statement rfl).bind ?_
    rintro ⟨body, _⟩ hread
    refine (hread.semicolons.call h depth .branches rfl).bind ?_
    rintro ⟨branches, _⟩ hread
    exact hread.spec rfl nofun
      (by simp [Part.texts, Stmt.texts, StmtKind.texts, textsAll])

theorem readElse_safe (h : Below rec ⟨depth, .statement, tokens⟩)
    (hread : Passes tokens middle texts) :
    Safe (readElse rec depth middle) fun read => Passes tokens read.2 (texts ++ textsAll read.1) := by
  unfold readElse
  split
  · next helse =>
    exact (hread.skip (atKeyword_dropped helse (by decide)).covers).call h depth .block rfl
  · exact Safe.pure (by simpa [textsAll] using hread)

theorem readCase_safe (h : Below rec ⟨depth, .statement, tokens⟩) :
    Safe (readCase rec depth tokens) (Call.Spec ⟨depth, .statement, tokens⟩) := by
  unfold readCase
  refine (expect_dropped (.inl (by decide)) tokens).bind fun _ hread => ?_
  refine (hread.call h depth .ternary rfl).bind ?_
  rintro ⟨selector, _⟩ hread
  refine (hread.expect (.inl (by decide))).bind fun _ hread => ?_
  refine (hread.call h depth .branches rfl).bind ?_
  rintro ⟨branches, middle⟩ hread
  refine (readElse_safe h hread).bind ?_
  rintro ⟨otherwise, _⟩ hread
  refine (hread.expect (.inl (by decide))).bind fun _ hread => ?_
  exact hread.spec rfl nofun (by simp [Part.texts, Stmt.texts, StmtKind.texts])

theorem readAssignment_safe (h : Below rec ⟨depth, .statement, tokens⟩) :
    Safe (readAssignment rec depth tokens) (Call.Spec ⟨depth, .statement, tokens⟩) := by
  unfold readAssignment
  refine (h.first depth .ternary (by decide)).bind ?_
  rintro ⟨value, rest⟩ hvalue
  dsimp only
  split
  · next assignment hfind =>
    have hat := List.find?_some hfind
    have hread := (hvalue.passes rfl trivial (.inr (at_ne_nil hat))).trans (atPunctuation_word hat).covers
    refine (hread.call h depth .ternary rfl).bind ?_
    rintro ⟨assigned, _⟩ hread
    have hword : assignment ∈ [":=", "+=", "-=", "*=", "/="] := List.mem_of_find?_eq_some hfind
    exact hread.spec rfl nofun
      (by simp [Part.texts, Stmt.texts, StmtKind.texts, textsEach, Expr.texts, ExprKind.texts])
  · refine ⟨⟨_, rfl, ?_⟩, hvalue.advances, nofun⟩
    simpa [Part.texts, Stmt.texts, StmtKind.texts] using hvalue.fresh rfl

/-- `begin`, `repeat`, `while` and their like are keywords of the language. -/
theorem readStatement_safe (h : Below rec ⟨depth, .statement, tokens⟩) :
    Safe (readStatement rec depth tokens) (Call.Spec ⟨depth, .statement, tokens⟩) := by
  unfold readStatement
  refine Safe.ite (fun hat => ?_) fun _ => Safe.ite (fun hat => ?_) fun _ =>
    Safe.ite (fun hat => ?_) fun _ => Safe.ite (fun _ => readFor_safe h) fun _ =>
    Safe.ite (fun _ => readForEach_safe h) fun _ => Safe.ite (fun _ => readCase_safe h) fun _ =>
    Safe.ite (fun hat => ?_) fun _ => Safe.ite (fun hat => ?_) fun _ =>
    Safe.ite (fun hat => ?_) fun _ => Safe.ite (fun hat => ?_) fun _ =>
    Safe.ite (fun _ => readIf_safe h) fun _ => Safe.ite (fun hat => ?_) fun _ => readAssignment_safe h
  -- `begin`
  · have hread := atKeyword_dropped hat (by decide)
    refine (hread.call h depth .block rfl).bind ?_
    rintro ⟨body, _⟩ hread
    refine (hread.expect (.inl (by decide))).bind fun _ hread => ?_
    exact hread.spec rfl nofun (by simp [Part.texts, Stmt.texts, StmtKind.texts])
  -- `repeat`
  · have hread := atKeyword_dropped hat (by decide)
    refine (hread.call h depth .block rfl).bind ?_
    rintro ⟨body, _⟩ hread
    refine (hread.expect (.inl (by decide))).bind fun _ hread => ?_
    refine (hread.call h depth .ternary rfl).bind ?_
    rintro ⟨condition, _⟩ hread
    exact hread.spec rfl nofun (by simp [Part.texts, Stmt.texts, StmtKind.texts])
  -- `while`
  · have hread := atKeyword_dropped hat (by decide)
    refine (hread.call h depth .ternary rfl).bind ?_
    rintro ⟨condition, _⟩ hread
    refine (hread.expect (.inl (by decide))).bind fun _ hread => ?_
    refine (hread.call h depth .statement rfl).bind ?_
    rintro ⟨body, _⟩ hread
    exact hread.spec rfl nofun (by simp [Part.texts, Stmt.texts, StmtKind.texts, textsAll])
  -- `with`
  · have hread := atKeyword_dropped hat (by decide)
    refine (hread.call h depth .ternary rfl).bind ?_
    rintro ⟨scope, _⟩ hread
    refine (hread.expect (.inl (by decide))).bind fun _ hread => ?_
    refine (hread.call h depth .statement rfl).bind ?_
    rintro ⟨body, _⟩ hread
    exact hread.spec rfl nofun (by simp [Part.texts, Stmt.texts, StmtKind.texts, textsAll])
  -- `exit`, with a value and without
  · refine Safe.ite (fun hopen => ?_) fun _ => ?_
    · have hread := (atKeyword_dropped hat (by decide)).skip
        (atPunctuation_dropped hopen (by decide)).covers
      refine (hread.call h depth .ternary rfl).bind ?_
      rintro ⟨value, _⟩ hread
      refine (hread.expect (.inr (by decide))).bind fun _ hread => ?_
      exact hread.spec rfl nofun (by simp [Part.texts, Stmt.texts, StmtKind.texts])
    · obtain ⟨token, rest, rfl, his⟩ := at_cons (by rw [hat, Bool.true_or])
      exact Passes.spec ⟨.exit token his (.done rest), Nat.lt_succ_self _⟩ rfl nofun rfl
  -- `continue` and `break`
  · exact (atKeyword_dropped (Bool.and_eq_true_iff.mp hat).1 (by decide)).spec rfl nofun
      (by simp [Part.texts, Stmt.texts, StmtKind.texts])
  · exact (atKeyword_dropped (Bool.and_eq_true_iff.mp hat).1 (by decide)).spec rfl nofun
      (by simp [Part.texts, Stmt.texts, StmtKind.texts])
  -- `asserterror`
  · have hread := atKeyword_dropped hat (by decide)
    refine (hread.call h depth .statement rfl).bind ?_
    rintro ⟨expected, _⟩ hread
    exact hread.spec rfl nofun (by simp [Part.texts, Stmt.texts, StmtKind.texts, textsAll])

/-! ### Expressions -/

theorem readTernary_safe (h : Below rec ⟨depth, .ternary, tokens⟩) :
    Safe (readTernary rec depth tokens) (Call.Spec ⟨depth, .ternary, tokens⟩) := by
  unfold readTernary
  refine (h.first depth (.expression 1) (by decide)).bind ?_
  rintro ⟨condition, rest⟩ hcondition
  refine Safe.ite (fun hat => ?_) fun _ => ?_
  · have hread := (hcondition.passes rfl trivial (.inr (at_ne_nil hat))).trans
      (atPunctuation_word hat).covers
    refine (hread.call h depth .ternary rfl).bind ?_
    rintro ⟨whenTrue, _⟩ hread
    refine Safe.ite (fun hcolon => ?_) fun _ => Safe.fail _
    have hread := hread.trans (atPunctuation_word hcolon).covers
    refine (hread.call h depth .ternary rfl).bind ?_
    rintro ⟨whenFalse, _⟩ hread
    exact hread.spec rfl nofun (by simp [Part.texts, Expr.texts, ExprKind.texts, textsEach])
  · exact ⟨⟨_, rfl, hcondition.fresh rfl⟩, hcondition.advances, nofun⟩

/-- What is peeked and passed, where a token is left. -/
theorem peek_passes (hne : tokens ≠ []) : Passes tokens tokens.tail [(peek tokens).text] := by
  cases tokens with
  | nil => exact absurd rfl hne
  | cons token rest => exact ⟨peek_covers _, Nat.lt_succ_self _⟩

theorem readOperators_safe {minimum : Nat} {left : Expr}
    (h : Below rec ⟨depth, .operators minimum left, tokens⟩) :
    Safe (readOperators rec depth minimum left tokens)
      (Call.Spec ⟨depth, .operators minimum left, tokens⟩) := by
  unfold readOperators
  refine Safe.ite (fun _ => ?_) fun hstop => ?_
  · exact ⟨⟨[], (List.append_nil _).symm, .done tokens⟩, nofun, nofun⟩
  · have hread := peek_passes fun hnil => hstop (.inl hnil)
    refine (hread.call h depth (.expression _) rfl).bind ?_
    rintro ⟨right, rest⟩ hread
    refine (h _ (need_of_shorter hread.shorter)).imp ?_
    rintro ⟨tree, _⟩ ⟨⟨new, hnew, hcovers⟩, -, -⟩
    refine ⟨⟨_, Eq.trans hnew ?_, hread.covers.trans hcovers⟩, nofun, nofun⟩
    simp [Part.texts, Part.known, Expr.texts, ExprKind.texts, textsEach]

theorem readExpression_safe {minimum : Nat} (h : Below rec ⟨depth, .expression minimum, tokens⟩) :
    Safe (readExpression rec depth minimum tokens)
      (Call.Spec ⟨depth, .expression minimum, tokens⟩) := by
  unfold readExpression
  refine Safe.ite (fun _ => Safe.fail _) fun _ => ?_
  refine (h.first (depth + 1) .unary (by simp [Part.rank])).bind ?_
  rintro ⟨left, rest⟩ hleft
  refine (h ⟨depth + 1, .operators minimum left, rest⟩ (need_of_rank hleft.length_le (by simp [Part.rank]))).imp ?_
  rintro ⟨tree, rest'⟩ hoperators
  obtain ⟨new, hnew, hcovers⟩ := hoperators.covers
  refine ⟨⟨_, hnew, (hleft.fresh rfl).trans hcovers⟩, fun _ hne => ?_, (by intro hnone; cases hnone)⟩
  exact Nat.lt_of_le_of_lt hoperators.length_le (hleft.advances trivial hne)

theorem readUnary_safe (h : Below rec ⟨depth, .unary, tokens⟩) :
    Safe (readUnary rec depth tokens) (Call.Spec ⟨depth, .unary, tokens⟩) := by
  unfold readUnary
  refine Safe.ite (fun hat => ?_) fun _ => ?_
  · have hread : Passes tokens tokens.tail [(peek tokens).text] :=
      peek_passes (by rintro rfl; cases hat)
    refine (hread.call h depth .unary rfl).bind ?_
    rintro ⟨operand, _⟩ hread
    exact hread.spec rfl nofun (by simp [Part.texts, Expr.texts, ExprKind.texts, textsEach])
  · refine (h.first depth .postfixed (by decide)).imp ?_
    rintro ⟨tree, rest⟩ haccess
    exact ⟨⟨_, rfl, haccess.fresh rfl⟩, haccess.advances, nofun⟩

theorem readList_safe {closing : String} (h : Below rec ⟨depth, .arguments closing, tokens⟩) :
    Safe (readList rec depth closing tokens) (Call.Spec ⟨depth, .arguments closing, tokens⟩) := by
  unfold readList
  refine Safe.ite (fun _ => ?_) fun hstop => ?_
  · exact ⟨⟨[], rfl, .done tokens⟩, (by intro hnone; cases hnone), (by intro hnone; cases hnone)⟩
  · refine (h.first depth .ternary (by simp [Part.rank])).bind ?_
    rintro ⟨value, rest⟩ hvalue
    have hread := hvalue.passes rfl trivial (.inl fun hnil => hstop (.inl hnil))
    refine ((hread.skip (skipComma_covers rest)).call h depth (.arguments closing) rfl).bind ?_
    rintro ⟨values, _⟩ hread
    exact hread.spec rfl (by intro hnone; cases hnone) (by simp [Part.texts, textsEach])

theorem readItems_safe (h : Below rec ⟨depth, .items, tokens⟩) :
    Safe (readItems rec depth tokens) (Call.Spec ⟨depth, .items, tokens⟩) := by
  unfold readItems
  refine Safe.ite (fun _ => ?_) fun hstop => ?_
  · exact ⟨⟨[], rfl, .done tokens⟩, nofun, nofun⟩
  · refine (readRange_safe h (by decide) fun hnil => hstop (.inl hnil)).bind ?_
    rintro ⟨item, rest⟩ hread
    refine ((hread.skip (skipComma_covers rest)).call h depth .items rfl).bind ?_
    rintro ⟨items, _⟩ hread
    exact hread.spec rfl nofun (by simp [Part.texts, textsEach])

theorem scopeNames_length (qualified : Bool) (text : String) (rest : List Token) :
    (scopeNames qualified text rest).2.length ≤ rest.length := by
  fun_induction scopeNames qualified text rest with
  | case1 text dot name after rest hdot ih =>
    simp only [List.length_cons] at ih ⊢
    omega
  | case2 | case3 => exact Nat.le_refl _

/-- The names of a scope: an unqualified one has the text of the last. -/
theorem scopeNames_unqualified (text : String) (rest : List Token) (last : Token)
    (hlast : last.text = text) :
    ∃ (names : List (Token × Token)) (final : Token),
      (∀ name ∈ names, isPunctuation name.2 "." = true) ∧
        final.text = (scopeNames false text rest).1 ∧
        names.flatMap (fun name => [name.1, name.2]) ++ final :: (scopeNames false text rest).2 =
          last :: rest := by
  fun_induction scopeNames false text rest generalizing last with
  | case1 text dot name after rest hdot ih =>
    obtain ⟨names, final, hnames, htext, htokens⟩ := ih name rfl
    simp only [Bool.and_eq_true] at hdot
    refine ⟨(last, dot) :: names, final, List.forall_mem_cons.mpr ⟨hdot.1.1, hnames⟩, htext, ?_⟩
    exact congrArg (last :: dot :: ·) htokens
  | case2 | case3 => exact ⟨[], last, nofun, hlast, rfl⟩

/-- A qualified scope has the texts of all. -/
theorem scopeNames_qualified (text : String) (rest : List Token) :
    ∃ names : List Token, (scopeNames true text rest).1 = text ++ String.join (names.map Token.text) ∧
      names ++ (scopeNames true text rest).2 = rest := by
  fun_induction scopeNames true text rest with
  | case1 text dot name after rest hdot ih =>
    obtain ⟨names, htext, htokens⟩ := ih
    simp only [Bool.and_eq_true] at hdot
    refine ⟨dot :: name :: names, ?_, congrArg (dot :: name :: ·) htokens⟩
    refine Eq.trans htext ?_
    simp [← isPunctuation_text hdot.1.1, String.append_assoc]
  | case2 | case3 => exact ⟨[], by simp, rfl⟩

theorem readScope_passes (base : Expr) (qualified : Bool) (hat : atPunctuation tokens "::" = true) :
    ∃ new, (readScope base qualified tokens).1.texts = base.texts ++ new ∧
      Passes tokens (readScope base qualified tokens).2 new := by
  obtain ⟨colons, tail, rfl, hcolons⟩ : ∃ colons tail, tokens = colons :: tail ∧
      isPunctuation colons "::" = true := by
    cases tokens with
    | nil => cases hat
    | cons colons tail => exact ⟨colons, tail, rfl, hat⟩
  refine ⟨["::", (scopeNames qualified (peek tail).text tail.tail).1], ?_, ?_, ?_⟩
  · simp [readScope, Expr.texts, ExprKind.texts, textsEach]
  · cases tail with
    | nil => exact .word colons "::" (.inr (.inr hcolons)) (.past (.done []))
    | cons last rest =>
      cases qualified with
      | false =>
        obtain ⟨names, final, hnames, htext, htokens⟩ := scopeNames_unqualified last.text rest last rfl
        have hcovers := Covers.scope colons names final hcolons hnames (.done (scopeNames false last.text rest).2)
        rw [htokens, htext] at hcovers
        exact hcovers
      | true =>
        obtain ⟨names, htext, htokens⟩ := scopeNames_qualified last.text rest
        have hcovers := Covers.qualified colons (last :: names) hcolons
          (.done (scopeNames true last.text rest).2)
        rw [List.cons_append, htokens] at hcovers
        rw [List.map_cons, String.join_cons, ← htext] at hcovers
        exact hcovers
  · have hle := scopeNames_length qualified (peek tail).text tail.tail
    show (scopeNames qualified (peek tail).text tail.tail).2.length < tail.length + 1
    rw [List.length_tail] at hle
    omega

theorem readArguments_passes {rec : Reader} {base : Expr} {kind : ExprKind}
    {opening closing : String} (h : Below rec ⟨depth, part, tokens⟩)
    (hkind : kind = .call ∨ kind = .index) (hat : atPunctuation tokens opening = true)
    (hopening : opening ∈ separators) (hclosing : closing ∈ separators) :
    Safe (readArguments rec depth base kind closing tokens) fun read =>
      ∃ new, read.1.texts = base.texts ++ new ∧ Passes tokens read.2 new := by
  unfold readArguments
  have hread := atPunctuation_dropped hat hopening
  refine (hread.call h depth (.arguments closing) rfl).bind ?_
  rintro ⟨values, _⟩ hread
  refine (hread.expect (.inr hclosing)).bind fun _ hread => ?_
  refine Safe.pure ⟨_, ?_, hread⟩
  rcases hkind with rfl | rfl <;> simp [Part.texts, Expr.texts, ExprKind.texts, textsEach]

/-- The loop goes on with an expression that begins with what was read before. -/
theorem readPostfixes_next {databaseScope : Bool} {value next : Expr} {new : List String}
    (h : Below rec ⟨depth, .postfixes databaseScope value, tokens⟩)
    (hnext : next.texts = value.texts ++ new) (hread : Passes tokens middle new) :
    Safe (rec ⟨depth, .postfixes databaseScope next, middle⟩)
      (Call.Spec ⟨depth, .postfixes databaseScope value, tokens⟩) := by
  refine (h _ (need_of_shorter hread.shorter)).imp ?_
  rintro ⟨tree, _⟩ ⟨⟨texts, htexts, hcovers⟩, -, -⟩
  refine ⟨⟨new ++ texts, Eq.trans htexts ?_, hread.covers.trans hcovers⟩, nofun, nofun⟩
  simp [Part.known, hnext]

theorem readPostfixes_safe {databaseScope : Bool} {value : Expr}
    (h : Below rec ⟨depth, .postfixes databaseScope value, tokens⟩) :
    Safe (readPostfixes rec depth databaseScope value tokens)
      (Call.Spec ⟨depth, .postfixes databaseScope value, tokens⟩) := by
  unfold readPostfixes
  have hstop : Call.Spec ⟨depth, .postfixes databaseScope value, tokens⟩ (value, tokens) :=
    ⟨⟨[], (List.append_nil _).symm, .done tokens⟩, nofun, nofun⟩
  refine Safe.ite (fun _ => hstop) fun _ => Safe.ite (fun hat => ?_) fun _ =>
    Safe.ite (fun hat => ?_) fun _ => Safe.ite (fun hat => ?_) fun _ =>
    Safe.ite (fun hat => ?_) fun _ => hstop
  · obtain ⟨new, hnew, hread⟩ :=
      readScope_passes value (databaseScope && value.kind = .name && value.children.isEmpty) hat
    exact readPostfixes_next h hnew hread
  · have hread := (atPunctuation_word hat).trans (peek_covers tokens.tail)
    exact readPostfixes_next h (by simp [Expr.texts, ExprKind.texts, textsEach]) hread
  · refine (readArguments_passes h (.inr rfl) hat (by decide) (by decide)).bind ?_
    rintro ⟨next, _⟩ ⟨new, hnew, hread⟩
    exact readPostfixes_next h hnew hread
  · refine (readArguments_passes h (.inl rfl) hat (by decide) (by decide)).bind ?_
    rintro ⟨next, _⟩ ⟨new, hnew, hread⟩
    exact readPostfixes_next h hnew hread

theorem readPrimary_covers (h : Below rec ⟨depth, part, tokens⟩) :
    Safe (readPrimary rec depth tokens) fun read => Covers tokens read.2 read.1.texts ∧
      (tokens ≠ [] → read.2.length < tokens.length) := by
  unfold readPrimary
  refine Safe.ite (fun hat => ?_) fun _ => Safe.ite (fun hat => ?_) fun _ => ?_
  · have hread := atPunctuation_dropped hat (by decide)
    refine (hread.call h depth .items rfl).bind ?_
    rintro ⟨items, _⟩ hread
    refine (hread.expect (.inr (by decide))).bind fun _ hread => ?_
    exact Safe.pure ⟨by simpa [Part.texts, Expr.texts, ExprKind.texts] using hread.covers,
      fun _ => hread.shorter⟩
  · have hread := atPunctuation_dropped hat (by decide)
    refine (hread.call h depth .ternary rfl).bind ?_
    rintro ⟨inner, _⟩ hread
    refine (hread.expect (.inr (by decide))).bind fun _ hread => ?_
    exact Safe.pure ⟨hread.covers, fun _ => hread.shorter⟩
  · refine Safe.pure ⟨?_, fun hne => (peek_passes hne).shorter⟩
    have htexts : (Expr.mk (literalKind (peek tokens).kind) (peek tokens).text []).texts =
        [(peek tokens).text] := by
      cases (peek tokens).kind <;> rfl
    rw [htexts]
    exact peek_covers tokens

theorem readPostfix_safe (h : Below rec ⟨depth, .postfixed, tokens⟩) :
    Safe (readPostfix rec depth tokens) (Call.Spec ⟨depth, .postfixed, tokens⟩) := by
  unfold readPostfix
  refine (readPrimary_covers h).bind ?_
  rintro ⟨value, rest⟩ ⟨hvalue, hadvances⟩
  refine (h ⟨depth, .postfixes (atKeyword tokens "Database") value, rest⟩
    (need_of_rank hvalue.length_le (by simp [Part.rank]))).imp ?_
  rintro ⟨tree, rest'⟩ hloop
  obtain ⟨new, hnew, hcovers⟩ := hloop.covers
  refine ⟨⟨_, hnew, hvalue.trans hcovers⟩, fun _ hne => ?_, (by intro hnone; cases hnone)⟩
  exact Nat.lt_of_le_of_lt hloop.length_le (hadvances hne)

end

/-! ### The reader -/

theorem step_safe (rec : Reader) (call : Call) (h : Below rec call) :
    Safe (step rec call) call.Spec := by
  obtain ⟨depth, part, tokens⟩ := call
  cases part with
  | block => exact readBlock_safe h
  | statement => exact readStatement_safe h
  | branches => exact readBranches_safe h
  | labels => exact readLabels_safe h
  | ternary => exact readTernary_safe h
  | expression minimum => exact readExpression_safe h
  | operators minimum left => exact readOperators_safe h
  | unary => exact readUnary_safe h
  | postfixed => exact readPostfix_safe h
  | postfixes databaseScope value => exact readPostfixes_safe h
  | arguments closing => exact readList_safe h
  | items => exact readItems_safe h

/-- With fuel for its need, every call is as specified. -/
theorem run_spec (fuel : Nat) (call : Call) (hfuel : call.need < fuel) :
    Safe (run step fuel call) call.Spec :=
  run_safe step_safe fuel call hfuel

theorem readStatements_spec (tokens : List Token) :
    Safe (readStatements tokens) (Call.Spec ⟨0, .block, tokens⟩) :=
  run_spec _ _ (Nat.lt_succ_self _)

theorem parseStatements_ok {tokens : List Token} {statements : List Stmt}
    (h : parseStatements tokens = .ok statements) :
    ∃ rest, readStatements tokens = .ok (statements, rest) := by
  unfold parseStatements at h
  cases hread : readStatements tokens with
  | error failure =>
    rw [hread] at h
    cases h
  | ok read =>
    rw [hread] at h
    cases h
    exact ⟨read.2, rfl⟩

/-- **No statement of a body is dropped** before an `end` or `until` at which one of its own statements
would begin, and the reader terminates on every list of tokens. -/
theorem parseStatements_consumes (tokens : List Token) :
    (∀ fuel, 7 * tokens.length + 6 < fuel → run step fuel ⟨0, .block, tokens⟩ ≠ .error none) ∧
    parseStatements tokens ≠ .error none ∧
    ∀ statements, parseStatements tokens = .ok statements → ∃ rest,
      readStatements tokens = .ok (statements, rest) ∧ Covers tokens rest (textsAll statements) ∧
      (rest = [] ∨ atKeyword rest "end" = true ∨ atKeyword rest "until" = true) := by
  refine ⟨fun fuel hfuel => (run_spec fuel ⟨0, .block, tokens⟩ hfuel).fueled, ?_, ?_⟩
  · have hfueled := (readStatements_spec tokens).fueled
    unfold parseStatements
    cases hread : readStatements tokens with
    | ok read => nofun
    | error failure =>
      rintro ⟨⟩
      exact hfueled hread
  · intro statements hparse
    obtain ⟨rest, hread⟩ := parseStatements_ok hparse
    have hspec := (readStatements_spec tokens).ok hread
    exact ⟨rest, hread, hspec.fresh rfl, hspec.stops rfl⟩

/-! ### Bodies of which something is lost -/

section Example

def word (text : String) : Token := ⟨.identifier, text, 1⟩

def mark (text : String) : Token := ⟨.punctuation, text, 1⟩

/-- A stray `until` ends the body, and a scope keeps its last name only. -/
theorem statements_dropped :
    (skipBeginEnd [word "begin", word "until", word "x", word "end"] =
        .ok ([word "until", word "x"], []) ∧
      parseStatements [word "until", word "x"] = .ok []) ∧
    (skipBeginEnd [word "begin", word "x", mark "::", word "y", mark ".", word "z", mark ";",
        word "end"] = .ok ([word "x", mark "::", word "y", mark ".", word "z", mark ";"], []) ∧
      parseStatements [word "x", mark "::", word "y", mark ".", word "z", mark ";"] =
        .ok [.mk .expression (.mk .scope "z" [.mk .name "x" []]) [] [] [] false]) := by
  refine ⟨⟨?_, ?_⟩, ?_, ?_⟩ <;> rfl

end Example

end Agiru.Al
