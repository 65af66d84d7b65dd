import Agiru.Al.Formula

/-! The tokens of a source, without those that its directives leave out: `ApplyDirectives` and `Tokenize`. -/
namespace Agiru.Al
open Fuel
open Condition (Formula Spelled Keyword Blank Apart symbol_of_all)

/-- The tokens that are kept, inside branches that are kept or not, the innermost first. -/
def applyDirectives (keeping : List Bool) : List Token → Lex (List Token)
  | [] => pure []
  | token :: tokens =>
    if token.kind = .directive then
      if ['i', 'f'].isPrefixOf token.text.toList then do
        let keep ← Condition.evaluate (token.text.toList.drop 2)
        applyDirectives (keep :: keeping) tokens
      else if token.text = "else" ∧ keeping ≠ [] then
        applyDirectives ((!keeping.headD true) :: keeping.tail) tokens
      else if token.text = "endif" ∧ keeping ≠ [] then applyDirectives keeping.tail tokens
      else applyDirectives keeping tokens
    else do
      let live ← applyDirectives keeping tokens
      pure (if keeping.all id then token :: live else live)

def tokenize (source : List Char) : Lex (List Token) := do
  let tokens ← scan source
  applyDirectives [] tokens

/-! ### Sources -/

/-- The directive of a condition. -/
structure Opening where
  token : Token
  condition : Formula
  text : List Char
  blanks : List Char
  nesting : Nat
  kind : token.kind = .directive
  written : token.text.toList = 'i' :: 'f' :: (text ++ blanks)
  spelled : Spelled .or condition text nesting
  blank : Blank blanks

/-- A directive of such a text. -/
abbrev Directive (text : String) : Type := { token : Token // token.kind = .directive ∧ token.text = text }

/-- What a source is made of: tokens, directives without a meaning, and what depends on a condition. -/
inductive Pieces
  | none
  | token (token : { token : Token // token.kind ≠ .directive }) (rest : Pieces)
  | other (directive : Directive "") (rest : Pieces)
  | choice (opening : Opening) (body : Pieces) (closing : Directive "endif") (rest : Pieces)
  | choiceElse (opening : Opening) (body : Pieces) (middle : Directive "else") (otherwise : Pieces)
    (closing : Directive "endif") (rest : Pieces)

namespace Pieces

def tokens : Pieces → List Token
  | .none => []
  | .token kept rest => kept.1 :: rest.tokens
  | .other directive rest => directive.1 :: rest.tokens
  | .choice opening body closing rest => opening.token :: (body.tokens ++ closing.1 :: rest.tokens)
  | .choiceElse opening body middle otherwise closing rest =>
    opening.token :: (body.tokens ++ middle.1 :: (otherwise.tokens ++ closing.1 :: rest.tokens))

/-- The tokens in branches that the conditions around them select. -/
def live : Pieces → List Token
  | .none => []
  | .token kept rest => kept.1 :: rest.live
  | .other _ rest => rest.live
  | .choice opening body _ rest => (if opening.condition.value then body.live else []) ++ rest.live
  | .choiceElse opening body _ otherwise _ rest =>
    (if opening.condition.value then body.live else otherwise.live) ++ rest.live

/-- How deep the parentheses of a condition are. -/
def nesting : Pieces → Nat
  | .none => 0
  | .token _ rest | .other _ rest => rest.nesting
  | .choice opening body _ rest => max opening.nesting (max body.nesting rest.nesting)
  | .choiceElse opening body _ otherwise _ rest =>
    max opening.nesting (max body.nesting (max otherwise.nesting rest.nesting))

end Pieces

/-! ### What is kept -/

/-- Such tokens before those that are kept of what follows, if no condition is nested too deeply. -/
def kept (live : List Token) (nesting : Nat) (following : Lex (List Token)) : Lex (List Token) :=
  if nesting < Condition.maxDepth then (live ++ ·) <$> following else Condition.tooDeep

theorem kept_kept (live more : List Token) (n m : Nat) (following : Lex (List Token)) :
    kept live n (kept more m following) = kept (live ++ more) (max n m) following := by
  simp only [kept, Nat.max_lt]
  by_cases hn : n < Condition.maxDepth
  · by_cases hm : m < Condition.maxDepth
    · rw [if_pos hn, if_pos hm, if_pos ⟨hn, hm⟩, Functor.map_map]
      simp only [List.append_assoc]
    · rw [if_pos hn, if_neg hm, if_neg fun h => hm h.2]
      rfl
  · rw [if_neg hn, if_neg fun h => hn h.1]

theorem kept_nil (following : Lex (List Token)) : kept [] 0 following = following := by
  cases following <;> rfl

theorem apply_if (opening : Opening) (keeping : List Bool) (tokens : List Token) :
    applyDirectives keeping (opening.token :: tokens) =
      kept [] opening.nesting (applyDirectives (opening.condition.value :: keeping) tokens) := by
  have hstart : ['i', 'f'].isPrefixOf opening.token.text.toList = true := by
    rw [opening.written]
    rfl
  rw [applyDirectives, if_pos opening.kind, if_pos hstart, opening.written]
  change (Condition.evaluate (opening.text ++ opening.blanks) >>= _) = _
  rw [Condition.evaluate_spelled opening.spelled opening.blank, kept]
  by_cases hshallow : opening.nesting < Condition.maxDepth
  · rw [if_pos hshallow, if_pos hshallow]
    exact (id_map _).symm
  · rw [if_neg hshallow, if_neg hshallow]
    rfl

theorem apply_else (middle : Directive "else") (keep : Bool) (keeping : List Bool) (tokens : List Token) :
    applyDirectives (keep :: keeping) (middle.1 :: tokens) = applyDirectives ((!keep) :: keeping) tokens := by
  have hstart : ¬ ['i', 'f'].isPrefixOf middle.1.text.toList = true := by
    rw [middle.2.2]
    decide
  rw [applyDirectives, if_pos middle.2.1, if_neg hstart, if_pos ⟨middle.2.2, List.cons_ne_nil _ _⟩]
  rfl

theorem apply_endif (closing : Directive "endif") (keep : Bool) (keeping : List Bool) (tokens : List Token) :
    applyDirectives (keep :: keeping) (closing.1 :: tokens) = applyDirectives keeping tokens := by
  have hstart : ¬ ['i', 'f'].isPrefixOf closing.1.text.toList = true := by
    rw [closing.2.2]
    decide
  have helse : ¬ (closing.1.text = "else" ∧ keep :: keeping ≠ []) := by
    rw [closing.2.2]
    exact fun h => absurd h.1 (by decide)
  rw [applyDirectives, if_pos closing.2.1, if_neg hstart, if_neg helse, if_pos ⟨closing.2.2, List.cons_ne_nil _ _⟩]
  rfl

theorem apply_other (directive : Directive "") (keeping : List Bool) (tokens : List Token) :
    applyDirectives keeping (directive.1 :: tokens) = applyDirectives keeping tokens := by
  have hstart : ¬ ['i', 'f'].isPrefixOf directive.1.text.toList = true := by
    rw [directive.2.2]
    decide
  have hne : directive.1.text ≠ "else" ∧ directive.1.text ≠ "endif" := by
    rw [directive.2.2]
    decide
  rw [applyDirectives, if_pos directive.2.1, if_neg hstart, if_neg fun h => hne.1 h.1, if_neg fun h => hne.2 h.1]

theorem apply_token (token : { token : Token // token.kind ≠ .directive }) (keeping : List Bool)
    (tokens : List Token) :
    applyDirectives keeping (token.1 :: tokens) =
      kept (if keeping.all id then [token.1] else []) 0 (applyDirectives keeping tokens) := by
  rw [applyDirectives, if_neg token.2]
  cases applyDirectives keeping tokens with
  | ok live => cases hkeeping : keeping.all id <;> simp [kept, Condition.maxDepth]
  | error failure => rfl

/-- What is kept of pieces, inside branches: nothing if one of these is not, and nothing at all of a source that
has too deep a condition anywhere. -/
theorem apply_pieces (pieces : Pieces) (keeping : List Bool) (tokens : List Token) :
    applyDirectives keeping (pieces.tokens ++ tokens) =
      kept (if keeping.all id then pieces.live else []) pieces.nesting (applyDirectives keeping tokens) := by
  induction pieces generalizing keeping tokens with
  | none =>
    rw [Pieces.live, ite_self]
    exact (kept_nil _).symm
  | token token rest ih =>
    rw [Pieces.tokens, List.cons_append, apply_token, ih, kept_kept, Nat.zero_max, Pieces.nesting, Pieces.live]
    cases keeping.all id <;> rfl
  | other directive rest ih => rw [Pieces.tokens, List.cons_append, apply_other, ih, Pieces.nesting, Pieces.live]
  | choice opening body closing rest ihbody ihrest =>
    have htokens : (Pieces.choice opening body closing rest).tokens ++ tokens =
        opening.token :: (body.tokens ++ closing.1 :: (rest.tokens ++ tokens)) := by
      simp [Pieces.tokens]
    rw [htokens, apply_if, ihbody, apply_endif, ihrest, kept_kept, kept_kept, Pieces.nesting, Pieces.live]
    simp only [Nat.max_assoc]
    congr 1
    cases hvalue : opening.condition.value <;> cases hkeeping : keeping.all id <;> simp [hkeeping]
  | choiceElse opening body middle otherwise closing rest ihbody ihotherwise ihrest =>
    have htokens : (Pieces.choiceElse opening body middle otherwise closing rest).tokens ++ tokens =
        opening.token :: (body.tokens ++ middle.1 :: (otherwise.tokens ++ closing.1 ::
            (rest.tokens ++ tokens))) := by
      simp [Pieces.tokens]
    rw [htokens, apply_if, ihbody, apply_else, ihotherwise, apply_endif, ihrest, kept_kept, kept_kept, kept_kept,
      Pieces.nesting, Pieces.live]
    simp only [Nat.max_assoc]
    congr 1
    cases hvalue : opening.condition.value <;> cases hkeeping : keeping.all id <;> simp [hkeeping]

/-- **Exactly the live tokens of a source are kept**, in their order, unless a condition is nested too deeply, be
it where nothing is kept. -/
theorem tokenize_pieces {source : List Char} {pieces : Pieces} (h : scan source = .ok pieces.tokens) :
    tokenize source =
      if pieces.nesting < Condition.maxDepth then .ok pieces.live
      else .error (some "a #if condition nests too deeply") := by
  have happly := apply_pieces pieces [] []
  rw [List.append_nil] at happly
  rw [tokenize, h]
  change applyDirectives [] pieces.tokens = _
  rw [happly, kept]
  split
  · exact congrArg Except.ok (List.append_nil _)
  · rfl

/-! ### Directives in a source -/

namespace Condition

theorem Blank.cons {blanks : List Char} (h : Blank blanks) : Blank (' ' :: blanks) := by
  intro c hc
  rcases List.mem_cons.mp hc with rfl | hc
  · rfl
  · exact h c hc

theorem Apart.behind_blank {text after : List Char} (h : Apart text after) (hne : text ≠ []) :
    Apart (' ' :: text) after := by
  intro c hc d hd
  refine h c ?_ d hd
  rwa [List.getLast?_cons_of_ne_nil hne] at hc

/-- A condition behind a blank. -/
theorem Spelled.behind_blank {level : Level} {f : Formula} {ts : List Char} {n : Nat} (h : Spelled level f ts n) :
    Spelled level f (' ' :: ts) n := by
  induction h with
  | symbol hname hblanks => exact .symbol hname hblanks.cons
  | constant hword hblanks => exact .constant hword hblanks.cons
  | not hword hblanks hapart h _ => exact .not hword hblanks.cons hapart h
  | parentheses hblanks hbefore h _ => exact .parentheses hblanks.cons hbefore h
  | ofPrimary _ ih => exact .ofPrimary ih
  | and hword hblanks hleft hright hl hr ih _ =>
    exact .and hword hblanks (hleft.behind_blank hl.ne_nil) hright ih hr
  | ofAnd _ ih => exact .ofAnd ih
  | or hword hblanks hleft hright hl hr ih _ =>
    exact .or hword hblanks (hleft.behind_blank hl.ne_nil) hright ih hr

end Condition

/-! ### A condition that is too deep -/

def deepCondition : List Char := List.replicate 64 '(' ++ 'a' :: List.replicate 64 ')'

theorem nested_spelled (n : Nat) : Spelled .or (.symbol ['a'])
    (List.replicate n '(' ++ 'a' :: List.replicate n ')') n := by
  induction n with
  | zero => exact .ofAnd (.ofPrimary (.symbol (symbol_of_all (by decide)) fun _ hc => nomatch hc))
  | succ n ih =>
    have hnone : Blank [] := fun _ hc => nomatch hc
    have h := Spelled.parentheses hnone hnone ih
    have htext : [] ++ '(' :: (List.replicate n '(' ++ 'a' :: List.replicate n ')' ++ [] ++ [')']) =
        List.replicate (n + 1) '(' ++ 'a' :: List.replicate (n + 1) ')' := by
      rw [List.replicate_succ, List.replicate_succ']
      simp
    rw [htext] at h
    exact .ofAnd (.ofPrimary h)

def deepSource : List Char := "#if ".toList ++ deepCondition ++ "\n#endif".toList

def deepOpening : Opening where
  token := ⟨.directive, String.ofList ('i' :: 'f' :: ' ' :: ' ' :: deepCondition), 1⟩
  condition := .symbol ['a']
  text := ' ' :: ' ' :: deepCondition
  blanks := []
  nesting := 64
  kind := rfl
  written := by simp
  spelled := (nested_spelled 64).behind_blank.behind_blank
  blank := fun _ hc => nomatch hc

def deepPieces : Pieces :=
  .choice deepOpening .none ⟨⟨.directive, "endif", 2⟩, rfl, rfl⟩ (.token ⟨⟨.endOfFile, "", 2⟩, nofun⟩ .none)

theorem deepSource_scan : scan deepSource = .ok deepPieces.tokens := by
  decide +kernel

/-- A branch whose condition is nested 64 deep is no token of the source less, and yet nothing is read. -/
theorem deepSource_refused :
    ∃ (source : List Char) (pieces : Pieces), scan source = .ok pieces.tokens ∧
        tokenize source ≠ .ok pieces.live := by
  refine ⟨deepSource, deepPieces, deepSource_scan, ?_⟩
  have hdeep : tokenize deepSource = .error (some "a #if condition nests too deeply") := by
    decide +kernel
  rw [hdeep]
  exact nofun

/-! ### A source -/

/-- `#if not A`, `x`, `#else`, `y`, `#endif` -/
def notSource : List Char := "#if not A\nx\n#else\ny\n#endif".toList

def notOpening : Opening where
  token := ⟨.directive, "if  not A", 1⟩
  condition := .not (.symbol ['A'])
  text := "  not A".toList
  blanks := []
  nesting := 0
  kind := rfl
  written := rfl
  spelled := by
    have hone : Blank [' '] := Blank.cons fun _ hc => nomatch hc
    have hnot : Keyword ['n', 'o', 't'] "not" := rfl
    have hapart : Apart ['n', 'o', 't'] [' ', 'A'] := Apart.of_head fun d hd => by
      obtain rfl := Option.some.inj hd
      rfl
    exact .ofAnd (.ofPrimary (.not hnot hone.cons hapart (.symbol (symbol_of_all (by decide)) hone)))
  blank := fun _ hc => nomatch hc

def notPieces : Pieces :=
  .choiceElse notOpening (.token ⟨⟨.identifier, "x", 2⟩, nofun⟩ .none) ⟨⟨.directive, "else", 3⟩, rfl, rfl⟩
    (.token ⟨⟨.identifier, "y", 4⟩, nofun⟩ .none) ⟨⟨.directive, "endif", 5⟩, rfl, rfl⟩
    (.token ⟨⟨.endOfFile, "", 5⟩, nofun⟩ .none)

theorem notSource_tokenize :
    scan notSource = .ok notPieces.tokens ∧
      tokenize notSource = .ok [⟨.identifier, "x", 2⟩, ⟨.endOfFile, "", 5⟩] := by
  have hscan : scan notSource = .ok notPieces.tokens := by
    decide +kernel
  exact ⟨hscan, (tokenize_pieces hscan).trans (if_pos (by decide))⟩

end Agiru.Al
