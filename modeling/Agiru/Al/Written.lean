import Agiru.Al.Statements
import Mathlib.Order.Filter.AtTopBot.Basic

/-! How an expression may be written, and that it is read back.

`Written` spells an expression as the operator table allows it: an operand that binds less tightly than its place
asks for stands in parentheses, and any other may. Whatever is written is read back as it was (`Written.reads`). -/
namespace Agiru.Al
open Fuel

variable {minimum n : Nat} {e : Expr} {ts us : List Token}
variable {token : Token}
variable {opening : Token} {es : List Expr}
variable {text : String} {ranged : Bool}

/-! ### What is written -/

/-- A place of an expression: what may stand in it without parentheses. An item of a set may be a range. -/
inductive Place
  | item (ranged : Bool)
  | ternary
  | expression (minimum : Nat)
  | unary
  | postfixed
  deriving DecidableEq

/-- An expression in a place, or expressions one behind the other. -/
inductive Spelling
  | one (place : Place) (value : Expr)
  | each (ranged : Bool) (values : List Expr)

/-- The token of a literal or of a name. -/
def Token.Atomic (token : Token) : Prop := token.kind ≠ .punctuation ∧ isKeyword token "not" = false

/-- The token of an operator that stands before its operand. -/
def Token.Sign (token : Token) : Prop :=
  isKeyword token "not" = true ∨ isPunctuation token "-" = true ∨ isPunctuation token "+" = true

/-- What stands around the arguments of a call or an index. -/
inductive Brackets : ExprKind → String → String → Prop
  | call : Brackets .call "(" ")"
  | index : Brackets .index "[" "]"

/-- The tokens that an expression may be written with, so many expressions deep. -/
inductive Written : Spelling → List Token → Nat → Prop
  | atom {token : Token} (h : token.Atomic) (n : Nat) :
    Written (.one .postfixed (.mk (literalKind token.kind) token.text [])) [token] n
  | parentheses {e : Expr} {ts : List Token} {n : Nat} {opening closing : Token}
      (h : Written (.one .ternary e) ts n)
    (hopening : isPunctuation opening "(" = true) (hclosing : isPunctuation closing ")" = true) :
    Written (.one .postfixed e) (opening :: (ts ++ [closing])) n
  | set {es : List Expr} {ts : List Token} {n : Nat} {opening closing : Token} (h : Written (.each true es) ts n)
    (hopening : isPunctuation opening "[" = true) (hclosing : isPunctuation closing "]" = true) :
    Written (.one .postfixed (.mk .set "" es)) (opening :: (ts ++ [closing])) n
  | member {e : Expr} {ts : List Token} {n : Nat} {dot name : Token} (h : Written (.one .postfixed e) ts n)
    (hdot : isPunctuation dot "." = true) :
    Written (.one .postfixed (.mk .binary "." [e, .mk .name name.text []])) (ts ++ [dot, name]) n
  | arguments {kind : ExprKind} {left right : String} {e : Expr} {es : List Expr} {ts us : List Token} {n : Nat}
    {opening closing : Token} (hkind : Brackets kind left right) (h : Written (.one .postfixed e) ts n)
    (hes : Written (.each false es) us n) (hopening : isPunctuation opening left = true)
    (hclosing : isPunctuation closing right = true) :
    Written (.one .postfixed (.mk kind "" (e :: es))) (ts ++ opening :: (us ++ [closing])) n
  | ofPostfixed {e : Expr} {ts : List Token} {n : Nat} (h : Written (.one .postfixed e) ts n) :
    Written (.one .unary e) ts n
  | unary {e : Expr} {ts : List Token} {n : Nat} {sign : Token} (hsign : sign.Sign)
      (h : Written (.one .unary e) ts n) :
    Written (.one .unary (.mk .unary sign.text [e])) (sign :: ts) n
  | ofUnary {e : Expr} {ts : List Token} {k n : Nat} (minimum : Nat) (h : Written (.one .unary e) ts k)
      (hdeep : k < n) :
    Written (.one (.expression minimum) e) ts n
  | binary {l r : Expr} {ls rs : List Token} {k n minimum : Nat} {op : Token} (hop : 0 < precedenceOf op)
    (hminimum : minimum ≤ precedenceOf op) (hl : Written (.one (.expression (precedenceOf op)) l) ls n)
    (hr : Written (.one (.expression (precedenceOf op + 1)) r) rs k) (hdeep : k < n) :
    Written (.one (.expression minimum) (.mk .binary op.text [l, r])) (ls ++ op :: rs) n
  | ofExpression {e : Expr} {ts : List Token} {n : Nat} (h : Written (.one (.expression 1) e) ts n) :
    Written (.one .ternary e) ts n
  | conditional {c t f : Expr} {cs ts fs : List Token} {n : Nat} {question colon : Token}
    (hc : Written (.one (.expression 1) c) cs n) (ht : Written (.one .ternary t) ts n)
    (hf : Written (.one .ternary f) fs n) (hquestion : isPunctuation question "?" = true)
    (hcolon : isPunctuation colon ":" = true) :
    Written (.one .ternary (.mk .binary "?:" [c, t, f])) (cs ++ question :: (ts ++ colon :: fs)) n
  | ofTernary {e : Expr} {ts : List Token} {n : Nat} (ranged : Bool) (h : Written (.one .ternary e) ts n) :
    Written (.one (.item ranged) e) ts n
  | range {a b : Expr} {ts us : List Token} {n : Nat} {dots : Token} (ha : Written (.one .ternary a) ts n)
    (hb : Written (.one .ternary b) us n) (hdots : isPunctuation dots ".." = true) :
    Written (.one (.item true) (.mk .range "" [a, b])) (ts ++ dots :: us) n
  | none (ranged : Bool) (n : Nat) : Written (.each ranged []) [] n
  | last {ranged : Bool} {e : Expr} {ts : List Token} {n : Nat} (h : Written (.one (.item ranged) e) ts n) :
    Written (.each ranged [e]) ts n
  | more {ranged : Bool} {e next : Expr} {es : List Expr} {ts us : List Token} {n : Nat} {comma : Token}
    (h : Written (.one (.item ranged) e) ts n) (hes : Written (.each ranged (next :: es)) us n)
    (hcomma : isPunctuation comma "," = true) : Written (.each ranged (e :: next :: es)) (ts ++ comma :: us) n

/-! ### Reading -/

/-- A call returns, with as much fuel as there may be. -/
def Reads (call : Call) (read : call.Read) : Prop := ∀ᶠ fuel in Filter.atTop, run step fuel call = .ok read

/-- A call returns what one step of it returns. -/
theorem reads_of_step {call : Call} {read : call.Read}
    (h : ∀ᶠ fuel in Filter.atTop, step (run step fuel) call = .ok read) : Reads call read := by
  obtain ⟨enough, henough⟩ := Filter.eventually_atTop.mp h
  refine Filter.eventually_atTop.mpr ⟨enough + 1, fun fuel hfuel => ?_⟩
  obtain ⟨fuel, rfl⟩ := Nat.exists_eq_add_of_le' (Nat.le_trans (Nat.le_add_left 1 enough) hfuel)
  exact henough fuel (Nat.le_of_succ_le_succ hfuel)

/-- A token that goes on with an operand. -/
def opensPostfix (token : Token) : Bool :=
  isPunctuation token "::" || isPunctuation token "." || isPunctuation token "[" || isPunctuation token "("

/-- What is left does not go on with an expression of operators that bind so tightly. -/
def Ends (minimum : Nat) (rest : List Token) : Prop :=
  opensPostfix (peek rest) = false ∧ precedenceOf (peek rest) < minimum

theorem isPunctuation_eq (h : isPunctuation token text = true) : ∃ line, token = ⟨.punctuation, text, line⟩ := by
  simp only [isPunctuation, Bool.and_eq_true, decide_eq_true_eq] at h
  obtain ⟨kind, found, line⟩ := token
  obtain ⟨rfl, rfl⟩ := h
  exact ⟨line, rfl⟩

/-- Punctuation that is no operator of the table. -/
def marks : List String := ["::", ".", "[", "(", "?", ":", ",", ")", "]", ".."]

theorem precedence_mark {mark : String} (h : isPunctuation token mark = true) (hmark : mark ∈ marks) :
    precedenceOf token = 0 := by
  obtain ⟨line, rfl⟩ := isPunctuation_eq h
  have hnone : ∀ mark ∈ marks, precedenceOf ⟨.punctuation, mark, 0⟩ = 0 := by decide
  exact hnone mark hmark

/-- An operator of the table does not go on with an operand. -/
theorem opensPostfix_of_precedence (h : 0 < precedenceOf token) : opensPostfix token = false := by
  by_contra hopens
  rw [Bool.not_eq_false] at hopens
  simp only [opensPostfix, Bool.or_eq_true] at hopens
  rcases hopens with ((hopens | hopens) | hopens) | hopens <;>
    exact absurd (precedence_mark hopens (by decide)) (Nat.ne_of_gt h)

/-- Punctuation is one text. -/
theorem isPunctuation_iff (h : isPunctuation token text = true) (other : String) :
    isPunctuation token other = true ↔ text = other := by
  obtain ⟨line, rfl⟩ := isPunctuation_eq h
  simp [isPunctuation]

theorem isPunctuation_false {other : String} (h : isPunctuation token text = true)
    (hne : text ≠ other) : isPunctuation token other = false := by
  rw [← Bool.not_eq_true, isPunctuation_iff h]
  exact hne

/-- Punctuation that ends an operand. -/
def ends : List String := ["?", ":", ",", ")", "]", ".."]

theorem ends_mark {tokens : List Token} {mark : String} (h : atPunctuation tokens mark = true)
    (hmark : mark ∈ ends) :
    Ends 1 tokens := by
  have hmarks : ∀ mark ∈ ends, mark ∈ marks := by decide
  refine ⟨?_, by rw [precedence_mark h (hmarks mark hmark)]; exact Nat.zero_lt_one⟩
  have hne : ∀ mark ∈ ends, "::" ≠ mark ∧ "." ≠ mark ∧ "[" ≠ mark ∧ "(" ≠ mark := by decide
  obtain ⟨h1, h2, h3, h4⟩ := hne mark hmark
  simp only [opensPostfix, isPunctuation_false h h1.symm, isPunctuation_false h h2.symm, isPunctuation_false h h3.symm,
    isPunctuation_false h h4.symm, Bool.or_false]

/-- The first token is none that closes arguments or a set. -/
def Begins (tokens : List Token) : Prop :=
  ∃ token rest, tokens = token :: rest ∧ isPunctuation token ")" = false ∧ isPunctuation token "]" = false

theorem Begins.append {tokens : List Token} (h : Begins tokens) (more : List Token) : Begins (tokens ++ more) := by
  obtain ⟨token, rest, rfl, hround, hsquare⟩ := h
  exact ⟨token, rest ++ more, rfl, hround, hsquare⟩

/-! ### The steps of the reader -/

section steps
variable {depth : Nat} {rest : List Token}

theorem operators_stop (h : Ends minimum rest) (e : Expr) : Reads ⟨depth, .operators minimum e, rest⟩ (e, rest) := by
  refine reads_of_step (.of_forall fun fuel => ?_)
  simp only [step, readOperators]
  rw [if_pos (.inr (.inr h.2))]
  rfl

theorem postfixes_stop (h : opensPostfix (peek rest) = false) (databaseScope : Bool) (e : Expr) :
    Reads ⟨depth, .postfixes databaseScope e, rest⟩ (e, rest) := by
  refine reads_of_step (.of_forall fun fuel => ?_)
  simp only [opensPostfix, Bool.or_eq_false_iff] at h
  simp only [step, readPostfixes, atPunctuation, h]
  split <;> rfl

/-- An operator of the table, its right operand, and the operators behind them. -/
theorem operators_step {op : Token} {l r : Expr} {tokens : List Token} {read : Expr × List Token}
    (hop : 0 < precedenceOf op) (hminimum : minimum ≤ precedenceOf op)
    (hr : Reads ⟨depth, .expression (precedenceOf op + 1), tokens⟩ (r, rest))
    (hoperators : Reads ⟨depth, .operators minimum (.mk .binary op.text [l, r]), rest⟩ read) :
    Reads ⟨depth, .operators minimum l, op :: tokens⟩ read := by
  apply reads_of_step
  filter_upwards [hr, hoperators] with fuel hr hoperators
  have hpeek : peek (op :: tokens) = op := rfl
  change readOperators _ _ _ _ _ = _
  rw [readOperators, hpeek, if_neg (by simp only [reduceCtorEq, false_or]; omega)]
  simp only [List.tail_cons, hr]
  exact hoperators

end steps

/-! ### What is written is read -/

/-- Operators on a first operand. -/
def Chain (minimum : Nat) (e : Expr) (ts : List Token) (n : Nat) : Prop :=
  0 < n ∧ ∃ u us tail, ts = us ++ tail ∧ Begins us ∧
    (∀ rest, opensPostfix (peek rest) = false → opensPostfix (peek (tail ++ rest)) = false) ∧
    (∀ depth rest, depth + n ≤ maxDepth + 1 → opensPostfix (peek rest) = false →
      Reads ⟨depth, .unary, us ++ rest⟩ (u, rest)) ∧
    ∀ depth rest lower read, lower ≤ minimum → depth + n ≤ maxDepth + 1 → Ends (minimum + 1) rest →
      Reads ⟨depth, .operators lower e, rest⟩ read → Reads ⟨depth, .operators lower u, tail ++ rest⟩ read

/-- Postfixes of a primary. -/
def Posts (e : Expr) (ts : List Token) (n : Nat) : Prop :=
  ∃ p ps tail, ts = ps ++ tail ∧ Begins ps ∧ (∀ token ∈ ps.head?, ¬ token.Sign) ∧
    (∀ depth rest, depth + n ≤ maxDepth →
      ∀ᶠ fuel in Filter.atTop, readPrimary (run step fuel) depth (ps ++ rest) = .ok (p, rest)) ∧
    ∀ depth rest databaseScope read, depth + n ≤ maxDepth → Reads ⟨depth, .postfixes databaseScope e, rest⟩ read →
      Reads ⟨depth, .postfixes databaseScope p, tail ++ rest⟩ read

/-- What the reader makes of what is written, wherever it does not go on. -/
def ReadBack (ts : List Token) (n : Nat) : Spelling → Prop
  | .one .postfixed e => Posts e ts n
  | .one .unary e => Begins ts ∧ ∀ depth rest, depth + n ≤ maxDepth → opensPostfix (peek rest) = false →
      Reads ⟨depth, .unary, ts ++ rest⟩ (e, rest)
  | .one (.expression minimum) e => Chain minimum e ts n
  | .one .ternary e => Begins ts ∧ ∀ depth rest, depth + n ≤ maxDepth → Ends 1 rest → atPunctuation rest "?" =
      false →
      Reads ⟨depth, .ternary, ts ++ rest⟩ (e, rest)
  | .one (.item ranged) e => Begins ts ∧ ∀ depth rest, depth + n ≤ maxDepth → Ends 1 rest →
      atPunctuation rest "?" = false → atPunctuation rest ".." = false →
        (ranged = false → Reads ⟨depth, .ternary, ts ++ rest⟩ (e, rest)) ∧
          ∀ᶠ fuel in Filter.atTop, readRange (run step fuel) depth (ts ++ rest) = .ok (e, rest)
  | .each ranged es => (es ≠ [] → Begins ts) ∧ ∀ depth rest, depth + n ≤ maxDepth →
      (∀ closing, closing = ")" ∨ closing = "]" → ranged = false → atPunctuation rest closing = true →
        Reads ⟨depth, .arguments closing, ts ++ rest⟩ (es, rest)) ∧
      (atPunctuation rest "]" = true → Reads ⟨depth, .items, ts ++ rest⟩ (es, rest))

/-- An expression is read to where no operator binds tightly enough. -/
theorem Chain.reads (h : Chain minimum e ts n) {depth : Nat}
    {rest : List Token} (hdeep : depth + n ≤ maxDepth) (hends : Ends minimum rest) :
    Reads ⟨depth, .expression minimum, ts ++ rest⟩ (e, rest) := by
  obtain ⟨hpos, u, us, tail, rfl, -, htail, hunary, hoperators⟩ := h
  have hu := hunary (depth + 1) (tail ++ rest) (by omega) (htail rest hends.1)
  have hops := hoperators (depth + 1) rest minimum (e, rest) (Nat.le_refl _) (by omega)
    ⟨hends.1, Nat.lt_succ_of_lt hends.2⟩ (operators_stop hends e)
  apply reads_of_step
  filter_upwards [hu, hops] with fuel hu hops
  simp only [step, readExpression]
  rw [if_neg (by omega), List.append_assoc, hu]
  exact hops

/-- An operand is read to where no postfix is. -/
theorem Posts.reads (h : Posts e ts n) {depth : Nat} {rest : List Token}
    (hdeep : depth + n ≤ maxDepth) (hends : opensPostfix (peek rest) = false) :
    Reads ⟨depth, .unary, ts ++ rest⟩ (e, rest) := by
  obtain ⟨p, ps, tail, rfl, hbegins, hsign, hprimary, hpostfixes⟩ := h
  have hp := hprimary depth (tail ++ rest) hdeep
  obtain ⟨token, more, rfl, -⟩ := hbegins
  have hposts := hpostfixes depth rest (isKeyword token "Database") (e, rest) hdeep (postfixes_stop hends _ e)
  have hchain : Reads ⟨depth, .postfixed, (token :: more) ++ tail ++ rest⟩ (e, rest) := by
    apply reads_of_step
    filter_upwards [hp, hposts] with fuel hp hposts
    simp only [step, readPostfix]
    rw [List.append_assoc, hp]
    exact hposts
  apply reads_of_step
  filter_upwards [hchain] with fuel hchain
  have hnone := hsign token rfl
  simp only [Token.Sign, not_or, Bool.not_eq_true] at hnone
  simp only [step, readUnary, atKeyword, atPunctuation, List.cons_append, peek, List.headD_cons, hnone, Bool.or_self,
    Bool.false_eq_true, if_false]
  exact hchain

/-! ### Operands -/

theorem Token.Atomic.not_punctuation (h : token.Atomic) (text : String) : isPunctuation token text = false := by
  simp [isPunctuation, h.1]

theorem posts_atom (h : token.Atomic) (n : Nat) : Posts (.mk (literalKind token.kind) token.text []) [token] n := by
  refine ⟨_, [token], [], rfl, ⟨token, [], rfl, h.not_punctuation _, h.not_punctuation _⟩, ?_, fun depth rest _ => ?_,
    fun _ _ _ _ _ hread => hread⟩
  · intro first hfirst hsign
    obtain rfl := Option.some.inj hfirst
    simp [Token.Sign, h.2, h.not_punctuation] at hsign
  · refine .of_forall fun fuel => ?_
    simp only [readPrimary, atPunctuation, peek, List.cons_append, List.headD_cons, h.not_punctuation]
    rfl

/-- A primary that begins with a bracket. -/
theorem posts_bracket {bracket : String} (hopening : isPunctuation opening bracket = true)
    (hbracket : bracket = "(" ∨ bracket = "[")
    (h : ∀ depth rest, depth + n ≤ maxDepth → ∀ᶠ fuel in Filter.atTop,
      readPrimary (run step fuel) depth (opening :: (ts ++ rest)) = .ok (e, rest)) :
    Posts e (opening :: ts) n := by
  have hne : bracket ≠ ")" ∧ bracket ≠ "]" ∧ bracket ≠ "-" ∧ bracket ≠ "+" := by
    obtain rfl | rfl := hbracket <;> decide
  obtain ⟨hround, hsquare, hminus, hplus⟩ := hne
  refine ⟨e, opening :: ts, [], (List.append_nil _).symm, ⟨opening, ts, rfl, isPunctuation_false hopening hround,
    isPunctuation_false hopening hsquare⟩, ?_, h, fun _ _ _ _ _ hread => hread⟩
  intro first hfirst hsign
  obtain rfl := Option.some.inj hfirst
  obtain ⟨line, rfl⟩ := isPunctuation_eq hopening
  rcases hsign with hsign | hsign | hsign
  · simp [isKeyword] at hsign
  · exact hminus ((isPunctuation_iff hopening _).mp hsign)
  · exact hplus ((isPunctuation_iff hopening _).mp hsign)

/-- What an operand goes on with. -/
theorem Posts.snoc {e' : Expr} (h : Posts e ts n)
    (hread : ∀ depth rest databaseScope read, depth + n ≤ maxDepth →
      Reads ⟨depth, .postfixes databaseScope e', rest⟩ read →
        Reads ⟨depth, .postfixes databaseScope e, us ++ rest⟩ read) :
    Posts e' (ts ++ us) n := by
  obtain ⟨p, ps, tail, rfl, hbegins, hsign, hprimary, hpostfixes⟩ := h
  refine ⟨p, ps, tail ++ us, List.append_assoc _ _ _, hbegins, hsign, hprimary,
    fun depth rest databaseScope read hdeep hrest => ?_⟩
  rw [List.append_assoc]
  exact hpostfixes depth (us ++ rest) databaseScope read hdeep (hread depth rest databaseScope read hdeep hrest)

theorem atPunctuation_cons (token : Token) (tokens : List Token) (text : String) :
    atPunctuation (token :: tokens) text = isPunctuation token text := rfl

theorem expect_punctuation {what : String} (h : isPunctuation token what = true)
    (tokens : List Token) : expect what (token :: tokens) = .ok tokens := by
  rw [expect, atPunctuation_cons, h, Bool.or_true, if_pos rfl]
  rfl

theorem readBack_parentheses {closing : Token}
    (h : ReadBack ts n (.one .ternary e)) (hopening : isPunctuation opening "(" = true)
    (hclosing : isPunctuation closing ")" = true) :
    ReadBack (opening :: (ts ++ [closing])) n (.one .postfixed e) := by
  refine posts_bracket hopening (.inl rfl) fun depth rest hdeep => ?_
  have hinner := h.2 depth (closing :: rest) hdeep (ends_mark hclosing (by decide))
    (isPunctuation_false hclosing (by decide))
  filter_upwards [hinner] with fuel hinner
  have hset : atPunctuation (opening :: (ts ++ [closing] ++ rest)) "[" = false :=
    isPunctuation_false hopening (by decide)
  have hround : atPunctuation (opening :: (ts ++ [closing] ++ rest)) "(" = true := hopening
  rw [readPrimary, hset, hround, if_neg Bool.false_ne_true, if_pos rfl, List.tail_cons, List.append_assoc,
    List.singleton_append, hinner]
  change (expect ")" (closing :: rest) >>= _) = _
  rw [expect_punctuation hclosing]
  rfl

theorem readBack_set {closing : Token}
    (h : ReadBack ts n (.each true es)) (hopening : isPunctuation opening "[" = true)
    (hclosing : isPunctuation closing "]" = true) :
    ReadBack (opening :: (ts ++ [closing])) n (.one .postfixed (.mk .set "" es)) := by
  refine posts_bracket hopening (.inr rfl) fun depth rest hdeep => ?_
  have hitems := (h.2 depth (closing :: rest) hdeep).2 hclosing
  filter_upwards [hitems] with fuel hitems
  have hset : atPunctuation (opening :: (ts ++ [closing] ++ rest)) "[" = true := hopening
  rw [readPrimary, hset, if_pos rfl, List.tail_cons, List.append_assoc, List.singleton_append, hitems]
  change (expect "]" (closing :: rest) >>= _) = _
  rw [expect_punctuation hclosing]
  rfl

theorem readBack_member {dot name : Token}
    (h : ReadBack ts n (.one .postfixed e)) (hdot : isPunctuation dot "." = true) :
    ReadBack (ts ++ [dot, name]) n (.one .postfixed (.mk .binary "." [e, .mk .name name.text []])) := by
  refine Posts.snoc h fun depth rest databaseScope read _ hrest => ?_
  apply reads_of_step
  filter_upwards [hrest] with fuel hrest
  have hscope : atPunctuation (dot :: name :: rest) "::" = false := isPunctuation_false hdot (by decide)
  have hmember : atPunctuation (dot :: name :: rest) "." = true := hdot
  change readPostfixes _ _ _ _ (dot :: name :: rest) = _
  rw [readPostfixes, if_neg (List.cons_ne_nil _ _), hscope, hmember, if_neg Bool.false_ne_true, if_pos rfl]
  exact hrest

theorem readBack_arguments {kind : ExprKind} {left right : String}
    {closing : Token} (hkind : Brackets kind left right) (h : ReadBack ts n (.one .postfixed e))
    (hes : ReadBack us n (.each false es)) (hopening : isPunctuation opening left = true)
    (hclosing : isPunctuation closing right = true) :
    ReadBack (ts ++ opening :: (us ++ [closing])) n (.one .postfixed (.mk kind "" (e :: es))) := by
  refine Posts.snoc h fun depth rest databaseScope read hdeep hrest => ?_
  have hright : right = ")" ∨ right = "]" := by
    cases hkind
    · exact .inl rfl
    · exact .inr rfl
  have hvalues := (hes.2 depth (closing :: rest) hdeep).1 right hright rfl hclosing
  apply reads_of_step
  filter_upwards [hvalues, hrest] with fuel hvalues hrest
  have hread : readArguments (run step fuel) depth e kind right (opening :: (us ++ closing :: rest)) =
      .ok (.mk kind "" (e :: es), rest) := by
    rw [readArguments, List.tail_cons, hvalues]
    change (expect right (closing :: rest) >>= _) = _
    rw [expect_punctuation hclosing]
    rfl
  have htokens : opening :: (us ++ [closing]) ++ rest = opening :: (us ++ closing :: rest) := by simp
  rw [htokens]
  change readPostfixes _ _ _ _ (opening :: (us ++ closing :: rest)) = _
  have hnot : ∀ mark, left ≠ mark → ¬ atPunctuation (opening :: (us ++ closing :: rest)) mark = true :=
      fun mark hne => by
    rw [atPunctuation_cons, isPunctuation_iff hopening]
    exact hne
  have hat : atPunctuation (opening :: (us ++ closing :: rest)) left = true := hopening
  rw [readPostfixes, if_neg (List.cons_ne_nil _ _)]
  cases hkind with
  | call =>
    rw [if_neg (hnot _ (by decide)), if_neg (hnot _ (by decide)), if_neg (hnot _ (by decide)), if_pos hat, hread]
    exact hrest
  | index =>
    rw [if_neg (hnot _ (by decide)), if_neg (hnot _ (by decide)), if_pos hat, hread]
    exact hrest

/-! ### Operators -/

theorem Token.Sign.kind (h : token.Sign) : isPunctuation token ")" = false ∧ isPunctuation token "]" = false := by
  rcases h with hkeyword | hminus | hplus
  · simp only [isKeyword, Bool.and_eq_true, decide_eq_true_eq] at hkeyword
    simp [isPunctuation, hkeyword.1]
  · exact ⟨isPunctuation_false hminus (by decide), isPunctuation_false hminus (by decide)⟩
  · exact ⟨isPunctuation_false hplus (by decide), isPunctuation_false hplus (by decide)⟩

theorem readBack_postfixed (h : ReadBack ts n (.one .postfixed e)) : ReadBack ts n (.one .unary e) := by
  refine ⟨?_, fun depth rest hdeep hends => Posts.reads h hdeep hends⟩
  obtain ⟨p, ps, tail, rfl, hbegins, -⟩ := h
  exact hbegins.append tail

theorem readBack_unary {sign : Token} (hsign : sign.Sign)
    (h : ReadBack ts n (.one .unary e)) : ReadBack (sign :: ts) n (.one .unary (.mk .unary sign.text [e])) := by
  refine ⟨⟨sign, ts, rfl, hsign.kind⟩, fun depth rest hdeep hends => ?_⟩
  apply reads_of_step
  filter_upwards [h.2 depth rest hdeep hends] with fuel hoperand
  have hcondition : (atKeyword (sign :: (ts ++ rest)) "not" || atPunctuation (sign :: (ts ++ rest)) "-" ||
      atPunctuation (sign :: (ts ++ rest)) "+") = true := by
    simp only [Bool.or_eq_true, or_assoc]
    exact hsign
  change readUnary _ _ (sign :: (ts ++ rest)) = _
  rw [readUnary, if_pos hcondition, List.tail_cons, hoperand]
  rfl

theorem chain_unary {k : Nat} (minimum : Nat) (h : ReadBack ts k (.one .unary e))
    (hdeep : k < n) : Chain minimum e ts n := by
  refine ⟨by omega, e, ts, [], (List.append_nil _).symm, h.1, fun _ hrest => hrest,
      fun depth rest hlimit hends => ?_,
    fun _ _ _ _ _ _ _ hread => hread⟩
  exact h.2 depth rest (by omega) hends

/-- An operator and its right operand behind a chain. -/
theorem chain_binary {l r : Expr} {ls rs : List Token} {k : Nat} {op : Token} (hop : 0 < precedenceOf op)
    (hminimum : minimum ≤ precedenceOf op) (hl : Chain (precedenceOf op) l ls n)
    (hr : Chain (precedenceOf op + 1) r rs k) (hdeep : k < n) :
    Chain minimum (.mk .binary op.text [l, r]) (ls ++ op :: rs) n := by
  obtain ⟨hpos, u, us, tail, rfl, hbegins, htail, hunary, hoperators⟩ := hl
  have hopens : ∀ rest, opensPostfix (peek (tail ++ op :: rs ++ rest)) = false := fun rest => by
    rw [List.append_assoc]
    exact htail _ (opensPostfix_of_precedence hop)
  refine ⟨hpos, u, us, tail ++ op :: rs, List.append_assoc _ _ _, hbegins, fun rest _ => hopens rest, hunary,
    fun depth rest lower read hlower hlimit hends hread => ?_⟩
  rw [List.append_assoc]
  refine hoperators depth (op :: rs ++ rest) lower read (Nat.le_trans hlower hminimum) hlimit
    ⟨opensPostfix_of_precedence hop, Nat.lt_succ_self _⟩ ?_
  have hright : Reads ⟨depth, .expression (precedenceOf op + 1), rs ++ rest⟩ (r, rest) :=
    hr.reads (by omega) ⟨hends.1, by have := hends.2; omega⟩
  exact operators_step hop (Nat.le_trans hlower hminimum) hright hread

theorem Chain.begins (h : Chain minimum e ts n) : Begins ts := by
  obtain ⟨-, -, us, tail, rfl, hbegins, -⟩ := h
  exact hbegins.append tail

theorem readBack_expression (h : Chain 1 e ts n) : ReadBack ts n (.one .ternary e) := by
  refine ⟨h.begins, fun depth rest hdeep hends hquestion => ?_⟩
  apply reads_of_step
  filter_upwards [h.reads hdeep hends] with fuel hread
  change readTernary _ _ _ = _
  rw [readTernary, hread]
  change (if atPunctuation rest "?" = true then _ else _) = _
  rw [if_neg (by rw [hquestion]; exact Bool.false_ne_true)]
  rfl

theorem readBack_conditional {c t f : Expr} {cs fs : List Token} {question colon : Token}
    (hc : Chain 1 c cs n) (ht : ReadBack ts n (.one .ternary t)) (hf : ReadBack fs n (.one .ternary f))
    (hquestion : isPunctuation question "?" = true) (hcolon : isPunctuation colon ":" = true) :
    ReadBack (cs ++ question :: (ts ++ colon :: fs)) n (.one .ternary (.mk .binary "?:" [c, t, f])) := by
  refine ⟨hc.begins.append _, fun depth rest hdeep hends hnone => ?_⟩
  have hends' : Ends 1 (question :: (ts ++ colon :: (fs ++ rest))) := ends_mark hquestion (by decide)
  have hcondition := hc.reads hdeep hends'
  have htrue := ht.2 depth (colon :: (fs ++ rest)) hdeep (ends_mark hcolon (by decide))
    (isPunctuation_false hcolon (by decide))
  have hfalse := hf.2 depth rest hdeep hends hnone
  have htokens : cs ++ question :: (ts ++ colon :: fs) ++ rest =
      cs ++ question :: (ts ++ colon :: (fs ++ rest)) := by
    simp
  have hatQuestion : atPunctuation (question :: (ts ++ colon :: (fs ++ rest))) "?" = true := hquestion
  have hatColon : atPunctuation (colon :: (fs ++ rest)) ":" = true := hcolon
  rw [htokens]
  apply reads_of_step
  filter_upwards [hcondition, htrue, hfalse] with fuel hcondition htrue hfalse
  change readTernary _ _ _ = _
  rw [readTernary, hcondition]
  change (if atPunctuation (question :: (ts ++ colon :: (fs ++ rest))) "?" = true then _ else _) = _
  rw [if_pos hatQuestion, List.tail_cons, htrue]
  change (if atPunctuation (colon :: (fs ++ rest)) ":" = true then _ else _) = _
  rw [if_pos hatColon, List.tail_cons, hfalse]
  rfl

/-! ### Arguments and items -/

theorem readBack_item (ranged : Bool) (h : ReadBack ts n (.one .ternary e)) :
    ReadBack ts n (.one (.item ranged) e) := by
  refine ⟨h.1, fun depth rest hdeep hends hquestion hdots => ?_⟩
  have hread := h.2 depth rest hdeep hends hquestion
  refine ⟨fun _ => hread, ?_⟩
  filter_upwards [hread] with fuel hread
  rw [readRange, hread]
  change (if atPunctuation rest ".." = true then _ else _) = _
  rw [if_neg (by rw [hdots]; exact Bool.false_ne_true)]
  rfl

theorem readBack_range {a b : Expr} {dots : Token} (ha : ReadBack ts n (.one .ternary a))
    (hb : ReadBack us n (.one .ternary b)) (hdots : isPunctuation dots ".." = true) :
    ReadBack (ts ++ dots :: us) n (.one (.item true) (.mk .range "" [a, b])) := by
  refine ⟨ha.1.append _, fun depth rest hdeep hends hquestion _ => ⟨nofun, ?_⟩⟩
  have hfirst := ha.2 depth (dots :: (us ++ rest)) hdeep (ends_mark hdots (by decide))
    (isPunctuation_false hdots (by decide))
  have hlast := hb.2 depth rest hdeep hends hquestion
  have hat : atPunctuation (dots :: (us ++ rest)) ".." = true := hdots
  rw [List.append_assoc, List.cons_append]
  filter_upwards [hfirst, hlast] with fuel hfirst hlast
  rw [readRange, hfirst]
  change (if atPunctuation (dots :: (us ++ rest)) ".." = true then _ else _) = _
  rw [if_pos hat, List.tail_cons, hlast]
  rfl

theorem readBack_none (ranged : Bool) (n : Nat) : ReadBack [] n (.each ranged []) := by
  refine ⟨fun hne => absurd rfl hne, fun depth rest _ => ⟨fun closing _ _ hat => ?_, fun hat => ?_⟩⟩
  · refine reads_of_step (.of_forall fun fuel => ?_)
    change readList _ _ _ _ = _
    rw [List.nil_append, readList, if_pos (.inr hat)]
    rfl
  · refine reads_of_step (.of_forall fun fuel => ?_)
    change readItems _ _ _ = _
    rw [List.nil_append, readItems, if_pos (.inr hat)]
    rfl

/-- One expression, and those behind the comma, if there is one. -/
theorem readBack_cons {vs : List Token}
    (h : ReadBack ts n (.one (.item ranged) e)) (hes : ReadBack vs n (.each ranged es))
    (hskip : ∀ rest, atPunctuation rest ")" = true ∨ atPunctuation rest "]" = true →
      skipComma (us ++ rest) = vs ++ rest ∧ Ends 1 (us ++ rest) ∧ atPunctuation (us ++ rest) "?" = false ∧
        atPunctuation (us ++ rest) ".." = false) :
    ReadBack (ts ++ us) n (.each ranged (e :: es)) := by
  have hopen : ∀ rest closing, closing = ")" ∨ closing = "]" →
      ¬ (ts ++ (us ++ rest) = [] ∨ atPunctuation (ts ++ (us ++ rest)) closing = true) := by
    obtain ⟨token, more, rfl, hround, hsquare⟩ := h.1
    rintro rest closing (rfl | rfl) (hnil | hat)
    · cases hnil
    · exact Bool.false_ne_true (hround.symm.trans hat)
    · cases hnil
    · exact Bool.false_ne_true (hsquare.symm.trans hat)
  refine ⟨fun _ => h.1.append us, fun depth rest hdeep => ⟨fun closing hclosing hranged hat => ?_, fun hat => ?_⟩⟩
  · have hends : atPunctuation rest ")" = true ∨ atPunctuation rest "]" = true := by
      obtain rfl | rfl := hclosing
      · exact .inl hat
      · exact .inr hat
    obtain ⟨hcomma, hend, hquestion, hdots⟩ := hskip rest hends
    have hfirst := (h.2 depth (us ++ rest) hdeep hend hquestion hdots).1 hranged
    have hothers := (hes.2 depth rest hdeep).1 closing hclosing hranged hat
    apply reads_of_step
    filter_upwards [hfirst, hothers] with fuel hfirst hothers
    change readList _ _ _ _ = _
    rw [List.append_assoc, readList, if_neg (hopen rest closing hclosing), hfirst]
    change (run step fuel ⟨depth, .arguments closing, skipComma (us ++ rest)⟩ >>= _) = _
    rw [hcomma, hothers]
    rfl
  · obtain ⟨hcomma, hend, hquestion, hdots⟩ := hskip rest (.inr hat)
    have hfirst := (h.2 depth (us ++ rest) hdeep hend hquestion hdots).2
    have hothers := (hes.2 depth rest hdeep).2 hat
    apply reads_of_step
    filter_upwards [hfirst, hothers] with fuel hfirst hothers
    change readItems _ _ _ = _
    rw [List.append_assoc, readItems, if_neg (hopen rest "]" (.inr rfl)), hfirst]
    change (run step fuel ⟨depth, .items, skipComma (us ++ rest)⟩ >>= _) = _
    rw [hcomma, hothers]
    rfl

theorem readBack_last (h : ReadBack ts n (.one (.item ranged) e)) : ReadBack ts n (.each ranged [e]) := by
  have hread : ReadBack (ts ++ []) n (.each ranged [e]) := readBack_cons h (readBack_none ranged n) fun rest
      hends => by
    rw [List.nil_append]
    rcases hends with hat | hat <;>
      exact ⟨if_neg (by rw [atPunctuation, isPunctuation_false hat (by decide)]; exact Bool.false_ne_true),
        ends_mark hat (by decide), isPunctuation_false hat (by decide), isPunctuation_false hat (by decide)⟩
  rwa [List.append_nil] at hread

theorem readBack_more {comma : Token}
    (h : ReadBack ts n (.one (.item ranged) e)) (hes : ReadBack us n (.each ranged es))
    (hcomma : isPunctuation comma "," = true) : ReadBack (ts ++ comma :: us) n (.each ranged (e :: es)) := by
  refine readBack_cons h hes fun rest _ => ?_
  have hat : atPunctuation (comma :: us ++ rest) "," = true := hcomma
  exact ⟨if_pos hat, ends_mark hat (by decide), isPunctuation_false hcomma (by decide),
    isPunctuation_false hcomma (by decide)⟩

/-- Whatever is written is read back. -/
theorem Written.readBack {spelling : Spelling} (h : Written spelling ts n) : ReadBack ts n spelling := by
  induction h with
  | atom h n => exact posts_atom h n
  | parentheses _ hopening hclosing ih => exact readBack_parentheses ih hopening hclosing
  | set _ hopening hclosing ih => exact readBack_set ih hopening hclosing
  | member _ hdot ih => exact readBack_member ih hdot
  | arguments hkind _ _ hopening hclosing ih ihs => exact readBack_arguments hkind ih ihs hopening hclosing
  | ofPostfixed _ ih => exact readBack_postfixed ih
  | unary hsign _ ih => exact readBack_unary hsign ih
  | ofUnary minimum _ hdeep ih => exact chain_unary minimum ih hdeep
  | binary hop hminimum _ _ hdeep ihl ihr => exact chain_binary hop hminimum ihl ihr hdeep
  | ofExpression _ ih => exact readBack_expression ih
  | conditional _ _ _ hquestion hcolon ihc iht ihf => exact readBack_conditional ihc iht ihf hquestion hcolon
  | ofTernary ranged _ ih => exact readBack_item ranged ih
  | range _ _ hdots iha ihb => exact readBack_range iha ihb hdots
  | none ranged n => exact readBack_none ranged n
  | last _ ih => exact readBack_last ih
  | more _ _ hcomma ih ihs => exact readBack_more ih ihs hcomma

end Agiru.Al
