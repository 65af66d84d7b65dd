import Agiru.Al.Written

/-! Printing an expression with as few parentheses as may be.

What is printed has the fewest tokens, and is read back, as is all that may be written
(`expression_round_trip`). -/
namespace Agiru.Al
open Fuel

variable {ts : List Token} {n : Nat} {e : Expr}
variable {es : List Expr} {us : List Token}

/-! ### Trees -/

mutual

/-- An expression, of tokens that can stand in it. -/
inductive Tree
  | atom (token : { token : Token // token.Atomic })
  | unary (sign : { token : Token // token.Sign }) (operand : Tree)
  | binary (op : { token : Token // 0 < precedenceOf token }) (left right : Tree)
  | conditional (condition whenTrue whenFalse : Tree)
  | member (base : Tree) (name : Token)
  | call (base : Tree) (values : Items false)
  | index (base : Tree) (values : Items false)
  | set (items : Items true)

/-- Arguments, or the items of a set, which can be ranges. -/
inductive Items : Bool → Type
  | none {ranged : Bool} : Items ranged
  | value {ranged : Bool} (value : Tree) (rest : Items ranged) : Items ranged
  | range (first last : Tree) (rest : Items true) : Items true

end

mutual

def Tree.expr : Tree → Expr
  | .atom token => .mk (literalKind token.1.kind) token.1.text []
  | .unary sign operand => .mk .unary sign.1.text [operand.expr]
  | .binary op left right => .mk .binary op.1.text [left.expr, right.expr]
  | .conditional condition whenTrue whenFalse => .mk .binary "?:" [condition.expr, whenTrue.expr, whenFalse.expr]
  | .member base name => .mk .binary "." [base.expr, .mk .name name.text []]
  | .call base values => .mk .call "" (base.expr :: values.exprs)
  | .index base values => .mk .index "" (base.expr :: values.exprs)
  | .set items => .mk .set "" items.exprs

def Items.exprs {ranged : Bool} : Items ranged → List Expr
  | .none => []
  | .value value rest => value.expr :: rest.exprs
  | .range first last rest => .mk .range "" [first.expr, last.expr] :: rest.exprs

end

/-! ### Printing -/

/-- How an expression is written outside of parentheses. -/
inductive Shape
  | conditional
  | binary (precedence : Nat)
  | unary
  | postfixed

/-- Whether an expression stands in a place without parentheses. -/
def Place.admits : Place → Shape → Bool
  | .item _, _ | .ternary, _ => true
  | .expression _, .conditional => false
  | .expression minimum, .binary precedence => minimum ≤ precedence
  | .expression _, _ => true
  | .unary, .unary | .unary, .postfixed => true
  | .unary, _ => false
  | .postfixed, .postfixed => true
  | .postfixed, _ => false

def glyph (text : String) : Token := ⟨.punctuation, text, 0⟩

/-- In parentheses, unless the expression may stand as it is. -/
def bracketed (bare : Bool) (tokens : List Token) : List Token :=
  if bare then tokens else glyph "(" :: (tokens ++ [glyph ")"])

/-- What stands behind an item: a comma and the items after it, if there are any. -/
def Items.behind {ranged : Bool} : Items ranged → List Token → List Token
  | .none, _ => []
  | _, tokens => glyph "," :: tokens

mutual

/-- The tokens of an expression in a place, with as few parentheses as its precedences allow. -/
def Tree.printed : Place → Tree → List Token
  | _, .atom token => [token.1]
  | place, .unary sign operand => bracketed (place.admits .unary) (sign.1 :: operand.printed .unary)
  | place, .binary op left right =>
    bracketed (place.admits (.binary (precedenceOf op.1)))
      (left.printed (.expression (precedenceOf op.1)) ++ op.1 :: right.printed
          (.expression (precedenceOf op.1 + 1)))
  | place, .conditional condition whenTrue whenFalse =>
    bracketed (place.admits .conditional) (condition.printed (.expression 1) ++
      glyph "?" :: (whenTrue.printed .ternary ++ glyph ":" :: whenFalse.printed .ternary))
  | _, .member base name => base.printed .postfixed ++ [glyph ".", name]
  | _, .call base values => base.printed .postfixed ++ glyph "(" :: (values.printed ++ [glyph ")"])
  | _, .index base values => base.printed .postfixed ++ glyph "[" :: (values.printed ++ [glyph "]"])
  | _, .set items => glyph "[" :: (items.printed ++ [glyph "]"])

def Items.printed {ranged : Bool} : Items ranged → List Token
  | .none => []
  | .value value rest => value.printed .ternary ++ rest.behind rest.printed
  | .range first last rest => first.printed .ternary ++ glyph ".." :: last.printed .ternary ++ rest.behind
      rest.printed

end

/-! ### What is printed is written -/

/-- An expression may be deeper than it is. -/
theorem Written.mono {spelling : Spelling} {m : Nat} (h : Written spelling ts n) (hle : n ≤ m) :
    Written spelling ts m := by
  induction h generalizing m with
  | atom h _ => exact .atom h m
  | parentheses _ hopening hclosing ih => exact .parentheses (ih hle) hopening hclosing
  | set _ hopening hclosing ih => exact .set (ih hle) hopening hclosing
  | member _ hdot ih => exact .member (ih hle) hdot
  | arguments hkind _ _ hopening hclosing ih ihs => exact .arguments hkind (ih hle) (ihs hle) hopening hclosing
  | ofPostfixed _ ih => exact .ofPostfixed (ih hle)
  | unary hsign _ ih => exact .unary hsign (ih hle)
  | ofUnary minimum h hdeep _ => exact .ofUnary minimum h (Nat.lt_of_lt_of_le hdeep hle)
  | binary hop hminimum _ hr hdeep ihl _ => exact .binary hop hminimum (ihl hle) hr (Nat.lt_of_lt_of_le hdeep hle)
  | ofExpression _ ih => exact .ofExpression (ih hle)
  | conditional _ _ _ hquestion hcolon ihc iht ihf =>
    exact .conditional (ihc hle) (iht hle) (ihf hle) hquestion hcolon
  | ofTernary ranged _ ih => exact .ofTernary ranged (ih hle)
  | range _ _ hdots iha ihb => exact .range (iha hle) (ihb hle) hdots
  | none ranged _ => exact .none ranged m
  | last _ ih => exact .last (ih hle)
  | more _ _ hcomma ih ihs => exact .more (ih hle) (ihs hle) hcomma

/-- The place that an expression of such a shape stands in without parentheses, and that asks for the most. -/
def Shape.place : Shape → Place
  | .conditional => .ternary
  | .binary precedence => .expression precedence
  | .unary => .unary
  | .postfixed => .postfixed

/-- Operators that bind tightly stand where looser ones do. -/
theorem Written.loosen {minimum lower : Nat}
    (h : Written (.one (.expression minimum) e) ts n) (hlower : lower ≤ minimum) :
    Written (.one (.expression lower) e) ts n := by
  cases h with
  | ofUnary _ h hdeep => exact .ofUnary lower h hdeep
  | binary hop hminimum hl hr hdeep => exact .binary hop (Nat.le_trans hlower hminimum) hl hr hdeep

/-- An expression of operators in any looser place. -/
theorem Written.in_expression {place : Place} (h : ∀ minimum, ∃ m, Written (.one (.expression minimum) e) ts m)
    (hunary : place = .unary → Written (.one .unary e) ts n) (hplace : place ≠ .postfixed) :
    ∃ m, Written (.one place e) ts m := by
  obtain ⟨m, hone⟩ := h 1
  cases place with
  | item ranged => exact ⟨m, .ofTernary ranged (.ofExpression hone)⟩
  | ternary => exact ⟨m, .ofExpression hone⟩
  | expression minimum => exact h minimum
  | unary => exact ⟨n, hunary rfl⟩
  | postfixed => exact absurd rfl hplace

/-- What stands in the tightest place of its shape, stands in every place that admits it. -/
theorem Written.admitted (shape : Shape) {place : Place}
    (h : Written (.one shape.place e) ts n) (hpositive : ∀ precedence, shape = .binary precedence → 0 < precedence)
    (hadmits : place.admits shape = true) : ∃ m, Written (.one place e) ts m := by
  cases shape with
  | conditional =>
    cases place with
    | item ranged => exact ⟨n, .ofTernary ranged h⟩
    | ternary => exact ⟨n, h⟩
    | expression minimum | unary | postfixed => cases hadmits
  | binary precedence =>
    have hone : Written (.one .ternary e) ts n := .ofExpression (h.loosen (hpositive precedence rfl))
    cases place with
    | item ranged => exact ⟨n, .ofTernary ranged hone⟩
    | ternary => exact ⟨n, hone⟩
    | expression minimum => exact ⟨n, h.loosen (of_decide_eq_true hadmits)⟩
    | unary | postfixed => cases hadmits
  | unary =>
    have hne : place ≠ .postfixed := fun hplace => by
      subst hplace
      cases hadmits
    exact in_expression (fun minimum => ⟨n + 1, .ofUnary minimum h (Nat.lt_succ_self n)⟩) (fun _ => h) hne
  | postfixed =>
    by_cases hplace : place = .postfixed
    · subst hplace
      exact ⟨n, h⟩
    · exact in_expression (fun minimum => ⟨n + 1, .ofUnary minimum (.ofPostfixed h) (Nat.lt_succ_self n)⟩)
        (fun _ => .ofPostfixed h) hplace

theorem Written.postfixed (h : Written (.one .postfixed e) ts n) (place : Place) :
    ∃ m, Written (.one place e) ts m := by
  refine Written.admitted .postfixed h nofun ?_
  cases place <;> rfl

/-- An expression stands in every place, in parentheses where it has to. -/
theorem Written.bracketed (shape : Shape)
    (h : Written (.one shape.place e) ts n) (hpositive : ∀ precedence, shape = .binary precedence → 0 < precedence)
    (place : Place) : ∃ m, Written (.one place e) (bracketed (place.admits shape) ts) m := by
  by_cases hadmits : place.admits shape = true
  · rw [hadmits]
    exact Written.admitted shape h hpositive hadmits
  · rw [Bool.not_eq_true] at hadmits
    rw [hadmits]
    obtain ⟨m, hternary⟩ : ∃ m, Written (.one .ternary e) ts m :=
      Written.admitted shape h hpositive rfl
    exact Written.postfixed (.parentheses hternary (by decide) (by decide)) place

/-- An item, and the items behind it. -/
theorem Written.item {ranged : Bool} {m : Nat} {rest : Items ranged}
    (h : Written (.one (.item ranged) e) ts n) (hrest : Written (.each ranged rest.exprs) rest.printed m) :
    Written (.each ranged (e :: rest.exprs)) (ts ++ rest.behind rest.printed) (max n m) := by
  have he := h.mono (Nat.le_max_left n m)
  have hes := hrest.mono (Nat.le_max_right n m)
  cases rest with
  | none =>
    rw [Items.behind, List.append_nil, Items.exprs]
    exact .last he
  | value value rest | range first last rest => exact .more he hes (by decide)

mutual

/-- What is printed in a place may be written there. -/
theorem Tree.written (place : Place) : ∀ tree : Tree, ∃ n, Written (.one place tree.expr) (tree.printed place) n
  | .atom token => by
    rw [Tree.expr, Tree.printed]
    exact Written.postfixed (.atom token.2 0) place
  | .unary sign operand => by
    obtain ⟨n, hoperand⟩ := operand.written .unary
    rw [Tree.expr, Tree.printed]
    exact Written.bracketed .unary (.unary sign.2 hoperand) nofun place
  | .binary op left right => by
    obtain ⟨n, hleft⟩ := left.written (.expression (precedenceOf op.1))
    obtain ⟨k, hright⟩ := right.written (.expression (precedenceOf op.1 + 1))
    rw [Tree.expr, Tree.printed]
    refine Written.bracketed (.binary _) (.binary op.2 (Nat.le_refl _)
      (hleft.mono (Nat.le_max_left n (k + 1))) hright (Nat.le_max_right n (k + 1))) ?_ place
    rintro _ ⟨⟩
    exact op.2
  | .conditional condition whenTrue whenFalse => by
    obtain ⟨n, hcondition⟩ := condition.written (.expression 1)
    obtain ⟨m, htrue⟩ := whenTrue.written .ternary
    obtain ⟨k, hfalse⟩ := whenFalse.written .ternary
    rw [Tree.expr, Tree.printed]
    exact Written.bracketed .conditional (.conditional (hcondition.mono (Nat.le_max_left n (max m k)))
      (htrue.mono (Nat.le_trans (Nat.le_max_left m k) (Nat.le_max_right n _)))
      (hfalse.mono (Nat.le_trans (Nat.le_max_right m k) (Nat.le_max_right n _))) (by decide) (by decide))
          nofun place
  | .member base name => by
    obtain ⟨n, hbase⟩ := base.written .postfixed
    rw [Tree.expr, Tree.printed]
    exact Written.postfixed (.member hbase (by decide)) place
  | .call base values => by
    obtain ⟨n, hbase⟩ := base.written .postfixed
    obtain ⟨m, hvalues⟩ := values.written
    rw [Tree.expr, Tree.printed]
    exact Written.postfixed (.arguments .call (hbase.mono (Nat.le_max_left n m))
      (hvalues.mono (Nat.le_max_right n m)) (by decide) (by decide)) place
  | .index base values => by
    obtain ⟨n, hbase⟩ := base.written .postfixed
    obtain ⟨m, hvalues⟩ := values.written
    rw [Tree.expr, Tree.printed]
    exact Written.postfixed (.arguments .index (hbase.mono (Nat.le_max_left n m))
      (hvalues.mono (Nat.le_max_right n m)) (by decide) (by decide)) place
  | .set items => by
    obtain ⟨n, hitems⟩ := items.written
    rw [Tree.expr, Tree.printed]
    exact Written.postfixed (.set hitems (by decide) (by decide)) place

theorem Items.written {ranged : Bool} : ∀ items : Items ranged, ∃ n,
    Written (.each ranged items.exprs) items.printed n
  | .none => ⟨0, by
    rw [Items.exprs, Items.printed]
    exact .none ranged 0⟩
  | .value value rest => by
    obtain ⟨n, hvalue⟩ := value.written .ternary
    obtain ⟨m, hrest⟩ := rest.written
    rw [Items.exprs, Items.printed]
    exact ⟨max n m, Written.item (.ofTernary ranged hvalue) hrest⟩
  | .range first last rest => by
    obtain ⟨n, hfirst⟩ := first.written .ternary
    obtain ⟨k, hlast⟩ := last.written .ternary
    obtain ⟨m, hrest⟩ := rest.written
    rw [Items.exprs, Items.printed]
    exact ⟨_, Written.item (.range (hfirst.mono (Nat.le_max_left n k)) (hlast.mono (Nat.le_max_right n k))
      (by decide)) hrest⟩

end

/-! ### Nothing written has fewer tokens -/

theorem precedence_kind {token : Token} (h : 0 < precedenceOf token) :
    token.kind = .identifier ∨ ∃ level ∈ levels, token = ⟨.punctuation, level.2, token.line⟩ := by
  obtain ⟨kind, text, line⟩ := token
  rw [precedenceOf] at h
  split at h
  · next level hfound =>
    have hlevel := List.find?_some hfound
    simp only [isKeyword, isPunctuation, Bool.or_eq_true, Bool.and_eq_true, decide_eq_true_eq] at hlevel
    rcases hlevel with ⟨hkind, -⟩ | ⟨rfl, rfl⟩
    · exact .inl hkind
    · exact .inr ⟨level, List.mem_of_find?_eq_some hfound, rfl⟩
  · exact absurd h (Nat.lt_irrefl 0)

theorem precedence_line (kind : TokenKind) (text : String) (line : Nat) :
    precedenceOf ⟨kind, text, line⟩ = precedenceOf ⟨kind, text, 0⟩ := rfl

/-- The precedence of an operator is that of its text. -/
theorem precedence_text {token other : Token} (h : 0 < precedenceOf token) (hother : 0 < precedenceOf other)
    (htext : token.text = other.text) : precedenceOf token = precedenceOf other := by
  have hsame : ∀ level ∈ levels,
      precedenceOf ⟨.identifier, level.2, 0⟩ = precedenceOf ⟨.punctuation, level.2, 0⟩ := by decide
  obtain ⟨kind, text, line⟩ := token
  obtain ⟨kind', text', line'⟩ := other
  obtain rfl : text = text' := htext
  rcases precedence_kind h with hkind | ⟨level, hlevel, heq⟩ <;>
    rcases precedence_kind hother with hkind' | ⟨level', hlevel', heq'⟩
  · obtain rfl : kind = .identifier := hkind
    obtain rfl : kind' = .identifier := hkind'
    rfl
  · obtain rfl : kind = .identifier := hkind
    obtain ⟨rfl, rfl, -⟩ := Token.mk.inj heq'
    exact hsame level' hlevel'
  · obtain rfl : kind' = .identifier := hkind'
    obtain ⟨rfl, rfl, -⟩ := Token.mk.inj heq
    exact (hsame level hlevel).symm
  · obtain ⟨rfl, rfl, -⟩ := Token.mk.inj heq
    obtain ⟨rfl, -, -⟩ := Token.mk.inj heq'
    rfl

/-- A point is no operator of the table. -/
theorem text_ne_dot {token : Token} (h : 0 < precedenceOf token) : token.text ≠ "." := by
  have hnone : precedenceOf ⟨.identifier, ".", 0⟩ = 0 := by decide
  have hlevels : ∀ level ∈ levels, level.2 ≠ "." := by decide
  intro htext
  rcases precedence_kind h with hkind | ⟨level, hlevel, heq⟩
  · obtain ⟨kind, text, line⟩ := token
    obtain rfl : kind = .identifier := hkind
    obtain rfl : text = "." := htext
    exact Nat.ne_of_gt h ((precedence_line _ _ line).trans hnone)
  · rw [heq] at htext
    exact hlevels level hlevel htext

theorem bracketed_true (tokens : List Token) : bracketed true tokens = tokens := rfl

theorem length_bracketed (bare : Bool) (tokens : List Token) :
    (bracketed bare tokens).length ≤ tokens.length + 2 := by
  cases bare
  · simp [bracketed]
  · exact Nat.le_add_right _ 2

/-- A place that admits more asks for fewer parentheses. -/
theorem length_bracketed_mono {bare bare' : Bool} (h : bare = true → bare' = true) (tokens : List Token) :
    (bracketed bare' tokens).length ≤ (bracketed bare tokens).length := by
  cases bare with
  | false =>
    refine Nat.le_trans (length_bracketed bare' tokens) ?_
    simp [bracketed]
  | true => rw [h rfl]

theorem length_printed_mono {place place' : Place} (tree : Tree)
    (h : ∀ shape, place.admits shape = true → place'.admits shape = true) :
    (tree.printed place').length ≤ (tree.printed place).length := by
  cases tree <;> rw [Tree.printed, Tree.printed] <;> exact length_bracketed_mono (h _) _

theorem length_printed_ternary (tree : Tree) (place : Place) :
    (tree.printed place).length ≤ (tree.printed .ternary).length + 2 := by
  cases tree <;> rw [Tree.printed, Tree.printed] <;>
    first | exact length_bracketed _ _ | exact Nat.le_add_right _ 2

/-- No way to print it has more tokens than there are. -/
def Fewest (ts : List Token) : Spelling → Prop
  | .one (.item _) e =>
    (∀ tree : Tree, tree.expr = e → (tree.printed .ternary).length ≤ ts.length) ∧
      ∀ first last : Tree, .mk .range "" [first.expr, last.expr] = e →
        (first.printed .ternary ++ glyph ".." :: last.printed .ternary).length ≤ ts.length
  | .one place e => ∀ tree : Tree, tree.expr = e → (tree.printed place).length ≤ ts.length
  | .each ranged es => ∀ items : Items ranged, items.exprs = es → items.printed.length ≤ ts.length

theorem fewest_mono {place place' : Place}
    (hfewest : ∀ tree : Tree, tree.expr = e → (tree.printed place).length ≤ ts.length)
    (h : ∀ shape, place.admits shape = true → place'.admits shape = true) (tree : Tree) (htree : tree.expr = e) :
    (tree.printed place').length ≤ ts.length :=
  Nat.le_trans (length_printed_mono tree h) (hfewest tree htree)

theorem literalKind_ne (kind : TokenKind) : literalKind kind ∉ [.call, .binary, .unary, .set, .range, .index] := by
  cases kind <;> decide

theorem fewest_atom (token : Token) (tree : Tree) (h : tree.expr = .mk (literalKind token.kind) token.text []) :
    (tree.printed .postfixed).length ≤ 1 := by
  have hne := literalKind_ne token.kind
  cases tree with
  | atom token => rfl
  | set items =>
    rw [Tree.expr] at h
    rw [← (Expr.mk.inj h).1] at hne
    exact absurd (by decide) hne
  | _ =>
    rw [Tree.expr] at h
    cases (Expr.mk.inj h).2.2

theorem fewest_set (h : Fewest ts (.each true es)) (tree : Tree)
    (htree : tree.expr = .mk .set "" es) : (tree.printed .postfixed).length ≤ ts.length + 2 := by
  cases tree with
  | set items =>
    rw [Tree.expr] at htree
    have hitems := h items (Expr.mk.inj htree).2.2
    rw [Tree.printed]
    simpa using hitems
  | atom token =>
    rw [Tree.expr] at htree
    exact absurd (by rw [(Expr.mk.inj htree).1]; decide) (literalKind_ne token.1.kind)
  | _ =>
    rw [Tree.expr] at htree
    cases (Expr.mk.inj htree).1

theorem fewest_member {dot name : Token} (h : Fewest ts (.one .postfixed e)) (tree : Tree)
    (htree : tree.expr = .mk .binary "." [e, .mk .name name.text []]) :
    (tree.printed .postfixed).length ≤ (ts ++ [dot, name]).length := by
  cases tree with
  | member base name =>
    rw [Tree.expr] at htree
    have hbase := h base (List.cons.inj (Expr.mk.inj htree).2.2).1
    rw [Tree.printed]
    simpa using hbase
  | binary op left right =>
    rw [Tree.expr] at htree
    exact absurd (Expr.mk.inj htree).2.1 (text_ne_dot op.2)
  | atom =>
    rw [Tree.expr] at htree
    cases (Expr.mk.inj htree).2.2
  | conditional =>
    rw [Tree.expr] at htree
    exact absurd (Expr.mk.inj htree).2.1 (by decide)
  | _ =>
    rw [Tree.expr] at htree
    cases (Expr.mk.inj htree).1

theorem fewest_arguments {kind : ExprKind} {left right : String} (hkind : Brackets kind left right)
     {opening closing : Token} (h : Fewest ts (.one .postfixed e))
    (hes : Fewest us (.each false es)) (tree : Tree) (htree : tree.expr = .mk kind "" (e :: es)) :
    (tree.printed .postfixed).length ≤ (ts ++ opening :: (us ++ [closing])).length := by
  have hprinted : ∀ (base : Tree) (values : Items false) (opening' closing' : Token),
      base.expr = e → values.exprs = es →
        (base.printed .postfixed ++ opening' :: (values.printed ++ [closing'])).length ≤
          (ts ++ opening :: (us ++ [closing])).length := fun base values opening' closing' hbase hvalues => by
    have hfirst := h base hbase
    have hothers := hes values hvalues
    simp only [List.length_append, List.length_cons, List.length_nil]
    omega
  cases tree with
  | call base values | index base values =>
    rw [Tree.expr] at htree
    obtain ⟨-, -, hchildren⟩ := Expr.mk.inj htree
    rw [Tree.printed]
    exact hprinted base values _ _ (List.cons.inj hchildren).1 (List.cons.inj hchildren).2
  | atom token =>
    rw [Tree.expr] at htree
    cases (Expr.mk.inj htree).2.2
  | _ =>
    rw [Tree.expr] at htree
    obtain ⟨rfl, -⟩ := Expr.mk.inj htree
    cases hkind

theorem fewest_unary {sign : Token} (h : Fewest ts (.one .unary e)) (tree : Tree)
    (htree : tree.expr = .mk .unary sign.text [e]) : (tree.printed .unary).length ≤ (sign :: ts).length := by
  cases tree with
  | unary sign operand =>
    rw [Tree.expr] at htree
    have hoperand := h operand (List.cons.inj (Expr.mk.inj htree).2.2).1
    rw [Tree.printed]
    exact Nat.succ_le_succ hoperand
  | atom token =>
    rw [Tree.expr] at htree
    cases (Expr.mk.inj htree).2.2
  | _ =>
    rw [Tree.expr] at htree
    cases (Expr.mk.inj htree).1

theorem fewest_binary {l r : Expr} {ls rs : List Token} {minimum : Nat} {op : Token} (hop : 0 < precedenceOf op)
    (hminimum : minimum ≤ precedenceOf op) (hl : Fewest ls (.one (.expression (precedenceOf op)) l))
    (hr : Fewest rs (.one (.expression (precedenceOf op + 1)) r)) (tree : Tree)
    (htree : tree.expr = .mk .binary op.text [l, r]) :
    (tree.printed (.expression minimum)).length ≤ (ls ++ op :: rs).length := by
  cases tree with
  | binary op' left right =>
    rw [Tree.expr] at htree
    obtain ⟨-, htext, hchildren⟩ := Expr.mk.inj htree
    have hsame := precedence_text op'.2 hop htext
    have hleft := hl left (List.cons.inj hchildren).1
    have hright := hr right (List.cons.inj (List.cons.inj hchildren).2).1
    have hadmits : (Place.expression minimum).admits (.binary (precedenceOf op)) = true := decide_eq_true hminimum
    rw [Tree.printed, hsame, hadmits, bracketed_true]
    simp only [List.length_append, List.length_cons]
    omega
  | member base name =>
    rw [Tree.expr] at htree
    exact absurd (Expr.mk.inj htree).2.1.symm (text_ne_dot hop)
  | atom token | conditional =>
    rw [Tree.expr] at htree
    cases (Expr.mk.inj htree).2.2
  | _ =>
    rw [Tree.expr] at htree
    cases (Expr.mk.inj htree).1

theorem fewest_conditional {c t f : Expr} {cs fs : List Token} {question colon : Token}
    (hc : Fewest cs (.one (.expression 1) c)) (ht : Fewest ts (.one .ternary t)) (hf : Fewest fs (.one .ternary f))
    (tree : Tree) (htree : tree.expr = .mk .binary "?:" [c, t, f]) :
    (tree.printed .ternary).length ≤ (cs ++ question :: (ts ++ colon :: fs)).length := by
  cases tree with
  | conditional condition whenTrue whenFalse =>
    rw [Tree.expr] at htree
    obtain ⟨hcondition, hothers⟩ := List.cons.inj (Expr.mk.inj htree).2.2
    have hfirst := hc condition hcondition
    have htrue := ht whenTrue (List.cons.inj hothers).1
    have hfalse := hf whenFalse (List.cons.inj (List.cons.inj hothers).2).1
    have hadmits : Place.ternary.admits .conditional = true := rfl
    rw [Tree.printed, hadmits, bracketed_true]
    simp only [List.length_append, List.length_cons]
    omega
  | atom token =>
    rw [Tree.expr] at htree
    cases (Expr.mk.inj htree).2.2
  | binary | member =>
    rw [Tree.expr] at htree
    cases (Expr.mk.inj htree).2.2
  | _ =>
    rw [Tree.expr] at htree
    cases (Expr.mk.inj htree).1

theorem range_ne_expr (tree : Tree) (es : List Expr) : tree.expr ≠ .mk .range "" es := by
  intro htree
  cases tree with
  | atom token =>
    rw [Tree.expr] at htree
    exact absurd (by rw [(Expr.mk.inj htree).1]; decide) (literalKind_ne token.1.kind)
  | _ =>
    rw [Tree.expr] at htree
    cases (Expr.mk.inj htree).1

theorem fewest_range {a b : Expr} {dots : Token} (ha : Fewest ts (.one .ternary a))
    (hb : Fewest us (.one .ternary b)) : Fewest (ts ++ dots :: us) (.one (.item true) (.mk .range "" [a, b])) := by
  refine ⟨fun tree htree => absurd htree (range_ne_expr tree _), fun first last hrange => ?_⟩
  obtain ⟨hfirst, hothers⟩ := List.cons.inj (Expr.mk.inj hrange).2.2
  have hone := ha first hfirst
  have htwo := hb last (List.cons.inj hothers).1
  simp only [List.length_append, List.length_cons]
  omega

/-- Items are no longer than one of them and what stands behind it. -/
theorem fewest_items {ranged : Bool} (h : Fewest ts (.one (.item ranged) e))
    (hrest : ∀ rest : Items ranged, rest.exprs = es → (rest.behind rest.printed).length ≤ us.length) :
    Fewest (ts ++ us) (.each ranged (e :: es)) := by
  intro items hitems
  cases items with
  | none =>
    rw [Items.exprs] at hitems
    cases hitems
  | value value rest =>
    rw [Items.exprs] at hitems
    have hfirst := h.1 value (List.cons.inj hitems).1
    have hothers := hrest rest (List.cons.inj hitems).2
    rw [Items.printed, List.length_append, List.length_append]
    exact Nat.add_le_add hfirst hothers
  | range first last rest =>
    rw [Items.exprs] at hitems
    have hfirst := h.2 first last (List.cons.inj hitems).1
    have hothers := hrest rest (List.cons.inj hitems).2
    rw [Items.printed]
    simp only [List.length_append] at hfirst ⊢
    omega

theorem fewest_more {ranged : Bool} {comma : Token}
    (h : Fewest ts (.one (.item ranged) e)) (hes : Fewest us (.each ranged es)) :
    Fewest (ts ++ comma :: us) (.each ranged (e :: es)) := by
  refine fewest_items h fun rest hrest => ?_
  have hprinted := hes rest hrest
  cases rest with
  | none => exact Nat.zero_le _
  | value | range => exact Nat.succ_le_succ hprinted

theorem fewest_last {ranged : Bool} (h : Fewest ts (.one (.item ranged) e)) : Fewest ts (.each ranged [e]) := by
  have hnone : Fewest (ts ++ []) (.each ranged [e]) := fewest_items h fun rest hrest => by
    cases rest with
    | none => exact Nat.le_refl 0
    | value | range =>
      rw [Items.exprs] at hrest
      cases hrest
  rwa [List.append_nil] at hnone

/-- A range is an item and nothing else. -/
theorem Written.kind_ne_range {spelling : Spelling} (h : Written spelling ts n) : match spelling with
    | .one (.item _) _ | .each _ _ => True
    | .one _ e => e.kind ≠ .range := by
  induction h with
  | @atom token _ _ =>
    intro hrange
    have hkind : literalKind token.kind = .range := hrange
    exact literalKind_ne token.kind (by rw [hkind]; decide)
  | arguments hkind _ _ _ _ _ _ => cases hkind <;> exact nofun
  | parentheses _ _ _ ih | ofPostfixed _ ih | ofUnary _ _ _ ih | ofExpression _ ih => exact ih
  | set | member | unary | binary | conditional => exact nofun
  | ofTernary | range | none | last | more => trivial

/-- However an expression is written, no fewer tokens will do than are printed. -/
theorem Written.fewest {spelling : Spelling} (h : Written spelling ts n) : Fewest ts spelling := by
  induction h with
  | atom _ _ => exact fewest_atom _
  | @parentheses e ts n opening closing _ _ _ ih =>
    intro tree htree
    have hbare := ih tree htree
    have hprinted := length_printed_ternary tree .postfixed
    simp only [List.length_append, List.length_cons, List.length_nil]
    omega
  | @set es ts n opening closing _ _ _ ih =>
    intro tree htree
    have hprinted := fewest_set ih tree htree
    simp only [List.length_append, List.length_cons, List.length_nil]
    omega
  | member _ _ ih => exact fewest_member ih
  | arguments hkind _ _ _ _ ih ihs => exact fewest_arguments hkind ih ihs
  | ofPostfixed _ ih => exact fewest_mono ih fun shape => by cases shape <;> simp [Place.admits]
  | unary _ _ ih => exact fewest_unary ih
  | ofUnary minimum _ _ ih => exact fewest_mono ih fun shape => by cases shape <;> simp [Place.admits]
  | binary hop hminimum _ _ _ ihl ihr => exact fewest_binary hop hminimum ihl ihr
  | ofExpression _ ih => exact fewest_mono ih fun _ _ => rfl
  | conditional _ _ _ _ _ ihc iht ihf => exact fewest_conditional ihc iht ihf
  | ofTernary ranged h ih => exact ⟨ih, fun _ _ hrange => absurd (hrange ▸ rfl) h.kind_ne_range⟩
  | range _ _ _ iha ihb => exact fewest_range iha ihb
  | none ranged _ =>
    intro items hitems
    cases items with
    | none => exact Nat.le_refl 0
    | value | range =>
      rw [Items.exprs] at hitems
      cases hitems
  | last _ ih => exact fewest_last ih
  | more _ _ _ ih ihs => exact fewest_more ih ihs

/-! ### Round trip -/

/-- What is written for an expression is read as that expression, up to where something stands that does not go on
with it, if it is no deeper than the reader goes. -/
theorem Written.reads (h : Written (.one .ternary e) ts n) {depth : Nat}
    (hdeep : depth + n ≤ maxDepth) {rest : List Token} (hends : Ends 1 rest)
    (hquestion : atPunctuation rest "?" = false) : Reads ⟨depth, .ternary, ts ++ rest⟩ (e, rest) :=
  h.readBack.2 depth rest hdeep hends hquestion

/-- An expression is printed as it may be written, with the fewest tokens of all; and it is read back from these
and from every other way to write it. -/
theorem expression_round_trip (tree : Tree) :
    (∃ n, Written (.one .ternary tree.expr) (tree.printed .ternary) n) ∧
      ∀ ts n, Written (.one .ternary tree.expr) ts n →
        (tree.printed .ternary).length ≤ ts.length ∧
          ∀ depth, depth + n ≤ maxDepth → ∀ rest, Ends 1 rest → atPunctuation rest "?" = false →
            ∃ enough, ∀ fuel, enough ≤ fuel →
              run step fuel ⟨depth, .ternary, ts ++ rest⟩ = .ok (tree.expr, rest) := by
  refine ⟨tree.written .ternary, fun ts n h => ⟨h.fewest tree rfl, fun depth hdeep rest hends hquestion => ?_⟩⟩
  exact Filter.eventually_atTop.mp (h.reads hdeep hends hquestion)

def name (text : String) : Token := ⟨.identifier, text, 0⟩

/-- `(a + b) * c` -/
def sumTimes : Tree :=
  .binary ⟨glyph "*", by decide⟩
    (.binary ⟨glyph "+", by decide⟩ (.atom ⟨name "a", ⟨by decide, by decide⟩⟩)
        (.atom ⟨name "b", ⟨by decide, by decide⟩⟩))
    (.atom ⟨name "c", ⟨by decide, by decide⟩⟩)

/-- `(a + b) * (c)`, in as many expressions as the reader opens. -/
theorem sumTimes_written :
    Written (.one .ternary sumTimes.expr)
      [glyph "(", name "a", glyph "+", name "b", glyph ")", glyph "*", glyph "(", name "c", glyph ")"] 3 := by
  have hname : ∀ text, (name text).Atomic → ∀ minimum,
      Written (.one (.expression minimum) (.mk .name text [])) [name text] 1 := fun text h minimum =>
    .ofUnary minimum (.ofPostfixed (.atom h 0)) Nat.zero_lt_one
  have hplus : 0 < precedenceOf (glyph "+") := by decide
  have hsum : Written (.one .ternary (.mk .binary "+" [.mk .name "a" [], .mk .name "b" []]))
      ([name "a"] ++ glyph "+" :: [name "b"]) 2 :=
    .ofExpression (.binary hplus (by decide) ((hname "a" ⟨by decide, by decide⟩ _).mono (by decide))
      (hname "b" ⟨by decide, by decide⟩ _) (by decide))
  have hc : Written (.one (.expression 4) (.mk .name "c" [])) (glyph "(" :: ([name "c"] ++ [glyph ")"])) 2 :=
    .ofUnary 4 (.ofPostfixed (.parentheses (.ofExpression (hname "c" ⟨by decide, by decide⟩ 1)) (by decide)
        (by decide)))
      (by decide)
  have hproduct : 0 < precedenceOf (glyph "*") := by decide
  exact .ofExpression (.binary hproduct (by decide)
    (.ofUnary 3 (.ofPostfixed (.parentheses hsum (by decide) (by decide))) (by decide)) hc (by decide))

theorem sumTimes_read :
    sumTimes.printed .ternary = [glyph "(", name "a", glyph "+", name "b", glyph ")", glyph "*", name "c"] ∧
      ∃ enough, ∀ fuel, enough ≤ fuel →
        run step fuel ⟨0, .ternary, [glyph "(", name "a", glyph "+", name "b", glyph ")", glyph "*", glyph "(",
            name "c",
          glyph ")"]⟩ = .ok (sumTimes.expr, []) := by
  refine ⟨by decide, ?_⟩
  obtain ⟨-, hread⟩ := (expression_round_trip sumTimes).2 _ 3 sumTimes_written
  exact hread 0 (by decide) [] ⟨by decide, by decide⟩ (by decide)

end Agiru.Al
