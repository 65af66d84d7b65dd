import Mathlib.Logic.Function.Iterate
import Mathlib.Tactic.Common

/-! The loops that `BodyWriter` writes, against those of AL.

A `for` of AL runs its body once for every value from the first to the last. The loop written for it holds the last
in a constant of its own number, and steps the counter after every turn: also after the turn of the last value,
where there may be no value left (`runs_iff`). Statements of other kinds are written as they stand; what they do is
given. -/
namespace Agiru.Writer

/-- How a statement ends; a trap is not of AL. -/
inductive Outcome
  | next
  | continued
  | broke
  | returned
  | raised
  | trapped
  deriving DecidableEq

def Outcome.goesOn : Outcome → Bool
  | .next | .continued => true
  | _ => false

/-- What a loop makes of a turn that does not go on. -/
def Outcome.leaving : Outcome → Outcome
  | .broke => .next
  | outcome => outcome

/-- A variable of AL, as it is written and with the type it is declared of. -/
structure Variable (σ α : Type) where
  text : String
  declaredType : String
  get : σ → α
  set : α → σ → σ
  get_set : ∀ a s, get (set a s) = a
  set_get : ∀ s, set (get s) s = s
  set_set : ∀ a b s, set a (set b s) = set a s

/-- An expression, which may have effects and may raise an error. -/
structure Expression (σ α : Type) where
  text : String
  value : σ → σ × Option α

/-- A Boolean expression; the literals are what they say. -/
structure Condition (σ : Type) extends Expression σ Bool where
  spelledTrue : text = "true" → ∀ s, value s = (s, some true)
  spelledFalse : text = "false" → ∀ s, value s = (s, some false)

/-- `SameName`. -/
def sameName (a b : String) : Bool := a.toList.map Char.toLower = b.toList.map Char.toLower

/-- `overBooleans`. -/
def overBooleans (first last declaredType : String) : Bool :=
  ((first = "true" || first = "false") && (last = "true" || last = "false")) || sameName declaredType "Boolean"

/-- The head of a `for`, of the kind that `overBooleans` says. -/
inductive Header (σ : Type)
  | integers (counter : Variable σ Int32) (first last : Expression σ Int32)
      (plain : overBooleans first.text last.text counter.declaredType = false)
  | booleans (counter : Variable σ Bool) (first last : Condition σ)
      (flags : overBooleans first.text last.text counter.declaredType = true)

/-- A statement of AL; a list of them is a chain, and an assignment, a call or an exit is an other. -/
inductive Stmt (σ : Type)
  | nothing
  | chain (first rest : Stmt σ)
  | block (body : Stmt σ)
  | ifThen (condition : Expression σ Bool) (body otherwise : Stmt σ)
  | forLoop (header : Header σ) (descending : Bool) (body : Stmt σ)
  | break
  | continue
  | other (text : String) (effect : σ → σ × Outcome)

/-! ### What AL runs -/

/-- How many values there are from the first to the last. -/
def count (descending : Bool) (first last : Int32) : Nat :=
  if descending then (first.toInt - last.toInt + 1).toNat else (last.toInt - first.toInt + 1).toNat

/-- The value one further, or the one that comes around. -/
def ahead (descending : Bool) (value : Int32) : Int32 := if descending then value - 1 else value + 1

/-- The values from the first on. -/
def valuesFrom (descending : Bool) : Nat → Int32 → List Int32
  | 0, _ => []
  | n + 1, value => value :: valuesFrom descending n (ahead descending value)

/-- The values from the first to the last, in order. -/
def values (descending : Bool) (first last : Int32) : List Int32 :=
  valuesFrom descending (count descending first last) first

/-- Behind the last value. -/
def behind (descending : Bool) (first last : Int32) : Int32 :=
    (ahead descending)^[count descending first last] first

def ordinal (flag : Bool) : Int32 := if flag then 1 else 0

/-- A turn for every value, until one does not go on. -/
def turns {σ : Type} (set : Int32 → σ → σ) (leave : σ → σ) (body : σ → σ × Outcome) : List Int32 → σ → σ × Outcome
  | [], s => (leave s, .next)
  | value :: rest, s =>
    let turn := body (set value s)
    if turn.2.goesOn then turns set leave body rest turn.1 else (turn.1, turn.2.leaving)

variable {σ : Type}

/-- `for`: the first, the last, and a turn for every value. -/
def Header.run (header : Header σ) (descending : Bool) (body : σ → σ × Outcome) (s : σ) : σ × Outcome :=
  match header with
  | .integers counter first last _ =>
    match first.value s with
    | (s, none) => (s, .raised)
    | (s, some low) =>
      match last.value (counter.set low s) with
      | (s, none) => (s, .raised)
      | (s, some high) =>
        turns counter.set (counter.set (behind descending low high)) body (values descending low high) s
  | .booleans counter first last _ =>
    match first.value s with
    | (s, none) => (s, .raised)
    | (s, some low) =>
      match last.value s with
      | (s, none) => (s, .raised)
      | (s, some high) =>
        turns (fun value => counter.set (value != 0)) id body (values descending (ordinal low) (ordinal high)) s

def Stmt.run : Stmt σ → σ → σ × Outcome
  | .nothing, s => (s, .next)
  | .chain first rest, s => if (first.run s).2 = .next then rest.run (first.run s).1 else first.run s
  | .block body, s => body.run s
  | .ifThen condition body otherwise, s =>
    match condition.value s with
    | (s, none) => (s, .raised)
    | (s, some true) => body.run s
    | (s, some false) => otherwise.run s
  | .forLoop header descending body, s => header.run descending body.run s
  | .break, s => (s, .broke)
  | .continue, s => (s, .continued)
  | .other _ effect, s => effect s

/-! ### What is written -/

/-- What a written loop counts: the variable itself, or a step of its own. -/
inductive Control (σ : Type)
  | counter (counted : Variable σ Int32)
  | step

/-- A statement as it is written; the number is that of the loop it belongs to. -/
inductive Cpp (σ : Type)
  | nothing
  | chain (first rest : Cpp σ)
  | block (body : Cpp σ)
  | ifElse (condition : Expression σ Bool) (body otherwise : Cpp σ)
  | assign (counter : Variable σ Int32) (first : Expression σ Int32)
  | declareStep (number : Nat) (first : Expression σ Int32)
  | declareEnd (number : Nat) (last : Expression σ Int32)
  | declareEndFlag (number : Nat) (last : Expression σ Bool)
  | assignFlag (counter : Variable σ Bool) (number : Nat)
  | forLoop (control : Control σ) (number : Nat) (descending : Bool) (body : Cpp σ)
  | break
  | continue
  | other (text : String) (effect : σ → σ × Outcome)

/-- `ordinal`, of an expression. -/
def Condition.ordinal (condition : Condition σ) : Expression σ Int32 :=
  if condition.text = "true" then ⟨"1", fun s => (s, some 1)⟩
  else if condition.text = "false" then ⟨"0", fun s => (s, some 0)⟩
  else ⟨"(" ++ condition.text ++ " ? 1 : 0)",
    fun s => ((condition.value s).1, (condition.value s).2.map Writer.ordinal)⟩

/-- `ForStatement`, with what is written for the body from the loop's number on. -/
def Header.write (header : Header σ) (descending : Bool) (number : Nat) (body : Cpp σ) : Cpp σ :=
  match header with
  | .integers counter first last _ =>
    .block (.chain (.assign counter first) (.chain (.declareEnd number last)
      (.forLoop (.counter counter) number descending body)))
  | .booleans counter first last _ =>
    .block (.chain (.declareStep number first.ordinal) (.chain (.declareEndFlag number last.toExpression)
      (.forLoop .step number descending (.chain (.assignFlag counter number) body))))

/-- `Statement`, with `forSequence_` before and after. -/
def Stmt.write : Stmt σ → Nat → Cpp σ × Nat
  | .nothing, sequence => (.nothing, sequence)
  | .chain first rest, sequence =>
    let (first, sequence) := first.write sequence
    let (rest, sequence) := rest.write sequence
    (.chain first rest, sequence)
  | .block body, sequence =>
    let (body, sequence) := body.write sequence
    (.block body, sequence)
  | .ifThen condition body otherwise, sequence =>
    let (body, sequence) := body.write sequence
    let (otherwise, sequence) := otherwise.write sequence
    (.ifElse condition body otherwise, sequence)
  | .forLoop header descending body, sequence =>
    let number := sequence + 1
    let (body, sequence) := body.write number
    (header.write descending number body, sequence)
  | .break, sequence => (.break, sequence)
  | .continue, sequence => (.continue, sequence)
  | .other text effect, sequence => (.other text effect, sequence)

/-- `Pad`. -/
def pad (indent : Nat) : String := String.ofList (List.replicate indent ' ')

def endName (number : Nat) : String := "agiruForEnd_Block_" ++ toString number

def stepName (number : Nat) : String := "agiruForStep_Block_" ++ toString number

/-- The text that is written. -/
def Cpp.text : Cpp σ → Nat → String
  | .nothing, _ => ""
  | .chain first rest, indent => first.text indent ++ rest.text indent
  | .block body, indent => pad indent ++ "\x7b\n" ++ body.text (indent + 2) ++ pad indent ++ "\x7d\n"
  | .ifElse condition body otherwise, indent =>
    pad indent ++ "if (" ++ condition.text ++ ") \x7b\n" ++ body.text (indent + 2) ++ pad indent ++ "\x7d" ++
      match otherwise with
      | .nothing => "\n"
      | otherwise => " else \x7b\n" ++ otherwise.text (indent + 2) ++ pad indent ++ "\x7d\n"
  | .assign counter first, indent => pad indent ++ counter.text ++ " = " ++ first.text ++ ";\n"
  | .declareStep number first, indent =>
    pad indent ++ "::agiru::Integer " ++ stepName number ++ " = " ++ first.text ++ ";\n"
  | .declareEnd number last, indent => pad indent ++ "const auto " ++ endName number ++ " = " ++ last.text ++ ";\n"
  | .declareEndFlag number last, indent => pad indent ++ "const auto " ++ endName number ++ " = " ++ last.text
      ++ ";\n"
  | .assignFlag counter number, indent => pad indent ++ counter.text ++ " = " ++ stepName number ++ " != 0;\n"
  | .forLoop control number descending body, indent =>
    let (name, bound) := match control with
      | .counter counter => (counter.text, endName number)
      | .step => (stepName number, "(" ++ endName number ++ " ? 1 : 0)")
    pad indent ++ "for (; " ++ name ++ (if descending then " >= " else " <= ") ++ bound ++ "; " ++
      (if descending then "--" else "++") ++ name ++ ") \x7b\n" ++ body.text (indent + 2) ++ pad indent ++ "\x7d\n"
  | .break, indent => pad indent ++ "break;\n"
  | .continue, indent => pad indent ++ "continue;\n"
  | .other text _, indent => pad indent ++ text ++ ";\n"

/-! ### What the written statements do -/

/-- The variables of AL, and what is declared for the loops. -/
structure Memory (σ : Type) where
  state : σ
  ends : Nat → Int32
  endFlags : Nat → Bool
  steps : Nat → Int32

/-- Where a run ends, how, and whether a counter was stepped out of the 32 bits on the way. -/
structure Result (σ : Type) where
  memory : Memory σ
  outcome : Outcome
  overflowed : Bool

def Control.value (control : Control σ) (number : Nat) (m : Memory σ) : Int32 :=
  match control with
  | .counter counted => counted.get m.state
  | .step => m.steps number

def Control.bound (control : Control σ) (number : Nat) (m : Memory σ) : Int32 :=
  match control with
  | .counter _ => m.ends number
  | .step => ordinal (m.endFlags number)

def Control.put (control : Control σ) (number : Nat) (value : Int32) (m : Memory σ) : Memory σ :=
  match control with
  | .counter counted => { m with state := counted.set value m.state }
  | .step => { m with steps := Function.update m.steps number value }

/-- `<=`, or `>=`. -/
def Control.test (control : Control σ) (number : Nat) (descending : Bool) (m : Memory σ) : Bool :=
  if descending then control.bound number m ≤ control.value number m
  else control.value number m ≤ control.bound number m

/-- Where there is no value further. -/
def extreme (descending : Bool) : Int32 := if descending then Int32.minValue else Int32.maxValue

/-- `++`, or `--`, where it comes around. -/
def Control.advance (control : Control σ) (number : Nat) (descending : Bool) (m : Memory σ) : Memory σ :=
  control.put number (ahead descending (control.value number m)) m

/-- The runs of a `for`, of a body's runs; a step from the last value of the type comes around, or traps. -/
inductive Iterates (comesAround : Bool) (control : Control σ) (number : Nat) (descending : Bool)
    (body : Memory σ → Result σ → Prop) : Memory σ → Result σ → Prop
  | done {m : Memory σ} (htest : control.test number descending m = false) :
    Iterates comesAround control number descending body m ⟨m, .next, false⟩
  | left {m : Memory σ} {r : Result σ} (htest : control.test number descending m = true) (hbody : body m r)
      (hleft : r.outcome.goesOn = false) :
    Iterates comesAround control number descending body m ⟨r.memory, r.outcome.leaving, r.overflowed⟩
  | turn {m : Memory σ} {r q : Result σ} (htest : control.test number descending m = true) (hbody : body m r)
      (hgoes : r.outcome.goesOn = true) (hfurther : control.value number r.memory ≠ extreme descending)
      (hrest : Iterates comesAround control number descending body (control.advance number descending r.memory)
          q) :
    Iterates comesAround control number descending body m ⟨q.memory, q.outcome, r.overflowed || q.overflowed⟩
  | around {m : Memory σ} {r q : Result σ} (htest : control.test number descending m = true) (hbody : body m r)
      (hgoes : r.outcome.goesOn = true) (hextreme : control.value number r.memory = extreme descending)
      (haround : comesAround = true)
      (hrest : Iterates comesAround control number descending body (control.advance number descending r.memory)
          q) :
    Iterates comesAround control number descending body m ⟨q.memory, q.outcome, true⟩
  | trapped {m : Memory σ} {r : Result σ} (htest : control.test number descending m = true) (hbody : body m r)
      (hgoes : r.outcome.goesOn = true) (hextreme : control.value number r.memory = extreme descending)
      (htraps : comesAround = false) :
    Iterates comesAround control number descending body m ⟨r.memory, .trapped, true⟩

/-- The result of an expression's value, stored in memory, or of its error. -/
def Memory.hold {α : Type} (m : Memory σ) (value : σ × Option α) (store : α → Memory σ → Memory σ) : Result σ :=
  let m := { m with state := value.1 }
  match value.2 with
  | none => ⟨m, .raised, false⟩
  | some a => ⟨store a m, .next, false⟩

/-- The runs of a written statement. -/
def Cpp.Runs (comesAround : Bool) : Cpp σ → Memory σ → Result σ → Prop
  | .nothing, m, r => r = ⟨m, .next, false⟩
  | .chain first rest, m, r => ∃ p, first.Runs comesAround m p ∧
      if p.outcome = .next then ∃ q, rest.Runs comesAround p.memory q ∧ r =
          { q with overflowed := p.overflowed || q.overflowed }
      else r = p
  | .block body, m, r => body.Runs comesAround m r
  | .ifElse condition body otherwise, m, r =>
    match condition.value m.state with
    | (s, none) => r = ⟨{ m with state := s }, .raised, false⟩
    | (s, some true) => body.Runs comesAround { m with state := s } r
    | (s, some false) => otherwise.Runs comesAround { m with state := s } r
  | .assign counter first, m, r =>
    r = m.hold (first.value m.state) fun value m => { m with state := counter.set value m.state }
  | .declareStep number first, m, r =>
    r = m.hold (first.value m.state) fun value m => { m with steps := Function.update m.steps number value }
  | .declareEnd number last, m, r =>
    r = m.hold (last.value m.state) fun value m => { m with ends := Function.update m.ends number value }
  | .declareEndFlag number last, m, r =>
    r = m.hold (last.value m.state) fun value m => { m with endFlags := Function.update m.endFlags number value }
  | .assignFlag counter number, m, r =>
    r = ⟨{ m with state := counter.set (m.steps number != 0) m.state }, .next, false⟩
  | .forLoop control number descending body, m, r =>
    Iterates comesAround control number descending (body.Runs comesAround) m r
  | .break, m, r => r = ⟨m, .broke, false⟩
  | .continue, m, r => r = ⟨m, .continued, false⟩
  | .other _ effect, m, r => r = ⟨{ m with state := (effect m.state).1 }, (effect m.state).2, false⟩

/-! ### When a loop has a value left to step to -/

/-- Every turn is within, and none goes on with the counter where there is no value further. -/
def TurnsWithin (set : Int32 → σ → σ) (body : σ → σ × Outcome) (within : σ → Prop) (ends : Int32 → Prop) :
    List Int32 → σ → Prop
  | [], _ => True
  | value :: rest, s =>
    within (set value s) ∧ ((body (set value s)).2.goesOn = true →
      ¬ ends value ∧ TurnsWithin set body within ends rest (body (set value s)).1)

def Header.Within (header : Header σ) (descending : Bool) (body : σ → σ × Outcome) (within : σ → Prop) (s : σ) :
    Prop :=
  match header with
  | .integers counter first last _ =>
    ∀ low high, (first.value s).2 = some low → (last.value (counter.set low (first.value s).1)).2 = some high →
      TurnsWithin counter.set body within (· = extreme descending) (values descending low high)
        (last.value (counter.set low (first.value s).1)).1
  | .booleans counter first last _ =>
    ∀ low high, (first.value s).2 = some low → (last.value (first.value s).1).2 = some high →
      TurnsWithin (fun value => counter.set (value != 0)) body within (fun _ => False)
        (values descending (ordinal low) (ordinal high)) (last.value (first.value s).1).1

/-- In a run from a state, no loop of Integers goes on from the end of the 32 bits. -/
def Stmt.Within : Stmt σ → σ → Prop
  | .chain first rest, s => first.Within s ∧ ((first.run s).2 = .next → rest.Within (first.run s).1)
  | .block body, s => body.Within s
  | .ifThen condition body otherwise, s =>
    ((condition.value s).2 = some true → body.Within (condition.value s).1) ∧
      ((condition.value s).2 = some false → otherwise.Within (condition.value s).1)
  | .forLoop header descending body, s => header.Within descending body.run body.Within s
  | _, _ => True

/-- Neither a loop's body nor its last value assigns the counter. -/
def Header.Keeps (header : Header σ) (body : σ → σ × Outcome) : Prop :=
  match header with
  | .integers counter _ last _ =>
    (∀ s, counter.get (last.value s).1 = counter.get s) ∧ ∀ s, counter.get (body s).1 = counter.get s
  | .booleans _ _ _ _ => True

/-- Every loop counts for itself. -/
def Stmt.Counts : Stmt σ → Prop
  | .chain first rest => first.Counts ∧ rest.Counts
  | .block body => body.Counts
  | .ifThen _ body otherwise => body.Counts ∧ otherwise.Counts
  | .forLoop header _ body => header.Keeps body.run ∧ body.Counts
  | _ => True

/-- A written statement ends, as AL does, and no counter leaves the 32 bits. -/
def Stmt.Lawful (comesAround : Bool) (stmt : Stmt σ) (sequence : Nat) (m : Memory σ) : Prop :=
  (∃ r, (stmt.write sequence).1.Runs comesAround m r) ∧ ∀ r, (stmt.write sequence).1.Runs comesAround m r →
    r.memory.state = (stmt.run m.state).1 ∧ r.outcome = (stmt.run m.state).2 ∧ r.overflowed = false

/-! ### The counter -/

theorem extreme_iff {descending : Bool} {value : Int32} :
    value = extreme descending ↔ value.toInt = if descending then -2147483648 else 2147483647 := by
  rw [← Int32.toInt_inj]
  cases descending <;> exact Iff.rfl

theorem bounds_toInt (value : Int32) : -2147483648 ≤ value.toInt ∧ value.toInt ≤ 2147483647 :=
  ⟨value.le_toInt, Int.le_of_lt_add_one value.toInt_lt⟩

theorem ahead_toInt {descending : Bool} {value : Int32} (h : value ≠ extreme descending) :
    (ahead descending value).toInt = if descending then value.toInt - 1 else value.toInt + 1 := by
  have hbounds := bounds_toInt value
  rw [ne_eq, extreme_iff] at h
  cases descending with
  | false =>
    rw [if_neg Bool.false_ne_true] at h ⊢
    rw [ahead, if_neg Bool.false_ne_true, Int32.toInt_add, show (1 : Int32).toInt = 1 from rfl]
    exact Int.bmod_eq_of_le (by omega) (by omega)
  | true =>
    rw [if_pos rfl] at h ⊢
    rw [ahead, if_pos rfl, Int32.toInt_sub, show (1 : Int32).toInt = 1 from rfl]
    exact Int.bmod_eq_of_le (by omega) (by omega)

theorem test_iff {control : Control σ} {number : Nat} {descending : Bool} {m : Memory σ} :
    control.test number descending m = true ↔
      0 < count descending (control.value number m) (control.bound number m) := by
  cases descending
  all_goals
    simp only [Control.test, count, Bool.false_eq_true, if_false, if_true, decide_eq_true_eq, Int32.le_iff_toInt_le]
    omega

theorem count_ahead {descending : Bool} {value last : Int32} (h : 0 < count descending value last)
    (hfurther : value ≠ extreme descending) :
    count descending value last = count descending (ahead descending value) last + 1 := by
  have hahead := ahead_toInt hfurther
  unfold count at h ⊢
  rw [hahead]
  cases descending
  all_goals
    simp only [Bool.false_eq_true, if_false, if_true] at h ⊢
    omega

theorem count_extreme {descending : Bool} {value last : Int32} (h : 0 < count descending value last)
    (hextreme : value = extreme descending) : count descending value last = 1 := by
  have hbounds := bounds_toInt last
  rw [extreme_iff] at hextreme
  unfold count at h ⊢
  cases descending
  all_goals
    simp only [Bool.false_eq_true, if_false, if_true] at h hextreme ⊢
    omega

theorem value_advance (control : Control σ) (number : Nat) (descending : Bool) (m : Memory σ) :
    control.value number (control.advance number descending m) = ahead descending (control.value number m) := by
  cases control with
  | counter counted => exact counted.get_set _ _
  | step => exact Function.update_self _ _ _

theorem bound_advance (control : Control σ) (number : Nat) (descending : Bool) (m : Memory σ) :
    control.bound number (control.advance number descending m) = control.bound number m := by
  cases control <;> rfl

/-! ### A loop follows its turns -/

/-- Within, a run is the one of AL; else a counter has left the 32 bits. -/
structure Follows (within : Prop) (ran : σ × Outcome) (r : Result σ) : Prop where
  inside : within → r.memory.state = ran.1 ∧ r.outcome = ran.2 ∧ r.overflowed = false
  outside : ¬ within → r.overflowed = true

/-- What is written ends where it is within, and follows what AL runs. -/
structure Correct (within : σ → Prop) (ran : σ → σ × Outcome) (runs : Memory σ → Result σ → Prop) (m : Memory σ) :
    Prop where
  ends : within m.state → ∃ r, runs m r
  follows : ∀ r, runs m r → Follows (within m.state) (ran m.state) r

section Turns
variable {set : Int32 → σ → σ} {leave : σ → σ} {body : σ → σ × Outcome} {within : σ → Prop} {ends : Int32 → Prop}

theorem turns_congr {s s' : σ} (hset : ∀ value, set value s = set value s') (hleave : leave s = leave s')
    (list : List Int32) : turns set leave body list s = turns set leave body list s' := by
  cases list with
  | nil => rw [turns, turns, hleave]
  | cons value rest => rw [turns, turns, hset]

theorem turnsWithin_congr {s s' : σ} (hset : ∀ value, set value s = set value s') (list : List Int32) :
    TurnsWithin set body within ends list s ↔ TurnsWithin set body within ends list s' := by
  cases list with
  | nil => exact Iff.rfl
  | cons value rest => rw [TurnsWithin, TurnsWithin, hset]

/-- A loop whose control is not touched by its body takes its turns. -/
theorem iterates_correct {comesAround : Bool} (control : Control σ) (number : Nat) (descending : Bool)
    (set : Int32 → σ → σ) (leave : σ → σ) (body : σ → σ × Outcome) (within : σ → Prop) (ends : Int32 → Prop)
    (runs : Memory σ → Result σ → Prop) (n : Nat)
    (hbody : ∀ m, Correct (fun s => within (set (control.value number m) s))
      (fun s => body (set (control.value number m) s)) runs m)
    (hbound : ∀ m r, runs m r → control.bound number r.memory = control.bound number m)
    (hvalue : ∀ m r, within (set (control.value number m) m.state) → runs m r →
      control.value number r.memory = control.value number m)
    (hset : ∀ value m, set value (control.advance number descending m).state = set value m.state)
    (hleave : ∀ m, leave (control.advance number descending m).state = leave m.state)
    {m : Memory σ} (hcount : count descending (control.value number m) (control.bound number m) = n)
    (hends : ∀ value ∈ valuesFrom descending n (control.value number m), ends value ↔ value = extreme descending)
    (hend : ∀ m', control.value number m' = (ahead descending)^[n] (control.value number m) → leave m'.state =
        m'.state) :
    Correct (TurnsWithin set body within ends (valuesFrom descending n (control.value number m)))
      (turns set leave body (valuesFrom descending n (control.value number m)))
      (Iterates comesAround control number descending runs) m := by
  induction n generalizing m with
  | zero =>
    have htest : control.test number descending m = false := by
      rw [Bool.eq_false_iff, ne_eq, test_iff, hcount]
      exact Nat.lt_irrefl 0
    refine ⟨fun _ => ⟨_, .done htest⟩, fun r hr => ?_⟩
    cases hr with
    | done => exact ⟨fun _ => ⟨(hend m rfl).symm, rfl, rfl⟩, fun h => absurd trivial h⟩
    | left h | turn h | around h | trapped h => rw [htest] at h; cases h
  | succ n ih =>
    have htest : control.test number descending m = true := test_iff.mpr (by omega)
    obtain ⟨hexists, hfollows⟩ := hbody m
    generalize hv : control.value number m = v at *
    -- the turns behind this one, from the memory behind it
    have hrest : ∀ r, runs m r → within (set v m.state) → v ≠ extreme descending →
        Correct (fun _ => TurnsWithin set body within ends (valuesFrom descending n (ahead descending v))
            r.memory.state)
          (fun _ => turns set leave body (valuesFrom descending n (ahead descending v)) r.memory.state)
          (Iterates comesAround control number descending runs) (control.advance number descending r.memory) := by
      intro r hr hwithin hfurther
      have hnext : control.value number (control.advance number descending r.memory) = ahead descending v := by
        rw [value_advance, hvalue m r (by rwa [hv]) hr, hv]
      have hlast : control.bound number (control.advance number descending r.memory) = control.bound number m := by
        rw [bound_advance, hbound m r hr]
      have hfewer : count descending (ahead descending v) (control.bound number m) = n := by
        have hstep : count descending v (control.bound number m) = _ := count_ahead (by omega) hfurther
        omega
      have hlater : Correct _ _ _ (control.advance number descending r.memory) := ih (by rw [hnext, hlast, hfewer])
        (by rw [hnext]; exact fun value hmem => hends value (List.mem_cons_of_mem _ hmem))
            (by rw [hnext]; exact hend)
      rw [hnext] at hlater
      refine ⟨fun h => hlater.ends ((turnsWithin_congr (hset · _) _).mpr h), fun q hq => ?_⟩
      have hq := hlater.follows q hq
      rwa [turns_congr (hset · _) (hleave _), turnsWithin_congr (hset · _)] at hq
    have hhere : ends v ↔ v = extreme descending := hends v List.mem_cons_self
    refine ⟨fun ⟨hwithin, hgoes⟩ => ?_, fun r hr => ?_⟩
    · obtain ⟨r, hr⟩ := hexists hwithin
      obtain ⟨hstate, houtcome, -⟩ := (hfollows r hr).inside hwithin
      cases hon : r.outcome.goesOn with
      | false => exact ⟨_, .left htest hr hon⟩
      | true =>
        obtain ⟨hnot, hlater⟩ := hgoes (houtcome ▸ hon)
        have hfurther := mt hhere.mpr hnot
        obtain ⟨q, hq⟩ := (hrest r hr hwithin hfurther).ends (hstate ▸ hlater)
        exact ⟨_, .turn htest hr hon (by rwa [hvalue m r (by rwa [hv]) hr, hv]) hq⟩
    · rw [valuesFrom, turns]
      cases hr with
      | done h => rw [htest] at h; cases h
      | @left _ r _ hr hleft =>
        refine ⟨fun ⟨hwithin, hgoes⟩ => ?_, fun hnot => ?_⟩
        · obtain ⟨hstate, houtcome, hover⟩ := (hfollows r hr).inside hwithin
          rw [← houtcome, hleft, ← hstate]
          exact ⟨rfl, rfl, hover⟩
        · refine (hfollows r hr).outside fun hwithin => hnot ⟨hwithin, fun hon => ?_⟩
          rw [← ((hfollows r hr).inside hwithin).2.1, hleft] at hon
          cases hon
      | @turn _ r q _ hr hon hfurther hq =>
        by_cases hwithin : within (set v m.state)
        · obtain ⟨hstate, houtcome, hover⟩ := (hfollows r hr).inside hwithin
          rw [hvalue m r (by rwa [hv]) hr, hv] at hfurther
          have hlater := (hrest r hr hwithin hfurther).follows q hq
          rw [← houtcome, if_pos hon, ← hstate]
          refine ⟨fun ⟨_, hgoes⟩ => ?_, fun hnot => ?_⟩
          · have hinside := hlater.inside (hstate ▸ (hgoes (houtcome ▸ hon)).2)
            rw [hover]
            exact hinside
          · rw [hlater.outside fun h => hnot ⟨hwithin, fun _ => ⟨mt hhere.mp hfurther, hstate ▸ h⟩⟩, Bool.or_true]
        · refine ⟨fun h => absurd h.1 hwithin, fun _ => ?_⟩
          rw [(hfollows r hr).outside hwithin, Bool.true_or]
      | @around _ r q _ hr hon hextreme _ hq | @trapped _ r _ hr hon hextreme _ =>
        refine ⟨fun ⟨hwithin, hgoes⟩ => ?_, fun _ => rfl⟩
        rw [hvalue m r (by rwa [hv]) hr, hv] at hextreme
        exact absurd (hhere.mpr hextreme) (hgoes (((hfollows r hr).inside hwithin).2.1 ▸ hon)).1

end Turns

/-! ### The loops as they are written -/

section Headers
variable {comesAround : Bool} {descending : Bool} {number : Nat} {body : Cpp σ} {m : Memory σ} {r : Result σ}

/-- A statement behind another that ended well is behind it. -/
theorem runs_behind (rest : Cpp σ) (m' : Memory σ) :
    (∃ p : Result σ, p = ⟨m', .next, false⟩ ∧ if p.outcome = .next then
      ∃ q, rest.Runs comesAround p.memory q ∧ r = { q with overflowed := p.overflowed || q.overflowed } else r =
          p) ↔
      rest.Runs comesAround m' r := by
  constructor
  · rintro ⟨_, rfl, h⟩
    obtain ⟨q, hq, rfl⟩ := h
    exact hq
  · exact fun h => ⟨_, rfl, r, h, rfl⟩

theorem runs_raised (rest : Cpp σ) (m' : Memory σ) :
    (∃ p : Result σ, p = ⟨m', .raised, false⟩ ∧ if p.outcome = .next then
      ∃ q, rest.Runs comesAround p.memory q ∧ r = { q with overflowed := p.overflowed || q.overflowed } else r =
          p) ↔
      r = ⟨m', .raised, false⟩ := by
  constructor
  · rintro ⟨_, rfl, h⟩
    exact h
  · exact fun h => ⟨_, rfl, h⟩

theorem runs_integers {counter : Variable σ Int32} {first last : Expression σ Int32}
    (plain : overBooleans first.text last.text counter.declaredType = false) :
    ((Header.integers counter first last plain).write descending number body).Runs comesAround m r ↔
      match first.value m.state with
      | (s, none) => r = ⟨{ m with state := s }, .raised, false⟩
      | (s, some low) =>
        match last.value (counter.set low s) with
        | (s, none) => r = ⟨{ m with state := s }, .raised, false⟩
        | (s, some high) =>
          Iterates comesAround (.counter counter) number descending (body.Runs comesAround)
            { m with state := s, ends := Function.update m.ends number high } r := by
  unfold Header.write
  simp only [Cpp.Runs]
  rcases hfirst : first.value m.state with ⟨s, _ | low⟩
  · exact runs_raised (.chain (.declareEnd number last) (.forLoop (.counter counter) number descending body)) _
  · refine (runs_behind (.chain (.declareEnd number last) (.forLoop (.counter counter) number descending body))
      { m with state := counter.set low s }).trans ?_
    simp only [Cpp.Runs]
    rcases hlast : last.value (counter.set low s) with ⟨s', _ | high⟩
    · exact runs_raised (.forLoop (.counter counter) number descending body) _
    · exact runs_behind (.forLoop (.counter counter) number descending body) _

theorem ordinal_value (condition : Condition σ) (s : σ) :
    condition.ordinal.value s = ((condition.value s).1, (condition.value s).2.map ordinal) := by
  unfold Condition.ordinal
  split
  · next h => rw [condition.spelledTrue h]; rfl
  · split
    · next h => rw [condition.spelledFalse h]; rfl
    · rfl

theorem runs_booleans {counter : Variable σ Bool} {first last : Condition σ}
    (flags : overBooleans first.text last.text counter.declaredType = true) :
    ((Header.booleans counter first last flags).write descending number body).Runs comesAround m r ↔
      match first.value m.state with
      | (s, none) => r = ⟨{ m with state := s }, .raised, false⟩
      | (s, some low) =>
        let m' := { m with steps := Function.update m.steps number (ordinal low) }
        match last.value s with
        | (s, none) => r = ⟨{ m' with state := s }, .raised, false⟩
        | (s, some high) =>
          Iterates comesAround .step number descending ((Cpp.chain (.assignFlag counter number) body).Runs
              comesAround)
            { m' with state := s, endFlags := Function.update m.endFlags number high } r := by
  unfold Header.write
  simp only [Cpp.Runs, ordinal_value]
  rcases hfirst : first.value m.state with ⟨s, _ | low⟩
  · exact runs_raised (.chain (.declareEndFlag number last.toExpression)
      (.forLoop .step number descending (.chain (.assignFlag counter number) body))) _
  · refine (runs_behind (.chain (.declareEndFlag number last.toExpression)
      (.forLoop .step number descending (.chain (.assignFlag counter number) body)))
      { m with state := s, steps := Function.update m.steps number (ordinal low) }).trans ?_
    simp only [Cpp.Runs]
    rcases hlast : last.value s with ⟨s', _ | high⟩
    · exact runs_raised (.forLoop .step number descending (.chain (.assignFlag counter number) body)) _
    · exact runs_behind (.forLoop .step number descending (.chain (.assignFlag counter number) body)) _

end Headers

/-! ### What is declared for other loops -/

/-- What is declared for the loops up to a number is what it was. -/
def Memory.Agrees (number : Nat) (m m' : Memory σ) : Prop :=
  ∀ k ≤ number, m'.ends k = m.ends k ∧ m'.endFlags k = m.endFlags k ∧ m'.steps k = m.steps k

namespace Memory.Agrees
variable {number : Nat} {m m' m'' : Memory σ}

theorem refl (number : Nat) (m : Memory σ) : Agrees number m m := fun _ _ => ⟨rfl, rfl, rfl⟩

theorem trans (h : Agrees number m m') (h' : Agrees number m' m'') : Agrees number m m'' := fun k hk =>
  ⟨(h' k hk).1.trans (h k hk).1, (h' k hk).2.1.trans (h k hk).2.1, (h' k hk).2.2.trans (h k hk).2.2⟩

theorem mono {below : Nat} (h : Agrees number m m') (hle : below ≤ number) : Agrees below m m' :=
  fun k hk => h k (Nat.le_trans hk hle)

end Memory.Agrees

theorem iterates_agrees {comesAround : Bool} {control : Control σ} {number below : Nat} {descending : Bool}
    {runs : Memory σ → Result σ → Prop} (hbody : ∀ m r, runs m r → m.Agrees below r.memory)
    (hadvance : ∀ m : Memory σ, m.Agrees below (control.advance number descending m)) {m : Memory σ} {r : Result σ}
    (h : Iterates comesAround control number descending runs m r) : m.Agrees below r.memory := by
  induction h with
  | done => exact .refl below _
  | left _ hr _ | trapped _ hr _ _ _ => exact fun k hk => hbody _ _ hr k hk
  | turn _ hr _ _ _ ih | around _ hr _ _ _ _ ih => exact ((hbody _ _ hr).trans (hadvance _)).trans ih

theorem write_sequence (stmt : Stmt σ) (sequence : Nat) : sequence ≤ (stmt.write sequence).2 := by
  induction stmt generalizing sequence with
  | chain first rest ihfirst ihrest => exact Nat.le_trans (ihfirst sequence) (ihrest _)
  | block body ih => exact ih sequence
  | ifThen condition body otherwise ihbody ihotherwise => exact Nat.le_trans (ihbody sequence) (ihotherwise _)
  | forLoop header descending body ih => exact Nat.le_trans (Nat.le_succ sequence) (ih _)
  | _ => exact Nat.le_refl sequence

/-- A statement declares for loops of later numbers only. -/
theorem write_agrees {comesAround : Bool} (stmt : Stmt σ) {sequence : Nat} {m : Memory σ} {r : Result σ}
    (h : (stmt.write sequence).1.Runs comesAround m r) : m.Agrees sequence r.memory := by
  induction stmt generalizing sequence m r with
  | nothing | «break» | «continue» | other =>
    obtain rfl := h
    exact .refl sequence _
  | chain first rest ihfirst ihrest =>
    obtain ⟨p, hp, h⟩ := h
    split at h
    · obtain ⟨q, hq, rfl⟩ := h
      exact (ihfirst hp).trans ((ihrest hq).mono (write_sequence first sequence))
    · obtain rfl := h
      exact ihfirst hp
  | block body ih => exact ih h
  | ifThen condition body otherwise ihbody ihotherwise =>
    simp only [Stmt.write, Cpp.Runs] at h
    rcases hvalue : condition.value m.state with ⟨s, _ | _ | _⟩ <;> rw [hvalue] at h
    · obtain rfl := h
      exact .refl sequence _
    · have hagrees := (ihotherwise h).mono (write_sequence body sequence)
      exact fun k hk => hagrees k hk
    · have hagrees := ihbody h
      exact fun k hk => hagrees k hk
  | forLoop header descending body ih =>
    have hlater : ∀ {number : Nat}, number ≤ sequence → number ≠ sequence + 1 := fun h => by omega
    have hinner : ∀ m r, (body.write (sequence + 1)).1.Runs comesAround m r → m.Agrees sequence r.memory :=
      fun m r hr => (ih hr).mono (Nat.le_succ sequence)
    cases header with
    | integers counter first last plain =>
      replace h := (runs_integers plain).mp h
      rcases hfirst : first.value m.state with ⟨s, _ | low⟩ <;> rw [hfirst] at h
      · obtain rfl := h
        exact .refl sequence _
      · rcases hlast : last.value (counter.set low s) with ⟨s', _ | high⟩ <;> dsimp only at h <;> rw [hlast] at h
        · obtain rfl := h
          exact .refl sequence _
        · refine Memory.Agrees.trans ?_ (iterates_agrees hinner (fun m => .refl sequence _) h)
          exact fun k hk => ⟨Function.update_of_ne (hlater hk) _ _, rfl, rfl⟩
    | booleans counter first last flags =>
      replace h := (runs_booleans flags).mp h
      rcases hfirst : first.value m.state with ⟨s, _ | low⟩ <;> rw [hfirst] at h
      · obtain rfl := h
        exact .refl sequence _
      · rcases hlast : last.value s with ⟨s', _ | high⟩ <;> dsimp only at h <;> rw [hlast] at h
        · obtain rfl := h
          exact fun k hk => ⟨rfl, rfl, Function.update_of_ne (hlater hk) _ _⟩
        · refine Memory.Agrees.trans ?_ (iterates_agrees (fun m r hr => ?_) (fun m => ?_) h)
          · exact fun k hk => ⟨rfl, Function.update_of_ne (hlater hk) _ _, Function.update_of_ne (hlater hk) _ _⟩
          · exact fun k hk => hinner _ _ ((runs_behind _ _).mp hr) k hk
          · exact fun k hk => ⟨rfl, rfl, Function.update_of_ne (hlater hk) _ _⟩

/-! ### Statements follow AL -/

theorem Follows.of_eq {within : Prop} {ran : σ × Outcome} {r : Result σ} (hwithin : within)
    (h : r.memory.state = ran.1 ∧ r.outcome = ran.2 ∧ r.overflowed = false) : Follows within ran r :=
  ⟨fun _ => h, fun hnot => absurd hwithin hnot⟩

/-- A statement that does one thing. -/
theorem correct_one {within : σ → Prop} {ran : σ → σ × Outcome} {runs : Memory σ → Result σ → Prop} {m : Memory σ}
    {q : Result σ} (hruns : ∀ r, runs m r ↔ r = q) (hwithin : within m.state)
    (h : q.memory.state = (ran m.state).1 ∧ q.outcome = (ran m.state).2 ∧ q.overflowed = false) :
    Correct within ran runs m :=
  ⟨fun _ => ⟨q, (hruns q).mpr rfl⟩, fun r hr => (hruns r).mp hr ▸ .of_eq hwithin h⟩

theorem chain_correct {comesAround : Bool} {first rest : Stmt σ} {written written' : Cpp σ} {m : Memory σ}
    (hfirst : Correct first.Within first.run (written.Runs comesAround) m)
    (hrest : ∀ m, Correct rest.Within rest.run (written'.Runs comesAround) m) :
    Correct (Stmt.chain first rest).Within (Stmt.chain first rest).run
        ((Cpp.chain written written').Runs comesAround)
      m := by
  refine ⟨fun ⟨hwithin, hthen⟩ => ?_, fun r ⟨p, hp, h⟩ => ?_⟩
  · obtain ⟨p, hp⟩ := hfirst.ends hwithin
    obtain ⟨hstate, houtcome, -⟩ := (hfirst.follows p hp).inside hwithin
    by_cases hnext : p.outcome = .next
    · obtain ⟨q, hq⟩ := (hrest p.memory).ends (hstate ▸ hthen (houtcome ▸ hnext))
      exact ⟨_, p, hp, by rw [if_pos hnext]; exact ⟨q, hq, rfl⟩⟩
    · exact ⟨p, p, hp, by rw [if_neg hnext]⟩
  · rw [Stmt.run]
    have hp := hfirst.follows p hp
    by_cases hwithin : first.Within m.state
    · obtain ⟨hstate, houtcome, hover⟩ := hp.inside hwithin
      rw [← houtcome, ← hstate]
      split at h
      · next hnext =>
        obtain ⟨q, hq, rfl⟩ := h
        have hq := (hrest p.memory).follows q hq
        rw [if_pos hnext, hover, Bool.false_or]
        refine ⟨fun ⟨_, hthen⟩ => hq.inside (hstate ▸ hthen (houtcome ▸ hnext)), fun hnot => hq.outside fun h => ?_⟩
        exact hnot ⟨hwithin, fun _ => hstate ▸ h⟩
      · next hnext =>
        obtain rfl := h
        rw [if_neg hnext]
        exact .of_eq ⟨hwithin, fun h => absurd (houtcome.trans h) hnext⟩ (hp.inside hwithin)
    · refine ⟨fun h => absurd h.1 hwithin, fun _ => ?_⟩
      have hover := hp.outside hwithin
      split at h
      · obtain ⟨q, hq, rfl⟩ := h
        rw [hover, Bool.true_or]
      · rw [h, hover]

theorem Correct.of_iff {within within' : σ → Prop} {ran ran' : σ → σ × Outcome}
    {runs runs' : Memory σ → Result σ → Prop} {m m' : Memory σ} (h : Correct within ran runs m)
    (hwithin : within' m'.state ↔ within m.state) (hran : ran' m'.state = ran m.state)
    (hruns : ∀ r, runs' m' r ↔ runs m r) : Correct within' ran' runs' m' := by
  refine ⟨fun hin => ?_, fun r hr => ?_⟩
  · obtain ⟨r, hr⟩ := h.ends (hwithin.mp hin)
    exact ⟨r, (hruns r).mpr hr⟩
  · rw [hran]
    have hr := h.follows r ((hruns r).mp hr)
    exact ⟨fun hin => hr.inside (hwithin.mp hin), fun hout => hr.outside (mt hwithin.mpr hout)⟩

/-- The loop of a variable that its body keeps. -/
theorem counter_correct {comesAround : Bool} (counter : Variable σ Int32) (descending : Bool) {body : Stmt σ}
    {number : Nat} (hkeeps : ∀ s, counter.get (body.run s).1 = counter.get s)
    (hbody : ∀ m, Correct body.Within body.run ((body.write number).1.Runs comesAround) m) (m : Memory σ) :
    Correct
      (TurnsWithin counter.set body.run body.Within (· = extreme descending)
        (values descending (counter.get m.state) (m.ends number)))
      (turns counter.set (counter.set (behind descending (counter.get m.state) (m.ends number))) body.run
        (values descending (counter.get m.state) (m.ends number)))
      (Iterates comesAround (.counter counter) number descending ((body.write number).1.Runs comesAround)) m := by
  have hown : ∀ m : Memory σ, counter.set ((Control.counter counter).value number m) m.state = m.state :=
    fun m => counter.set_get m.state
  refine iterates_correct (.counter counter) number descending counter.set _ body.run body.Within
    (· = extreme descending) _ (count descending (counter.get m.state) (m.ends number))
    (fun m => ?_) (fun m r hr => ?_) (fun m r hwithin hr => ?_)
    (fun value m => counter.set_set _ _ _) (fun m => counter.set_set _ _ _) rfl (fun _ _ => Iff.rfl)
        (fun m' h => ?_)
  · exact (hbody m).of_iff (by rw [hown]) (by rw [hown]) fun _ => Iff.rfl
  · exact (write_agrees body hr number (Nat.le_refl _)).1
  · rw [hown] at hwithin
    show counter.get r.memory.state = counter.get m.state
    rw [(((hbody m).follows r hr).inside hwithin).1, hkeeps]
  · have hleft : counter.get m'.state = behind descending (counter.get m.state) (m.ends number) := h
    rw [← hleft]
    exact counter.set_get _

theorem integers_correct {comesAround : Bool} {counter : Variable σ Int32} {first last : Expression σ Int32}
    (plain : overBooleans first.text last.text counter.declaredType = false) (descending : Bool) {body : Stmt σ}
    {number : Nat} (hkeeps : (Header.integers counter first last plain).Keeps body.run)
    (hbody : ∀ m, Correct body.Within body.run ((body.write number).1.Runs comesAround) m) (m : Memory σ) :
    Correct ((Header.integers counter first last plain).Within descending body.run body.Within)
      ((Header.integers counter first last plain).run descending body.run)
      (((Header.integers counter first last plain).write descending number (body.write number).1).Runs comesAround)
      m := by
  obtain ⟨hlastKeeps, hbodyKeeps⟩ := hkeeps
  have hruns : ∀ r : Result σ, ((Header.integers counter first last plain).write descending number
      (body.write number).1).Runs comesAround m r ↔ _ := fun r => runs_integers plain
  rcases hfirst : first.value m.state with ⟨s, _ | low⟩
  · simp only [hfirst] at hruns
    refine correct_one hruns (fun low high hlow => ?_) ?_
    · rw [hfirst] at hlow
      cases hlow
    · rw [Header.run, hfirst]
      exact ⟨rfl, rfl, rfl⟩
  rcases hlast : last.value (counter.set low s) with ⟨s', _ | high⟩
  · simp only [hfirst, hlast] at hruns
    refine correct_one hruns (fun low' high hlow hhigh => ?_) ?_
    · rw [hfirst] at hlow hhigh
      cases hlow
      rw [hlast] at hhigh
      cases hhigh
    · simp only [Header.run, hfirst, hlast, and_self]
  · simp only [hfirst, hlast] at hruns
    have hlow : counter.get s' = low := by
      rw [← show (last.value (counter.set low s)).1 = s' by rw [hlast], hlastKeeps, counter.get_set]
    have hloop := counter_correct counter descending hbodyKeeps hbody
      { m with state := s', ends := Function.update m.ends number high }
    dsimp only at hloop
    rw [hlow, Function.update_self] at hloop
    refine hloop.of_iff ⟨fun h => ?_, fun h low' high' hlow' hhigh' => ?_⟩ ?_ hruns
    · have hturns := h low high (by rw [hfirst]) (by rw [hfirst, hlast])
      rw [hfirst, hlast] at hturns
      exact hturns
    · rw [hfirst] at hlow' hhigh' ⊢
      cases hlow'
      rw [hlast] at hhigh' ⊢
      cases hhigh'
      exact h
    · simp only [Header.run, hfirst, hlast]

theorem ordinal_ne_extreme {descending low high : Bool} {value : Int32}
    (h : value ∈ values descending (ordinal low) (ordinal high)) : value ≠ extreme descending := by
  have hall : (values descending (ordinal low) (ordinal high)).all (· != extreme descending) = true := by
    cases descending <;> cases low <;> cases high <;> rfl
  simpa using List.all_eq_true.mp hall value h

/-- The loop of a step of its own, which sets a flag at every turn. -/
theorem step_correct {comesAround : Bool} (counter : Variable σ Bool) (descending : Bool) {body : Stmt σ}
    {number : Nat} (hbody : ∀ m, Correct body.Within body.run ((body.write number).1.Runs comesAround) m)
    (m : Memory σ) {low : Bool} (hlow : m.steps number = ordinal low) :
    Correct
      (TurnsWithin (fun value => counter.set (value != 0)) body.run body.Within (fun _ => False)
        (values descending (m.steps number) (ordinal (m.endFlags number))))
      (turns (fun value => counter.set (value != 0)) id body.run
        (values descending (m.steps number) (ordinal (m.endFlags number))))
      (Iterates comesAround .step number descending
        ((Cpp.chain (.assignFlag counter number) (body.write number).1).Runs comesAround)) m := by
  have hagrees : ∀ (m : Memory σ) (r : Result σ),
      (Cpp.chain (.assignFlag counter number) (body.write number).1).Runs comesAround m r →
          m.Agrees number r.memory :=
    fun m r hr k hk => write_agrees body ((runs_behind _ _).mp hr) k hk
  refine iterates_correct .step number descending (fun value => counter.set (value != 0)) id body.run body.Within
    (fun _ => False) _ (count descending (m.steps number) (ordinal (m.endFlags number)))
    (fun m => ?_) (fun m r hr => ?_) (fun m r hwithin hr => ?_)
    (fun value m => rfl) (fun m => rfl) rfl (fun value hvalue => ?_) (fun m' h => rfl)
  · exact (hbody { m with state := counter.set (m.steps number != 0) m.state }).of_iff Iff.rfl rfl
      fun r => runs_behind _ _
  · exact congrArg ordinal (hagrees m r hr number (Nat.le_refl _)).2.1
  · exact (hagrees m r hr number (Nat.le_refl _)).2.2
  · have hvalues : value ∈ values descending (m.steps number) (ordinal (m.endFlags number)) := hvalue
    rw [hlow] at hvalues
    exact ⟨False.elim, fun h => ordinal_ne_extreme hvalues h⟩

theorem booleans_correct {comesAround : Bool} {counter : Variable σ Bool} {first last : Condition σ}
    (flags : overBooleans first.text last.text counter.declaredType = true) (descending : Bool) {body : Stmt σ}
    {number : Nat} (hbody : ∀ m, Correct body.Within body.run ((body.write number).1.Runs comesAround) m)
    (m : Memory σ) :
    Correct ((Header.booleans counter first last flags).Within descending body.run body.Within)
      ((Header.booleans counter first last flags).run descending body.run)
      (((Header.booleans counter first last flags).write descending number (body.write number).1).Runs comesAround)
      m := by
  have hruns : ∀ r : Result σ, ((Header.booleans counter first last flags).write descending number
      (body.write number).1).Runs comesAround m r ↔ _ := fun r => runs_booleans flags
  rcases hfirst : first.value m.state with ⟨s, _ | low⟩
  · simp only [hfirst] at hruns
    refine correct_one hruns (fun low high hlow => ?_) ?_
    · rw [hfirst] at hlow
      cases hlow
    · rw [Header.run, hfirst]
      exact ⟨rfl, rfl, rfl⟩
  rcases hlast : last.value s with ⟨s', _ | high⟩
  · simp only [hfirst, hlast] at hruns
    refine correct_one hruns (fun low' high hlow hhigh => ?_) ?_
    · rw [hfirst] at hlow hhigh
      rw [hlast] at hhigh
      cases hhigh
    · simp only [Header.run, hfirst, hlast, and_self]
  · simp only [hfirst, hlast] at hruns
    have hloop := step_correct counter descending hbody
      { m with
        state := s', steps := Function.update m.steps number (ordinal low),
        endFlags := Function.update m.endFlags number high }
      (Function.update_self _ _ _)
    dsimp only at hloop
    rw [Function.update_self, Function.update_self] at hloop
    refine hloop.of_iff ⟨fun h => ?_, fun h low' high' hlow' hhigh' => ?_⟩ ?_ hruns
    · have hturns := h low high (by rw [hfirst]) (by rw [hfirst, hlast])
      rw [hfirst, hlast] at hturns
      exact hturns
    · rw [hfirst] at hlow' hhigh' ⊢
      cases hlow'
      rw [hlast] at hhigh' ⊢
      cases hhigh'
      exact h
    · simp only [Header.run, hfirst, hlast]

theorem write_correct (comesAround : Bool) (stmt : Stmt σ) (hcounts : stmt.Counts) (sequence : Nat)
    (m : Memory σ) :
    Correct stmt.Within stmt.run ((stmt.write sequence).1.Runs comesAround) m := by
  induction stmt generalizing sequence m with
  | nothing | «break» | «continue» | other => exact correct_one (fun r => Iff.rfl) trivial ⟨rfl, rfl, rfl⟩
  | chain first rest ihfirst ihrest =>
    exact chain_correct (ihfirst hcounts.1 sequence m) fun m => ihrest hcounts.2 _ m
  | block body ih => exact ih hcounts sequence m
  | ifThen condition body otherwise ihbody ihotherwise =>
    rcases hvalue : condition.value m.state with ⟨s, _ | _ | _⟩
    · refine correct_one (q := ⟨{ m with state := s }, .raised, false⟩) (fun r => ?_) ?_ ?_
      · simp only [Stmt.write, Cpp.Runs, hvalue]
      · simp [Stmt.Within, hvalue]
      · simp only [Stmt.run, hvalue, and_self]
    · refine (ihotherwise hcounts.2 (body.write sequence).2 { m with state := s }).of_iff ?_ ?_ fun r => ?_
      · simp [Stmt.Within, hvalue]
      · simp only [Stmt.run, hvalue]
      · simp only [Stmt.write, Cpp.Runs, hvalue]
    · refine (ihbody hcounts.1 sequence { m with state := s }).of_iff ?_ ?_ fun r => ?_
      · simp [Stmt.Within, hvalue]
      · simp only [Stmt.run, hvalue]
      · simp only [Stmt.write, Cpp.Runs, hvalue]
  | forLoop header descending body ih =>
    have hbody := fun m => ih hcounts.2 (sequence + 1) m
    cases header with
    | integers counter first last plain => exact integers_correct plain descending hcounts.1 hbody m
    | booleans counter first last flags => exact booleans_correct flags descending hbody m

theorem within_of_lawful {comesAround : Bool} {stmt : Stmt σ} (hcounts : stmt.Counts) {sequence : Nat}
    {m : Memory σ}
    (h : stmt.Lawful comesAround sequence m) : stmt.Within m.state := by
  obtain ⟨⟨r, hr⟩, hall⟩ := h
  by_contra hout
  have hover := ((write_correct comesAround stmt hcounts sequence m).follows r hr).outside hout
  rw [(hall r hr).2.2] at hover
  cases hover

theorem lawful_of_within (comesAround : Bool) {stmt : Stmt σ} (hcounts : stmt.Counts) (sequence : Nat)
    {m : Memory σ}
    (h : stmt.Within m.state) : stmt.Lawful comesAround sequence m :=
  have hcorrect := write_correct comesAround stmt hcounts sequence m
  ⟨hcorrect.ends h, fun r hr => (hcorrect.follows r hr).inside h⟩

/-! ### The ends of the range -/

/-- The last value of the type is a value of a range exactly if it is the range's last. -/
theorem extreme_mem {descending : Bool} {low high : Int32} :
    extreme descending ∈ values descending low high ↔ high = extreme descending := by
  unfold values
  generalize hn : count descending low high = n
  induction n generalizing low with
  | zero =>
    refine ⟨fun h => absurd h List.not_mem_nil, fun h => ?_⟩
    have hbounds := bounds_toInt low
    rw [extreme_iff] at h
    unfold count at hn
    cases descending
    all_goals
      simp only [Bool.false_eq_true, if_false, if_true] at h hn
      omega
  | succ n ih =>
    rw [valuesFrom, List.mem_cons]
    by_cases hlow : low = extreme descending
    · have hbounds := bounds_toInt high
      have hcount : count descending low high = 1 := count_extreme (by omega) hlow
      refine iff_of_true (.inl hlow.symm) ?_
      rw [extreme_iff] at hlow ⊢
      unfold count at hcount
      cases descending
      all_goals
        simp only [Bool.false_eq_true, if_false, if_true] at hlow hcount ⊢
        omega
    · have hahead : count descending low high = _ := count_ahead (by omega) hlow
      have hrest : count descending (ahead descending low) high = n := by omega
      rw [← ih hrest, or_iff_right fun h => hlow h.symm]

/-- A body that always goes on takes every turn. -/
theorem turnsWithin_iff {set : Int32 → σ → σ} {body : σ → σ × Outcome} {within : σ → Prop} {ends : Int32 → Prop}
    (hwithin : ∀ s, within s) (hgoes : ∀ s, (body s).2.goesOn = true) {list : List Int32} {s : σ} :
    TurnsWithin set body within ends list s ↔ ∀ value ∈ list, ¬ ends value := by
  induction list generalizing s with
  | nil => exact iff_of_true trivial fun _ h => absurd h List.not_mem_nil
  | cons value rest ih => simp only [TurnsWithin, hwithin, hgoes, true_and, true_implies, List.forall_mem_cons, ih]

/-- Without anything that ends them, turns that are within are within. -/
theorem turnsWithin_true {set : Int32 → σ → σ} {body : σ → σ × Outcome} {within : σ → Prop}
    (hwithin : ∀ s, within s) (list : List Int32) (s : σ) : TurnsWithin set body within (fun _ => False) list
        s := by
  induction list generalizing s with
  | nil => trivial
  | cons value rest ih => exact ⟨hwithin _, fun _ => ⟨id, ih _⟩⟩

/-- **What is written for a statement does as the statement**, ends, and leaves no counter without a value, exactly
if no loop of Integers in it goes on from a turn at the end of the 32 bits. Where its body always goes on that is
a loop whose last value is another; a loop of Booleans is as its body. -/
theorem write_lawful (comesAround : Bool) :
    (∀ (stmt : Stmt σ) (sequence : Nat) (m : Memory σ), stmt.Counts →
      (stmt.Lawful comesAround sequence m ↔ stmt.Within m.state)) ∧
    (∀ (counter : Variable σ Int32) (first last : Expression σ Int32)
        (plain : overBooleans first.text last.text counter.declaredType = false) (descending : Bool)
            (body : Stmt σ)
        (sequence : Nat) (m : Memory σ) (low high : Int32),
      (Stmt.forLoop (.integers counter first last plain) descending body).Counts → (∀ s, body.Within s) →
      (∀ s, (body.run s).2.goesOn = true) → (first.value m.state).2 = some low →
      (last.value (counter.set low (first.value m.state).1)).2 = some high →
      ((Stmt.forLoop (.integers counter first last plain) descending body).Lawful comesAround sequence m ↔
        high ≠ extreme descending)) ∧
    ∀ (counter : Variable σ Bool) (first last : Condition σ)
        (flags : overBooleans first.text last.text counter.declaredType = true) (descending : Bool) (body : Stmt σ)
        (sequence : Nat) (m : Memory σ), body.Counts → (∀ s, body.Within s) →
      (Stmt.forLoop (.booleans counter first last flags) descending body).Lawful comesAround sequence m := by
  have hiff : ∀ (stmt : Stmt σ) (sequence : Nat) (m : Memory σ), stmt.Counts →
      (stmt.Lawful comesAround sequence m ↔ stmt.Within m.state) := fun stmt sequence m hcounts =>
    ⟨within_of_lawful hcounts, lawful_of_within comesAround hcounts sequence⟩
  refine ⟨hiff, ?_, ?_⟩
  · intro counter first last plain descending body sequence m low high hcounts hwithin hgoes hlow hhigh
    have hextreme : high ≠ extreme descending ↔ extreme descending ∉ values descending low high :=
      not_congr extreme_mem.symm
    rw [hiff _ sequence m hcounts, hextreme]
    have hturns : ∀ s, TurnsWithin counter.set body.run body.Within (· = extreme descending)
        (values descending low high) s ↔ extreme descending ∉ values descending low high := fun s => by
      rw [turnsWithin_iff hwithin hgoes]
      exact ⟨fun h hmem => h _ hmem rfl, fun h value hmem heq => h (heq ▸ hmem)⟩
    refine ⟨fun h => (hturns _).mp (h low high hlow hhigh), fun h low' high' hlow' hhigh' => ?_⟩
    cases hlow.symm.trans hlow'
    cases hhigh.symm.trans hhigh'
    exact (hturns _).mpr h
  · intro counter first last flags descending body sequence m hcounts hwithin
    refine (hiff _ sequence m ?_).mpr fun low high _ _ => turnsWithin_true hwithin _ _
    exact ⟨trivial, hcounts⟩

/-- A statement without text. -/
def empty : Stmt σ := .other "" fun s => (s, .next)

/-- `for I := 1 to 3 do ;` -/
def threeTurns : Stmt (Int32 × Bool) :=
  .forLoop (.integers ⟨"I", "Integer", Prod.fst, fun value s => (value, s.2), fun _ _ => rfl, fun _ => rfl,
      fun _ _ _ => rfl⟩
    ⟨"1", fun s => (s, some 1)⟩ ⟨"3", fun s => (s, some 3)⟩ (by simp [overBooleans, sameName])) false empty

/-- `for Flag := true downto false do for I := 1 to 3 do ;` -/
def nestedTurns : Stmt (Int32 × Bool) :=
  .forLoop (.booleans ⟨"Flag", "Boolean", Prod.snd, fun flag s => (s.1, flag), fun _ _ => rfl, fun _ => rfl,
      fun _ _ _ => rfl⟩
    ⟨⟨"true", fun s => (s, some true)⟩, fun _ _ => rfl, by simp⟩
    ⟨⟨"false", fun s => (s, some false)⟩, by simp, fun _ _ => rfl⟩ (by simp [overBooleans])) true threeTurns

theorem write_lawful_nested : nestedTurns.Lawful false 0 ⟨(0, false), fun _ => 0, fun _ => false, fun _ => 0⟩ := by
  obtain ⟨hwithin, hintegers, hbooleans⟩ := write_lawful (σ := Int32 × Bool) false
  have hcounts : threeTurns.Counts := ⟨⟨fun _ => rfl, fun _ => rfl⟩, trivial⟩
  refine hbooleans _ _ _ _ true threeTurns 0 _ hcounts fun s => ?_
  refine (hwithin threeTurns 0 ⟨s, fun _ => 0, fun _ => false, fun _ => 0⟩ hcounts).mp ?_
  exact (hintegers _ _ _ _ false empty 0 _ 1 3 hcounts (fun _ => trivial) (fun _ => rfl) rfl rfl).mpr (by decide)

/-- `for I := 2147483647 to 2147483647 do ;` -/
def lastTurn : Stmt Int32 :=
  .forLoop (.integers ⟨"I", "Integer", id, fun value _ => value, fun _ _ => rfl, fun _ => rfl, fun _ _ _ => rfl⟩
    ⟨"2147483647", fun s => (s, some 2147483647)⟩ ⟨"2147483647", fun s => (s, some 2147483647)⟩
    (by simp [overBooleans, sameName])) false empty

/-- The counter of the one turn is stepped out of the 32 bits. -/
theorem lastTurn_unlawful :
    ¬ lastTurn.Lawful true 0 ⟨0, fun _ => 0, fun _ => false, fun _ => 0⟩ ∧
      ¬ lastTurn.Lawful false 0 ⟨0, fun _ => 0, fun _ => false, fun _ => 0⟩ := by
  have hcounts : lastTurn.Counts := ⟨⟨fun _ => rfl, fun _ => rfl⟩, trivial⟩
  have hout : ¬ lastTurn.Within 0 := fun h => ((h 2147483647 2147483647 rfl rfl).2 rfl).1 rfl
  exact ⟨fun h => hout (within_of_lawful hcounts h), fun h => hout (within_of_lawful hcounts h)⟩

end Agiru.Writer
