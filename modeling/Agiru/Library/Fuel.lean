import Mathlib.Init

/-! Recursion that is driven by fuel.

A function whose calls are indexed is given by one step, which makes its calls through `rec`; `run`
ties the knot, a call deeper with every unit of fuel. An answer is a value, a failure of the
function's own, or none at all for want of fuel. `Safe` is the total correctness of an answer: fuel
did not run out, and a value is as specified. A step that is safe wherever the calls of lesser need
are, is safe with fuel for its need. -/
namespace Fuel

/-- A value, a failure, or no fuel. -/
abbrev Answer (ε β : Type) := Except (Option ε) β

/-- Fuel does not run out, and a value is as specified. -/
def Safe {ε β : Type} (answer : Answer ε β) (P : β → Prop) : Prop :=
  match answer with
  | .ok b => P b
  | .error none => False
  | .error (some _) => True

section Rules
variable {ε β γ : Type} {P : β → Prop} {Q : γ → Prop}

theorem Safe.pure {b : β} (h : P b) : Safe (Pure.pure b : Answer ε β) P := h

theorem Safe.fail (e : ε) : Safe (.error (some e) : Answer ε β) P := trivial

theorem Safe.bind {x : Answer ε β} {f : β → Answer ε γ} (hx : Safe x P)
    (hf : ∀ b, P b → Safe (f b) Q) : Safe (x >>= f) Q := by
  cases x with
  | ok b => exact hf b hx
  | error failure =>
    cases failure with
    | none => exact hx.elim
    | some e => trivial

theorem Safe.ite {c : Prop} [Decidable c] {x y : Answer ε β} (hx : c → Safe x P)
    (hy : ¬ c → Safe y P) : Safe (if c then x else y) P := by
  by_cases hc : c
  · rw [if_pos hc]
    exact hx hc
  · rw [if_neg hc]
    exact hy hc

theorem Safe.imp {P' : β → Prop} {x : Answer ε β} (hx : Safe x P) (h : ∀ b, P b → P' b) :
    Safe x P' := by
  cases x with
  | ok b => exact h b hx
  | error failure =>
    cases failure with
    | none => exact hx.elim
    | some e => trivial

theorem Safe.ok {x : Answer ε β} {b : β} (hx : Safe x P) (h : x = .ok b) : P b := by
  subst h
  exact hx

theorem Safe.fueled {x : Answer ε β} (hx : Safe x P) : x ≠ .error none := by
  rintro rfl
  exact hx

end Rules

variable {ι ε : Type} {β : ι → Type}

/-- The calls of a function, with so much fuel. -/
def run (step : (∀ i, Answer ε (β i)) → ∀ i, Answer ε (β i)) : Nat → ∀ i, Answer ε (β i)
  | 0, _ => .error none
  | fuel + 1, i => step (run step fuel) i

/-- **Every call is safe with fuel for its need.** -/
theorem run_safe {step : (∀ i, Answer ε (β i)) → ∀ i, Answer ε (β i)} {need : ι → Nat}
    {P : ∀ i, β i → Prop}
    (hstep : ∀ rec i, (∀ j, need j < need i → Safe (rec j) (P j)) → Safe (step rec i) (P i))
    (fuel : Nat) (i : ι) (hfuel : need i < fuel) : Safe (run step fuel i) (P i) := by
  induction fuel generalizing i with
  | zero => exact absurd hfuel (Nat.not_lt_zero _)
  | succ fuel ih =>
    refine hstep (run step fuel) i fun j hj => ih j ?_
    exact Nat.lt_of_lt_of_le hj (Nat.le_of_lt_succ hfuel)

end Fuel
