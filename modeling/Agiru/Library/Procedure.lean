import Mathlib.Data.List.Forall2

/-! Computations that may refuse.

What a sequence of steps returned, each step returned (`of_bind`); what was read of a list, each
of its elements was read, in order (`of_mapM`). -/
namespace Fallible

variable {ε ε' α β : Type}

/-- Steps that returned both returned. -/
theorem of_bind {p : Except ε α} {f : α → Except ε β} {b : β} (h : p >>= f = .ok b) :
    ∃ a, p = .ok a ∧ f a = .ok b := by
  cases p with
  | error e => cases h
  | ok a => exact ⟨a, rfl, h⟩

theorem bind_ok {p : Except ε α} {f : α → Except ε β} {a : α} (h : p = .ok a) : p >>= f = f a := by
  rw [h]
  rfl

theorem of_map {p : Except ε α} {f : α → β} {b : β} (h : f <$> p = .ok b) : ∃ a, p = .ok a ∧ f a = b := by
  cases p with
  | error e => cases h
  | ok a => exact ⟨a, rfl, Except.ok.inj h⟩

theorem of_mapError {p : Except ε α} {f : ε → ε'} {a : α} (h : p.mapError f = .ok a) : p = .ok a := by
  cases p with
  | error e => cases h
  | ok b => exact congrArg Except.ok (Except.ok.inj h)

/-- What was not refused returned the rest. -/
theorem of_guard {c : Prop} [Decidable c] {e : ε} {p : Except ε α} {a : α}
    (h : (if c then .error e else p) = .ok a) : ¬ c ∧ p = .ok a := by
  split at h
  · cases h
  · next hc => exact ⟨hc, h⟩

/-- What was read of a list, element by element. -/
theorem of_mapM {f : α → Except ε β} {l : List α} {l' : List β} (h : l.mapM f = .ok l') :
    List.Forall₂ (fun a b => f a = .ok b) l l' := by
  induction l generalizing l' with
  | nil =>
    rw [List.mapM_nil] at h
    cases h
    exact .nil
  | cons a l ih =>
    rw [List.mapM_cons] at h
    obtain ⟨b, hb, h⟩ := of_bind h
    obtain ⟨rest, hrest, h⟩ := of_bind h
    cases h
    exact .cons hb (ih hrest)

/-- Where every element has a value, so has the list. -/
theorem mapM_total {f : α → Option β} {g : α → β} {l : List α} (h : ∀ a ∈ l, f a = some (g a)) :
    l.mapM f = some (l.map g) := by
  induction l with
  | nil => rfl
  | cons a l ih =>
    obtain ⟨ha, hl⟩ := List.forall_mem_cons.mp h
    rw [List.mapM_cons, ha, ih hl]
    rfl

end Fallible

/-! ### Procedures over a state that an exception does not undo.

A `Procedure ε σ α` reads and writes a `σ` and ends with an `α` or raises an `ε`;
what it wrote before raising stays written. `exec` runs it, and the lemmas here are
the equations that run a body one statement at a time. -/

abbrev Procedure (ε σ α : Type) := ExceptT ε (StateM σ) α

namespace Procedure

variable {ε σ α β : Type}

/-- How a procedure ends from a state, and the state it leaves. -/
def exec (p : Procedure ε σ α) (s : σ) : Except ε α × σ := (ExceptT.run p).run s

@[simp] theorem exec_pure (a : α) (s : σ) : exec (pure a : Procedure ε σ α) s = (.ok a, s) := rfl

@[simp] theorem exec_get (s : σ) : exec (get : Procedure ε σ σ) s = (.ok s, s) := rfl

@[simp] theorem exec_set (t s : σ) : exec (set t : Procedure ε σ PUnit) s = (.ok ⟨⟩, t) := rfl

@[simp] theorem exec_modify (f : σ → σ) (s : σ) :
    exec (modify f : Procedure ε σ PUnit) s = (.ok ⟨⟩, f s) := rfl

@[simp] theorem exec_throw (e : ε) (s : σ) :
    exec (throw e : Procedure ε σ α) s = (.error e, s) := rfl

theorem exec_bind (p : Procedure ε σ α) (f : α → Procedure ε σ β) (s : σ) :
    exec (p >>= f) s =
      match exec p s with
      | (.ok a, t) => exec (f a) t
      | (.error e, t) => (.error e, t) := by
  show (ExceptT.run (p >>= f)).run s = _
  simp only [ExceptT.run_bind, StateT.run_bind, exec]
  rcases h : (ExceptT.run p).run s with ⟨e | a, t⟩ <;> rfl

@[simp] theorem exec_map (f : α → β) (p : Procedure ε σ α) (s : σ) :
    exec (f <$> p) s =
      match exec p s with
      | (.ok a, t) => (.ok (f a), t)
      | (.error e, t) => (.error e, t) := by
  rw [map_eq_pure_bind, exec_bind]
  rfl

@[simp] theorem exec_ite (c : Prop) [Decidable c] (p q : Procedure ε σ α) (s : σ) :
    exec (if c then p else q) s = if c then exec p s else exec q s := by
  split <;> rfl

/-- A statement that returned is followed by the rest. -/
theorem exec_bind_ok {p : Procedure ε σ α} {f : α → Procedure ε σ β} {s t : σ} {a : α}
    (h : exec p s = (.ok a, t)) : exec (p >>= f) s = exec (f a) t := by
  rw [exec_bind, h]

/-- Statements that returned both returned. -/
theorem of_exec_bind {p : Procedure ε σ α} {f : α → Procedure ε σ β} {s u : σ} {b : β}
    (h : exec (p >>= f) s = (.ok b, u)) :
    ∃ a t, exec p s = (.ok a, t) ∧ exec (f a) t = (.ok b, u) := by
  rw [exec_bind] at h
  rcases hp : exec p s with ⟨e | a, t⟩ <;> rw [hp] at h
  · cases h
  · exact ⟨a, t, rfl, h⟩

/-- A procedure that raises nothing else. -/
def Raises (P : ε → Prop) (p : Procedure ε σ α) : Prop := ∀ s e t, exec p s = (.error e, t) → P e

namespace Raises
variable {P : ε → Prop} {p : Procedure ε σ α} {f : α → Procedure ε σ β}

theorem of_returns (h : ∀ s, ∃ a t, exec p s = (.ok a, t)) : Raises P p := by
  intro s e t he
  obtain ⟨a, u, hok⟩ := h s
  rw [hok] at he
  cases he

theorem throw {e : ε} (h : P e) : Raises P (throw e : Procedure ε σ α) := by
  intro s e' t he
  cases he
  exact h

theorem bind (hp : Raises P p) (hf : ∀ a, Raises P (f a)) : Raises P (p >>= f) := by
  intro s e t h
  rw [exec_bind] at h
  rcases hrun : exec p s with ⟨e' | a, u⟩ <;> rw [hrun] at h
  · cases h
    exact hp s e _ hrun
  · exact hf a u e t h

end Raises

@[simp] theorem exec_forM_nil (f : β → Procedure ε σ PUnit) (s : σ) :
    exec (([] : List β).forM f) s = (.ok ⟨⟩, s) := rfl

theorem exec_forM_cons (f : β → Procedure ε σ PUnit) (x : β) (xs : List β) (s : σ) :
    exec ((x :: xs).forM f) s =
      match exec (f x) s with
      | (.ok _, t) => exec (xs.forM f) t
      | (.error e, t) => (.error e, t) := by
  show exec (f x >>= fun _ => xs.forM f) s = _
  rw [exec_bind]
  rcases exec (f x) s with ⟨e | a, t⟩ <;> rfl

theorem exec_forM_map {γ : Type} (g : γ → β) (f : β → Procedure ε σ PUnit) (xs : List γ) (s : σ) :
    exec ((xs.map g).forM f) s = exec (xs.forM fun x => f (g x)) s := by
  induction xs generalizing s with
  | nil => rfl
  | cons x xs ih =>
    rw [List.map_cons, exec_forM_cons, exec_forM_cons]
    rcases exec (f (g x)) s with ⟨e | a, t⟩
    · rfl
    · exact ih t

theorem exec_forM_append (f : β → Procedure ε σ PUnit) (xs ys : List β) (s : σ) :
    exec ((xs ++ ys).forM f) s = exec (xs.forM f >>= fun _ => ys.forM f) s := by
  induction xs generalizing s with
  | nil =>
    rw [exec_bind, exec_forM_nil]
    rfl
  | cons x xs ih =>
    rw [List.cons_append, exec_forM_cons, exec_bind, exec_forM_cons]
    rcases exec (f x) s with ⟨e | a, t⟩
    · rfl
    · exact (ih t).trans (exec_bind _ _ t)

/-- What every statement of a loop keeps, the loop keeps, whether it raises or not. -/
theorem exec_forM_keeps {f : β → Procedure ε σ PUnit} {P : σ → Prop} {xs : List β}
    (h : ∀ x ∈ xs, ∀ s, P s → P (exec (f x) s).2) {s : σ} (hs : P s) : P (exec (xs.forM f) s).2 := by
  induction xs generalizing s with
  | nil => exact hs
  | cons x xs ih =>
    obtain ⟨hx, hrest⟩ := List.forall_mem_cons.mp h
    have hfirst := hx s hs
    rw [exec_forM_cons]
    rcases hrun : exec (f x) s with ⟨e | a, t⟩ <;> rw [hrun] at hfirst
    · exact hfirst
    · exact ih hrest hfirst

theorem exec_tryCatch (p : Procedure ε σ α) (handle : ε → Procedure ε σ α) (s : σ) :
    exec (tryCatch p handle) s =
      match exec p s with
      | (.ok a, t) => (.ok a, t)
      | (.error e, t) => exec (handle e) t := by
  simp only [exec, tryCatch, tryCatchThe, MonadExceptOf.tryCatch, ExceptT.tryCatch, ExceptT.mk,
    ExceptT.run, StateT.run, bind, StateT.bind]
  rcases h : (p : StateM σ (Except ε α)) s with ⟨e | a, t⟩ <;> rfl

/-- A body that returned is not handled. -/
theorem exec_tryCatch_ok {p : Procedure ε σ α} {handle : ε → Procedure ε σ α} {s t : σ} {a : α}
    (h : exec p s = (.ok a, t)) : exec (tryCatch p handle) s = (.ok a, t) := by
  rw [exec_tryCatch, h]

/-- What a procedure leaves true, however it ends. -/
def Keeps (P : σ → Prop) (p : Procedure ε σ α) : Prop := ∀ s, P s → P (exec p s).2

namespace Keeps
variable {P : σ → Prop} {p q : Procedure ε σ α} {f : α → Procedure ε σ β}

theorem pure (a : α) : Keeps P (pure a : Procedure ε σ α) := fun _ h => h

theorem get : Keeps P (MonadState.get : Procedure ε σ σ) := fun _ h => h

theorem throw (e : ε) : Keeps P (throw e : Procedure ε σ α) := fun _ h => h

theorem modify {f : σ → σ} (h : ∀ s, P s → P (f s)) : Keeps P (modify f : Procedure ε σ PUnit) := h

theorem bind (hp : Keeps P p) (hf : ∀ a, Keeps P (f a)) : Keeps P (p >>= f) := by
  intro s hs
  have hfirst := hp s hs
  rw [exec_bind]
  rcases hrun : exec p s with ⟨e | a, t⟩ <;> rw [hrun] at hfirst
  · exact hfirst
  · exact hf a t hfirst

theorem tryCatch {handle : ε → Procedure ε σ α} (hp : Keeps P p) (hhandle : ∀ e, Keeps P (handle e)) :
    Keeps P (tryCatch p handle) := by
  intro s hs
  have hfirst := hp s hs
  rw [exec_tryCatch]
  rcases hrun : exec p s with ⟨e | a, t⟩ <;> rw [hrun] at hfirst
  · exact hhandle e t hfirst
  · exact hfirst

theorem and {Q : σ → Prop} (hp : Keeps P p) (hq : Keeps Q p) : Keeps (fun s => P s ∧ Q s) p :=
  fun s hs => ⟨hp s hs.1, hq s hs.2⟩

theorem ite {c : Prop} [Decidable c] (hp : Keeps P p) (hq : Keeps P q) : Keeps P (if c then p else q) := by
  split
  · exact hp
  · exact hq

end Keeps

/-- A handler that raises lets only the body return. -/
theorem of_exec_tryCatch {p : Procedure ε σ α} {handle : ε → Procedure ε σ α} {s t : σ} {a : α}
    (hraises : ∀ e u b v, exec (handle e) u ≠ (.ok b, v)) (h : exec (tryCatch p handle) s = (.ok a, t)) :
    exec p s = (.ok a, t) := by
  rw [exec_tryCatch] at h
  rcases hrun : exec p s with ⟨e | b, u⟩ <;> rw [hrun] at h
  · exact absurd h (hraises e u a t)
  · exact h

theorem not_returned_throw (e : ε) {p : Procedure ε σ β} (s : σ) (a : α) (t : σ) :
    exec (p >>= fun _ => (throw e : Procedure ε σ α)) s ≠ (.ok a, t) := by
  rw [exec_bind]
  split <;> simp

/-- What a procedure that returns leaves true. -/
def Returning (P : σ → Prop) (p : Procedure ε σ α) : Prop := ∀ s a t, P s → exec p s = (.ok a, t) → P t

namespace Returning
variable {P : σ → Prop} {p q : Procedure ε σ α} {f : α → Procedure ε σ β}

theorem of_keeps (h : Keeps P p) : Returning P p := by
  intro s a t hs hrun
  have hkept := h s hs
  rwa [hrun] at hkept

theorem throw (e : ε) : Returning P (throw e : Procedure ε σ α) := by
  intro s a t _ h
  cases h

theorem bind (hp : Returning P p) (hf : ∀ a, Returning P (f a)) : Returning P (p >>= f) := by
  intro s b t hs h
  obtain ⟨a, u, hfirst, hrest⟩ := of_exec_bind h
  exact hf a u b t (hp s a u hs hfirst) hrest

end Returning

/-- What a procedure that raises leaves true. -/
def Raising (P : σ → Prop) (p : Procedure ε σ α) : Prop := ∀ s e t, P s → exec p s = (.error e, t) → P t

namespace Raising
variable {P : σ → Prop} {p q : Procedure ε σ α} {f : α → Procedure ε σ β}

theorem of_keeps (h : Keeps P p) : Raising P p := by
  intro s e t hs hrun
  have hkept := h s hs
  rwa [hrun] at hkept

theorem of_returns (h : ∀ s, ∃ a t, exec p s = (.ok a, t)) : Raising P p := by
  intro s e t _ he
  obtain ⟨a, u, hok⟩ := h s
  rw [hok] at he
  cases he

theorem bind (hp : Keeps P p) (hf : ∀ a, Raising P (f a)) : Raising P (p >>= f) := by
  intro s e t hs h
  have hfirst := hp s hs
  rw [exec_bind] at h
  rcases hrun : exec p s with ⟨e' | a, u⟩ <;> rw [hrun] at h hfirst
  · cases h
    exact hfirst
  · exact hf a u e t hfirst h

theorem ite {c : Prop} [Decidable c] (hp : Raising P p) (hq : Raising P q) : Raising P (if c then p else q) := by
  split
  · exact hp
  · exact hq

end Raising

/-- What a procedure that returns answers. -/
def Answers (Q : α → Prop) (p : Procedure ε σ α) : Prop := ∀ s a t, exec p s = (.ok a, t) → Q a

namespace Answers
variable {Q : α → Prop} {p q : Procedure ε σ α}

theorem pure {a : α} (h : Q a) : Answers Q (pure a : Procedure ε σ α) := by
  intro s b t hrun
  cases hrun
  exact h

theorem throw (e : ε) : Answers Q (throw e : Procedure ε σ α) := by
  intro s b t hrun
  cases hrun

theorem bind {first : Procedure ε σ β} {f : β → Procedure ε σ α} (hf : ∀ b, Answers Q (f b)) :
    Answers Q (first >>= f) := by
  intro s a t hrun
  obtain ⟨b, u, -, hrest⟩ := of_exec_bind hrun
  exact hf b u a t hrest

theorem bind_of {R : β → Prop} {first : Procedure ε σ β} {f : β → Procedure ε σ α} (hfirst : Answers R first)
    (hf : ∀ b, R b → Answers Q (f b)) : Answers Q (first >>= f) := by
  intro s a t hrun
  obtain ⟨b, u, hb, hrest⟩ := of_exec_bind hrun
  exact hf b (hfirst s b u hb) u a t hrest

theorem ite {c : Prop} [Decidable c] (hp : Answers Q p) (hq : Answers Q q) : Answers Q (if c then p else q) := by
  split
  · exact hp
  · exact hq

theorem tryCatch {handle : ε → Procedure ε σ α} (hp : Answers Q p) (hhandle : ∀ e, Answers Q (handle e)) :
    Answers Q (tryCatch p handle) := by
  intro s a t hrun
  rw [exec_tryCatch] at hrun
  rcases hbody : exec p s with ⟨e | b, u⟩ <;> rw [hbody] at hrun
  · exact hhandle e u a t hrun
  · cases hrun
    exact hp s _ _ hbody

end Answers

end Procedure
