import Mathlib.Order.WellFoundedSet

/-! What is computed along references without a cycle.

`r a b` says that `a` refers to `b`. Where no reference leads back, a value that depends
on the values of what is referred to is solved by one function, `solve`. A list is
`Built` when each of its elements refers only to elements after it: a recursion that
finishes what is referred to first, and remembers it, builds such a list, and no cycle
is ever among its elements. -/
namespace Layers
open Relation

variable {α β : Type} {r : α → α → Prop}

/-- A step that looks only at what is referred to. -/
def Local (r : α → α → Prop) (step : (α → β) → α → β) : Prop :=
  ∀ f g a, (∀ b, r a b → f b = g b) → step f a = step g a

section Solve
open Classical

/-- The solution of a local step. -/
noncomputable def solve [Inhabited β] (h : WellFounded fun b a => r a b) (step : (α → β) → α → β) :
    α → β :=
  h.fix fun a value => step (fun b => if hb : r a b then value b hb else default) a

theorem solve_eq [Inhabited β] (h : WellFounded fun b a => r a b) {step : (α → β) → α → β}
    (hstep : Local r step) (a : α) : solve h step a = step (solve h step) a := by
  rw [solve, h.fix_eq]
  refine hstep _ _ a fun b hb => ?_
  rw [dif_pos hb]

end Solve

/-- There is no other solution. -/
theorem solution_unique (h : WellFounded fun b a => r a b) {step : (α → β) → α → β}
    (hstep : Local r step) {f g : α → β} (hf : ∀ a, f a = step f a) (hg : ∀ a, g a = step g a) :
    f = g := by
  funext a
  induction a using h.induction with
  | h a ih =>
    rw [hf, hg]
    exact hstep f g a ih

/-- Among finitely many that refer at all, no cycle means that every descent ends. -/
theorem wellFounded_of_acyclic (hfinite : {a | ∃ b, r a b}.Finite) (h : ∀ a, ¬ TransGen r a a) :
    WellFounded fun b a => r a b := by
  have : IsStrictOrder α fun b a => TransGen r a b :=
    { irrefl := h, trans := fun _ _ _ hab hbc => hbc.trans hab }
  have hwf : {a | ∃ b, r a b}.WellFoundedOn fun b a => TransGen r a b := hfinite.wellFoundedOn
  have hacc : ∀ a, (∃ b, r a b) → Acc (fun b a => r a b) a := by
    intro a ha
    refine hwf.induction ha fun a _ ih => ⟨a, fun b hab => ?_⟩
    by_cases hb : ∃ c, r b c
    · exact ih b hb (.single hab)
    · exact ⟨b, fun c hbc => absurd ⟨c, hbc⟩ hb⟩
  refine ⟨fun a => ?_⟩
  by_cases ha : ∃ b, r a b
  · exact hacc a ha
  · exact ⟨a, fun b hab => absurd ⟨b, hab⟩ ha⟩

/-! ### Lists built from what is referred to -/

/-- Every element is new, and refers to later elements only. -/
inductive Built (r : α → α → Prop) : List α → Prop
  | nil : Built r []
  | cons {a : α} {l : List α} : a ∉ l → (∀ b, r a b → b ∈ l) → Built r l → Built r (a :: l)

namespace Built

theorem closed {l : List α} (h : Built r l) {a b : α} (ha : a ∈ l) (hab : r a b) : b ∈ l := by
  induction h with
  | nil => cases ha
  | cons hnew hrefers _ ih =>
    rcases List.mem_cons.mp ha with rfl | ha
    · exact List.mem_cons_of_mem _ (hrefers b hab)
    · exact List.mem_cons_of_mem _ (ih ha)

theorem closed_trans {l : List α} (h : Built r l) {a b : α} (ha : a ∈ l) (hab : ReflTransGen r a b) :
    b ∈ l := by
  induction hab with
  | refl => exact ha
  | tail _ hbc ih => exact h.closed ih hbc

/-- No cycle is among the elements. -/
theorem acyclic {l : List α} (h : Built r l) {a : α} (ha : a ∈ l) : ¬ TransGen r a a := by
  induction h with
  | nil => cases ha
  | @cons c l hnew hrefers hbuilt ih =>
    rcases List.mem_cons.mp ha with rfl | ha
    · intro hcycle
      obtain ⟨b, hab, hba⟩ := TransGen.head'_iff.mp hcycle
      exact hnew (hbuilt.closed_trans (hrefers b hab) hba)
    · exact ih ha

end Built

/-! ### Joins of lists -/

section Joined
variable [SemilatticeSup β] [OrderBot β]

/-- The join of the values of a list. -/
def joined (f : α → β) (l : List α) : β := (l.map f).foldr (· ⊔ ·) ⊥

@[simp] theorem joined_nil (f : α → β) : joined f [] = ⊥ := rfl

@[simp] theorem joined_cons (f : α → β) (a : α) (l : List α) :
    joined f (a :: l) = f a ⊔ joined f l := rfl

theorem joined_le_iff {f : α → β} {l : List α} {b : β} : joined f l ≤ b ↔ ∀ a ∈ l, f a ≤ b := by
  induction l with
  | nil => simp
  | cons a l ih => rw [joined_cons, sup_le_iff, ih, List.forall_mem_cons]

theorem joined_mono {f : α → β} {l l' : List α} (h : l ⊆ l') : joined f l ≤ joined f l' :=
  joined_le_iff.mpr fun a ha => joined_le_iff.mp le_rfl a (h ha)

@[simp] theorem joined_append (f : α → β) (l l' : List α) :
    joined f (l ++ l') = joined f l ⊔ joined f l' := by
  induction l with
  | nil => simp
  | cons a l ih => rw [List.cons_append, joined_cons, joined_cons, ih, sup_assoc]

theorem joined_congr {f g : α → β} {l : List α} (h : ∀ a ∈ l, f a = g a) :
    joined f l = joined g l := by
  rw [joined, joined, List.map_congr_left h]

/-- Neither the order nor repetitions count. -/
theorem joined_congr_mem {f : α → β} {l l' : List α} (h : ∀ a, a ∈ l ↔ a ∈ l') :
    joined f l = joined f l' :=
  le_antisymm (joined_mono fun a ha => (h a).mp ha) (joined_mono fun a ha => (h a).mpr ha)

end Joined

end Layers

/-! ### Queries under limits.

A limit keeps so many of the rows, whichever. A recursive query goes in rounds: it follows the
edges of what was new in the round before, as many as its limit keeps, until nothing is new.
By `Rounds.reaches`, where the edges of the whole answer are fewer than the limit, no round lost
one, and the answer is what the base leads to. -/
namespace Limited
open Relation

variable {α β ρ : Type*}

/-- As many of the rows as the limit allows, in any order. -/
structure Keeps (limit : Nat) (rows kept : List ρ) : Prop where
  among : kept.Subperm rows
  length : kept.length = min limit rows.length

/-- What stays below the limit is all there was. -/
theorem Keeps.perm {limit : Nat} {rows kept : List ρ} (h : Keeps limit rows kept)
    (hlt : kept.length < limit) : kept.Perm rows := by
  have hlength := h.length
  exact h.among.perm_of_length_le (by omega)

theorem Keeps.all {limit : Nat} {rows : List ρ} (h : rows.length ≤ limit) : Keeps limit rows rows :=
  ⟨List.Subperm.refl rows, by omega⟩

theorem subperm_flatMap {l l' : List α} (h : l.Subperm l') (f : α → List β) :
    (l.flatMap f).Subperm (l'.flatMap f) := by
  obtain ⟨middle, hperm, hsub⟩ := h
  exact (hperm.symm.flatMap_right f).subperm_right.mpr (hsub.flatMap f).subperm

variable [DecidableEq α] (limit : Nat) (edges : List ρ) (source target : ρ → α)

/-- The edges from such nodes. -/
def joined (nodes : List α) : List ρ := nodes.flatMap fun a => edges.filter fun e => source e = a

/-- The rounds from what is known, and of that new in the round before, to the answer. -/
inductive Rounds : List α → List α → List α → Prop
  | done (known : List α) : Rounds known [] known
  | round {known recent fresh final : List α} (kept : List ρ) : recent ≠ [] →
    Keeps limit (joined edges source recent) kept → fresh.Nodup →
    (∀ a, a ∈ fresh ↔ a ∈ kept.map target ∧ a ∉ known) →
    Rounds (known ++ fresh) fresh final → Rounds known recent final

/-- The rounds from a base without repetitions. -/
structure Recursive (base : List α) (final : List α) : Prop where
  nodup : base.Nodup
  rounds : Rounds limit edges source target base base final

/-- An edge from one node to another. -/
def Leads (a b : α) : Prop := ∃ e ∈ edges, source e = a ∧ target e = b

variable {limit edges source target} {known recent base final : List α}

theorem mem_joined {nodes : List α} {e : ρ} :
    e ∈ joined edges source nodes ↔ e ∈ edges ∧ source e ∈ nodes := by
  simp [joined, and_comm]

theorem Rounds.subset (h : Rounds limit edges source target known recent final) : known ⊆ final := by
  induction h with
  | done known => exact List.Subset.refl known
  | round kept hne hkept hfresh hmem hrounds ih =>
    exact List.Subset.trans (List.subset_append_left _ _) ih

theorem Rounds.nodup (h : Rounds limit edges source target known recent final) (hnodup : known.Nodup) :
    final.Nodup := by
  induction h with
  | done known => exact hnodup
  | round kept hne hkept hfresh hmem hrounds ih =>
    refine ih (hnodup.append hfresh ?_)
    intro a hknown ha
    exact ((hmem a).mp ha).2 hknown

/-- Whatever is in the answer was led to. -/
theorem Rounds.reached (h : Rounds limit edges source target known recent final)
    (hrecent : recent ⊆ known) :
    ∀ a ∈ final, ∃ b ∈ known, ReflTransGen (Leads edges source target) b a := by
  induction h with
  | done known => exact fun a ha => ⟨a, ha, .refl⟩
  | round kept hne hkept hfresh hmem hrounds ih =>
    intro a ha
    obtain ⟨b, hb, hpath⟩ := ih (List.subset_append_right _ _) a ha
    rcases List.mem_append.mp hb with hknown | hnew
    · exact ⟨b, hknown, hpath⟩
    · obtain ⟨e, he, rfl⟩ := List.mem_map.mp ((hmem b).mp hnew).1
      obtain ⟨hedge, hsource⟩ := mem_joined.mp (hkept.among.subset he)
      exact ⟨source e, hrecent hsource, .head ⟨e, hedge, rfl, rfl⟩ hpath⟩

/-- Where the answer's edges are fewer than the limit, it is closed under them. -/
theorem Rounds.closed (h : Rounds limit edges source target known recent final)
    (hroom : (joined edges source final).length < limit) (hnodup : recent.Nodup)
    (hrecent : recent ⊆ known)
    (hclosed : ∀ e ∈ edges, source e ∈ known → source e ∉ recent → target e ∈ known) :
    ∀ e ∈ edges, source e ∈ final → target e ∈ final := by
  induction h with
  | done known => exact fun e he hsource => hclosed e he hsource List.not_mem_nil
  | @round known recent fresh final kept hne hkept hfresh hmem hrounds ih =>
    have hsub : recent ⊆ final :=
      List.Subset.trans hrecent (List.Subset.trans (List.subset_append_left _ _) hrounds.subset)
    have hlength : (joined edges source recent).length ≤ (joined edges source final).length :=
      (subperm_flatMap (hnodup.subperm hsub) _).length_le
    have hperm : kept.Perm (joined edges source recent) := by
      have := hkept.length
      exact hkept.perm (by omega)
    refine ih hroom hfresh (List.subset_append_right _ _) fun e he hsource hold => ?_
    have hknown : source e ∈ known := (List.mem_append.mp hsource).resolve_right hold
    by_cases hnew : source e ∈ recent
    · have hkept : target e ∈ kept.map target :=
        List.mem_map_of_mem (hperm.mem_iff.mpr (mem_joined.mpr ⟨he, hnew⟩))
      by_cases htarget : target e ∈ known
      · exact List.mem_append_left _ htarget
      · exact List.mem_append_right _ ((hmem _).mpr ⟨hkept, htarget⟩)
    · exact List.mem_append_left _ (hclosed e he hknown hnew)

/-- Where the edges of the answer are fewer than the limit, it is what the base leads to. -/
theorem Recursive.reaches (h : Recursive limit edges source target base final)
    (hroom : (joined edges source final).length < limit) (a : α) :
    a ∈ final ↔ ∃ b ∈ base, ReflTransGen (Leads edges source target) b a := by
  refine ⟨h.rounds.reached (List.Subset.refl base) a, ?_⟩
  rintro ⟨b, hb, hpath⟩
  have hclosed := h.rounds.closed hroom h.nodup (List.Subset.refl base)
    fun e _ hsource hold => absurd hsource hold
  induction hpath with
  | refl => exact h.rounds.subset hb
  | tail _ hstep ih =>
    obtain ⟨e, he, rfl, rfl⟩ := hstep
    exact hclosed e he ih

end Limited
