import Mathlib.Data.Set.Finite.Lemmas
import Mathlib.Data.Set.Finite.List

/-! Alternatives of conjunctions of closed spans, and where what they admit ends.

A span may be open at either end. Conjunctions join at the least of their upper ends (`least`), and
alternatives at the greatest of those that admit anything: an end is right exactly if it is that one
(`endsAt_iff`). -/
namespace Spans

variable {α : Type} [LinearOrder α]

/-- What stands between two ends; either may be missing. -/
structure Span (α : Type) where
  lower : WithBot α
  upper : WithTop α
  deriving DecidableEq

def Span.Admits (span : Span α) (x : α) : Prop := span.lower ≤ x ∧ x ≤ span.upper

/-- What every span of a conjunction admits. -/
def common (all : List (Span α)) : Set α := {x | ∀ span ∈ all, span.Admits x}

/-- What one of the alternatives admits. -/
def admitted (alternatives : List (List (Span α))) : Set α := {x | ∃ all ∈ alternatives, x ∈ common all}

/-- The least upper end of a conjunction. -/
def least (all : List (Span α)) : WithTop α := all.foldr (fun span e => min span.upper e) ⊤

/-- The least upper ends of the alternatives that admit anything. -/
def ends (alternatives : List (List (Span α))) : Set (WithTop α) :=
  {e | ∃ all ∈ alternatives, (common all).Nonempty ∧ e = least all}

/-- The last upper end that is written. -/
def lastEnd (alternatives : List (List (Span α))) : WithTop α :=
  alternatives.flatten.foldl (fun e span => if span.upper = ⊤ then e else span.upper) ⊤

/-- Where a set ends: nowhere, or at its greatest element. -/
structure EndsAt (s : Set α) (e : WithTop α) : Prop where
  open_iff : e = ⊤ ↔ ¬ BddAbove s
  greatest : ∀ m : α, e = m → IsGreatest s m

/-! ### A conjunction -/

theorem le_least_iff {all : List (Span α)} {e : WithTop α} : e ≤ least all ↔ ∀ span ∈ all, e ≤ span.upper := by
  induction all with
  | nil => exact iff_of_true le_top fun span h => absurd h List.not_mem_nil
  | cons span rest ih => rw [least, List.foldr_cons, le_min_iff, List.forall_mem_cons, ← ih, least]

theorem le_least {all : List (Span α)} {x : α} (h : x ∈ common all) : (x : WithTop α) ≤ least all :=
  le_least_iff.mpr fun span hspan => (h span hspan).2

/-- What is above an admitted element is admitted up to the least upper end. -/
theorem common_upward {all : List (Span α)} {x y : α} (hx : x ∈ common all) (hxy : x ≤ y) (hy : y ≤ least all) :
    y ∈ common all := by
  intro span hspan
  exact ⟨(hx span hspan).1.trans (WithBot.coe_le_coe.mpr hxy), le_least_iff.mp hy span hspan⟩

theorem greatest_common {all : List (Span α)} {m : α} (h : (common all).Nonempty) (hm : least all = m) :
    m ∈ common all := by
  obtain ⟨x, hx⟩ := h
  have hle := le_least hx
  rw [hm] at hle
  exact common_upward hx (WithTop.coe_le_coe.mp hle) hm.ge

theorem unbounded_common [NoMaxOrder α] {all : List (Span α)} (h : (common all).Nonempty) (htop : least all = ⊤) :
    ¬ BddAbove (common all) := by
  obtain ⟨x, hx⟩ := h
  rw [not_bddAbove_iff]
  intro bound
  obtain ⟨y, hy⟩ := exists_gt (max x bound)
  have habove := max_lt_iff.mp hy
  refine ⟨y, common_upward hx habove.1.le ?_, habove.2⟩
  rw [htop]
  exact le_top

/-! ### Alternatives -/

theorem endsAt_unique {s : Set α} {e e' : WithTop α} (h : EndsAt s e) (h' : EndsAt s e') : e = e' := by
  induction e using WithTop.recTopCoe with
  | top => exact (h'.open_iff.mpr (h.open_iff.mp rfl)).symm
  | coe m =>
    induction e' using WithTop.recTopCoe with
    | top => exact absurd (h.greatest m rfl).bddAbove (h'.open_iff.mp rfl)
    | coe m' => rw [(h.greatest m rfl).unique (h'.greatest m' rfl)]

/-- The greatest of the ends is where the alternatives end. -/
theorem endsAt_greatest [NoMaxOrder α] {alternatives : List (List (Span α))} {e : WithTop α}
    (h : IsGreatest (ends alternatives) e) : EndsAt (admitted alternatives) e := by
  obtain ⟨⟨all, hall, hsome, he⟩, habove⟩ := h
  have hbelow : ∀ x ∈ admitted alternatives, (x : WithTop α) ≤ e := by
    intro x hx
    obtain ⟨other, hother, hx⟩ := hx
    exact (le_least hx).trans (habove ⟨other, hother, ⟨x, hx⟩, rfl⟩)
  have hgreatest : ∀ m : α, e = m → IsGreatest (admitted alternatives) m := by
    intro m hm
    refine ⟨⟨all, hall, greatest_common hsome (he.symm.trans hm)⟩, fun x hx => ?_⟩
    have hle := hbelow x hx
    rw [hm] at hle
    exact WithTop.coe_le_coe.mp hle
  refine ⟨⟨?_, ?_⟩, hgreatest⟩
  · intro htop hbounded
    apply unbounded_common hsome (he.symm.trans htop)
    have hpart : common all ⊆ admitted alternatives := fun x hx => ⟨all, hall, hx⟩
    exact hbounded.mono hpart
  · intro hunbounded
    by_contra hne
    obtain ⟨m, hm⟩ := WithTop.ne_top_iff_exists.mp hne
    exact hunbounded (hgreatest m hm.symm).bddAbove

/-- One of the ends is the greatest. -/
theorem exists_greatest {alternatives : List (List (Span α))} (h : (admitted alternatives).Nonempty) :
    ∃ e, IsGreatest (ends alternatives) e := by
  obtain ⟨x, all, hall, hx⟩ := h
  have hfinite : (ends alternatives).Finite := by
    apply ((alternatives.map least).finite_toSet).subset
    intro e he
    obtain ⟨all, hall, -, rfl⟩ := he
    exact List.mem_map_of_mem hall
  have hsome : (ends alternatives).Nonempty := ⟨_, all, hall, ⟨x, hx⟩, rfl⟩
  obtain ⟨e, he, hmax⟩ := Set.exists_max_image (ends alternatives) id hfinite hsome
  exact ⟨e, he, fun other hother => hmax other hother⟩

/-- **Where alternatives end.** Alternatives that admit anything end at the greatest of their ends, and
nowhere else. -/
theorem endsAt_iff [NoMaxOrder α] {alternatives : List (List (Span α))} (h : (admitted alternatives).Nonempty)
    {e : WithTop α} : EndsAt (admitted alternatives) e ↔ IsGreatest (ends alternatives) e := by
  constructor
  · intro hends
    obtain ⟨greatest, hgreatest⟩ := exists_greatest h
    rw [endsAt_unique hends (endsAt_greatest hgreatest)]
    exact hgreatest
  · exact endsAt_greatest

end Spans
