import Mathlib.Data.Set.Card
import Mathlib.Tactic.Linarith
import Mathlib.Tactic.Ring

/-! Lists of intervals of whole numbers, and the numbers in them.

Intervals that are `Apart` rise and do not touch each other; their numbers rise as well, so each is there
once, and the first of them are those with the fewest below (`mem_take_iff`). -/
namespace Intervals

structure Interval where
  low : Int
  high : Int
  deriving Repr, DecidableEq

variable {is : List Interval}

instance : Membership Int Interval := ⟨fun i n => i.low ≤ n ∧ n ≤ i.high⟩

theorem mem_interval {i : Interval} {n : Int} : n ∈ i ↔ i.low ≤ n ∧ n ≤ i.high := Iff.rfl

instance (i : Interval) (n : Int) : Decidable (n ∈ i) := inferInstanceAs (Decidable (i.low ≤ n ∧ n ≤ i.high))

/-- How many numbers an interval has. -/
def Interval.size (i : Interval) : Int := i.high - i.low + 1

def Interval.numbers (i : Interval) : List Int := (List.range i.size.toNat).map fun k : Nat => i.low + k

def numbers (is : List Interval) : List Int := is.flatMap Interval.numbers

/-- One of the intervals has the number. -/
def Covers (is : List Interval) (n : Int) : Prop := ∃ i ∈ is, n ∈ i

structure Apart (is : List Interval) : Prop where
  full : ∀ i ∈ is, i.low ≤ i.high
  rising : is.Pairwise fun a b => a.high < b.low

/-- Between two of the intervals there is a number that neither has. -/
structure Gapped (is : List Interval) : Prop where
  full : ∀ i ∈ is, i.low ≤ i.high
  rising : is.Pairwise fun a b => a.high + 1 < b.low

theorem Gapped.apart (h : Gapped is) : Apart is :=
  ⟨h.full, h.rising.imp fun hab => by omega⟩

/-! ### The numbers of intervals -/

theorem mem_interval_numbers {i : Interval} {n : Int} : n ∈ i.numbers ↔ n ∈ i := by
  rw [Interval.numbers, List.mem_map, mem_interval]
  constructor
  · intro h
    obtain ⟨k, hk, rfl⟩ := h
    have hbound := List.mem_range.mp hk
    unfold Interval.size at hbound
    omega
  · intro h
    refine ⟨(n - i.low).toNat, List.mem_range.mpr ?_, by omega⟩
    unfold Interval.size
    omega

theorem numbers_cons (i : Interval) (is : List Interval) : numbers (i :: is) = i.numbers ++ numbers is := rfl

theorem mem_numbers {n : Int} : n ∈ numbers is ↔ Covers is n := by
  rw [numbers, List.mem_flatMap]
  exact exists_congr fun i => and_congr_right fun _ => mem_interval_numbers

theorem interval_numbers_rising (i : Interval) : i.numbers.Pairwise (· < ·) := by
  apply List.pairwise_map.mpr
  apply List.pairwise_lt_range.imp
  intro k l hkl
  omega

theorem Apart.numbers_rising (h : Apart is) : (numbers is).Pairwise (· < ·) := by
  rw [numbers, List.pairwise_flatMap]
  refine ⟨fun i _ => interval_numbers_rising i, h.rising.imp ?_⟩
  intro a b hab n hn m hm
  have hn := (mem_interval_numbers.mp hn).2
  have hm := (mem_interval_numbers.mp hm).1
  omega

/-- As many numbers as there are in the set that is covered. -/
theorem Apart.numbers_length (h : Apart is) : (numbers is).length = {n | Covers is n}.ncard := by
  have hset : {n | Covers is n} = ((numbers is).toFinset : Set Int) := by
    ext n
    rw [Finset.mem_coe, List.mem_toFinset, mem_numbers]
    rfl
  have hnodup : (numbers is).Nodup := h.numbers_rising.imp fun hlt => ne_of_lt hlt
  rw [hset, Set.ncard_coe_finset, List.toFinset_card_of_nodup hnodup]

theorem interval_numbers_length (i : Interval) : i.numbers.length = i.size.toNat := by
  rw [Interval.numbers, List.length_map, List.length_range]

/-- The first numbers of an interval are an interval. -/
theorem take_interval_numbers {i : Interval} {k : Nat} (h : (k : Int) ≤ i.size) :
    i.numbers.take k = (⟨i.low, i.low + k - 1⟩ : Interval).numbers := by
  have hsize : (⟨i.low, i.low + k - 1⟩ : Interval).size.toNat = k := by
    unfold Interval.size
    dsimp only
    omega
  rw [Interval.numbers, Interval.numbers, hsize, ← List.map_take, List.take_range, min_eq_left (by omega)]

theorem Apart.tail {i : Interval} (h : Apart (i :: is)) : Apart is :=
  ⟨fun j hj => h.full j (List.mem_cons_of_mem i hj), (List.pairwise_cons.mp h.rising).2⟩

theorem apart_singleton {i : Interval} (h : i.low ≤ i.high) : Apart [i] :=
  ⟨fun _ hj => List.mem_singleton.mp hj ▸ h, List.pairwise_singleton _ _⟩

/-! ### The first of rising elements -/

section
variable {α : Type} [LinearOrder α]

/-- Among the first elements of a rising list are those that have few below them. -/
theorem mem_take_iff {l : List α} (h : l.Pairwise (· < ·)) {k : Nat} {x : α} :
    x ∈ l.take k ↔ x ∈ l ∧ ({y | y ∈ l ∧ y < x} : Set α).ncard < k := by
  induction l generalizing k with
  | nil => simp
  | cons a rest ih =>
    obtain ⟨habove, hrest⟩ := List.pairwise_cons.mp h
    cases k with
    | zero => simp
    | succ k =>
      rw [List.take_succ_cons, List.mem_cons, List.mem_cons, ih hrest]
      by_cases hx : x = a
      · have hnone : {y | y ∈ a :: rest ∧ y < x} = (∅ : Set α) := by
          rw [Set.eq_empty_iff_forall_notMem]
          intro y hy
          rcases List.mem_cons.mp hy.1 with rfl | hmem
          · exact lt_irrefl y (hx ▸ hy.2)
          · exact lt_asymm (habove y hmem) (hx ▸ hy.2)
        rw [hnone, Set.ncard_empty]
        exact iff_of_true (.inl hx) ⟨.inl hx, Nat.succ_pos k⟩
      · rw [or_iff_right hx, or_iff_right hx]
        apply and_congr_right
        intro hmem
        have hmore : {y | y ∈ a :: rest ∧ y < x} = insert a {y | y ∈ rest ∧ y < x} := by
          ext y
          simp only [Set.mem_ofPred_eq, List.mem_cons, Set.mem_insert_iff]
          constructor
          · intro hy
            exact hy.1.imp id fun hyrest => ⟨hyrest, hy.2⟩
          · intro hy
            rcases hy with rfl | hy
            · exact ⟨.inl rfl, habove x hmem⟩
            · exact ⟨.inr hy.1, hy.2⟩
        have hnot : a ∉ {y | y ∈ rest ∧ y < x} := fun ha => lt_irrefl a (habove a ha.1)
        have hfinite : ({y | y ∈ rest ∧ y < x} : Set α).Finite :=
          rest.finite_toSet.subset fun y hy => hy.1
        rw [hmore, Set.ncard_insert_of_notMem hnot hfinite, Nat.succ_lt_succ_iff]

/-- A list of each element of a set, each once. -/
structure Lists (l : List α) (s : Set α) : Prop where
  once : l.Nodup
  mem_iff : ∀ x, x ∈ l ↔ x ∈ s

theorem Lists.length_eq {l : List α} {s : Set α} (h : Lists l s) : l.length = s.ncard := by
  have hs : s = (l.toFinset : Set α) := by
    ext x
    rw [Finset.mem_coe, List.mem_toFinset, h.mem_iff]
  rw [hs, Set.ncard_coe_finset, List.toFinset_card_of_nodup h.once]

theorem Lists.min_iff {l : List α} {s : Set α} (h : Lists l s) {x : α} : l.min? = some x ↔ IsLeast s x := by
  rw [List.min?_eq_some_iff, h.mem_iff]
  exact and_congr_right fun _ => ⟨fun hle y hy => hle y ((h.mem_iff y).mpr hy),
    fun hle y hy => hle ((h.mem_iff y).mp hy)⟩

theorem Lists.max_iff {l : List α} {s : Set α} (h : Lists l s) {x : α} : l.max? = some x ↔ IsGreatest s x := by
  rw [List.max?_eq_some_iff, h.mem_iff]
  exact and_congr_right fun _ => ⟨fun hle y hy => hle y ((h.mem_iff y).mpr hy),
    fun hle y hy => hle ((h.mem_iff y).mp hy)⟩

end

end Intervals

/-! ### Ranges of numbers that continue each other.

A range is an arithmetic progression. In a list of ranges, the newest first, that is
`Chained`, each begins where the one before it ended, and the first at a seed; no number is
in two of them. -/
namespace Ranges

structure Range where
  first : Int
  count : Nat
  step : Int
  deriving DecidableEq

variable {rs : List Range}

namespace Range

/-- The numbers of a range, counted from zero. -/
def number (r : Range) (k : Nat) : Int := r.first + k * r.step

/-- Where the next range begins. -/
def next (r : Range) : Int := r.number r.count

/-- Bounds on the first and the last number are bounds on every number. -/
theorem number_bounded {r : Range} {low high : Int} (hfirst : low ≤ r.first ∧ r.first ≤ high)
    (hlast : low ≤ r.first + (r.count - 1) * r.step ∧ r.first + (r.count - 1) * r.step ≤ high)
    {k : Nat} (hk : k < r.count) : low ≤ r.number k ∧ r.number k ≤ high := by
  have hk' : (k : Int) ≤ r.count - 1 := by omega
  have hk0 : (0 : Int) ≤ k := by omega
  unfold number
  rcases Int.le_total 0 r.step with hstep | hstep
  · have hlow := mul_nonneg hk0 hstep
    have hhigh := mul_le_mul_of_nonneg_right hk' hstep
    omega
  · have hlow := mul_nonpos_of_nonneg_of_nonpos hk0 hstep
    have hhigh := mul_le_mul_of_nonpos_right hk' hstep
    omega

end Range

/-- Where a chain goes on. -/
def following (seed : Int) : List Range → Int
  | [] => seed
  | r :: _ => r.next

/-- Each range begins where the one before it ended. -/
def Chained (seed step : Int) : List Range → Prop
  | [] => True
  | r :: older => r.step = step ∧ r.first = following seed older ∧ Chained seed step older

/-- How many numbers a list of ranges holds. -/
def size : List Range → Nat
  | [] => 0
  | r :: older => size older + r.count

section
variable {seed step : Int}

theorem Chained.following_eq (h : Chained seed step rs) : following seed rs = seed + size rs * step := by
  induction rs with
  | nil => simp [following, size]
  | cons r older ih =>
    obtain ⟨hstep, hfirst, holder⟩ := h
    rw [following, Range.next, Range.number, hfirst, ih holder, hstep, size]
    push_cast
    ring

/-- The numbers of a chain are those of one progression, each range its own part of it. -/
theorem Chained.number_of_mem (h : Chained seed step rs) {r : Range}
    (hr : r ∈ rs) {k : Nat} (hk : k < r.count) : ∃ index, index < size rs ∧ r.number k = seed + index * step := by
  induction rs with
  | nil => cases hr
  | cons newest older ih =>
    obtain ⟨hstep, hfirst, holder⟩ := h
    rcases List.mem_cons.mp hr with rfl | hr
    · refine ⟨size older + k, Nat.add_lt_add_left hk _, ?_⟩
      rw [Range.number, hfirst, holder.following_eq, hstep]
      push_cast
      ring
    · obtain ⟨index, hlt, heq⟩ := ih holder hr
      exact ⟨index, Nat.lt_of_lt_of_le hlt (Nat.le_add_right _ _), heq⟩

/-- No number is in two ranges of a chain. -/
theorem Chained.disjoint (hne : step ≠ 0) (h : Chained seed step rs) :
    rs.Pairwise fun later earlier => ∀ k, k < later.count → ∀ l, l < earlier.count →
      later.number k ≠ earlier.number l := by
  induction rs with
  | nil => exact .nil
  | cons r older ih =>
    obtain ⟨hstep, hfirst, holder⟩ := h
    refine List.pairwise_cons.mpr ⟨fun earlier hearlier k hk l hl heq => ?_, ih holder⟩
    obtain ⟨index, hlt, hnumber⟩ := holder.number_of_mem hearlier hl
    have hindex : (size older + k : Int) * step = index * step := by
      rw [Range.number, hfirst, holder.following_eq, hstep, hnumber] at heq
      linarith
    have hsame := mul_right_cancel₀ hne hindex
    omega

end

end Ranges
