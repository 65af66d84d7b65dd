import Agiru.Filter.Parse
import Agiru.Json.Number
import Agiru.Library.Intervals

/-! The numbers that a filter on a whole number admits, as intervals.

The intervals of an atom are normalised: sorted, and joined where they touch. A conjunction walks two lists
of them side by side, and so needs them apart; all that is made here is. -/
namespace Agiru.Series
open Bytes Agiru.Filter
open Intervals (Interval Covers Apart Gapped numbers)

variable {i : Interval}

/-! ### The operations -/

/-- `Normalised`, from the interval that the next may be joined to. Within a domain of 32 bits none but the last
ends at the last number of 64 bits, so the sum does not wrap. -/
def merged : Interval → List Interval → List Interval
  | last, [] => [last]
  | last, next :: rest =>
    if next.low ≤ last.high + 1 then merged ⟨last.low, max last.high next.high⟩ rest
    else last :: merged next rest

/-- `Normalised`. -/
def normalised (set : List Interval) : List Interval :=
  match (set.filter fun i => !decide (i.low > i.high)).mergeSort fun a b => a.low ≤ b.low with
  | [] => []
  | first :: rest => merged first rest

/-- What two intervals have in common. -/
def overlap (one other : Interval) : List Interval :=
  let low := max one.low other.low
  let high := min one.high other.high
  if low ≤ high then [⟨low, high⟩] else []

/-- `Intersected`: the list whose interval ends first goes on. -/
def intersected : List Interval → List Interval → List Interval
  | [], _ => []
  | _, [] => []
  | a :: left, b :: right =>
    if a.high < b.high then overlap a b ++ intersected left (b :: right)
    else overlap a b ++ intersected (a :: left) right
termination_by left right => left.length + right.length

/-- `AsInteger`. -/
def asInteger (text : Bytes) : Option Int :=
  Json.fromChars (if text.head? = some Ch.plus then text.tail else text)

/-- A sum of 64 bits: it wraps around. -/
def wrapped (n : Int) : Int := n.bmod (2 ^ 64)

/-- `Admitted`. -/
def admitted (atom : Atom) (domain : Interval) : Option (List Interval) :=
  let bound := asInteger atom.value
  match atom.compare with
  | .like | .notLike => none
  | .equal => bound.map fun n => [⟨n, n⟩]
  | .notEqual => bound.map fun n => normalised [⟨domain.low, wrapped (n - 1)⟩, ⟨wrapped (n + 1), domain.high⟩]
  | .less => bound.map fun n => normalised [⟨domain.low, wrapped (n - 1)⟩]
  | .lessOrEqual => bound.map fun n => normalised [⟨domain.low, n⟩]
  | .greater => bound.map fun n => normalised [⟨wrapped (n + 1), domain.high⟩]
  | .greaterEqual => bound.map fun n => normalised [⟨n, domain.high⟩]
  | .between => do
    let low ← if atom.openLower then some domain.low else bound
    let high ← if atom.openUpper then some domain.high else asInteger atom.upper
    return normalised [⟨low, high⟩]

/-- The intervals of a conjunction. -/
def narrowed (domain : Interval) : List Interval → All → Option (List Interval)
  | so, [] => some so
  | so, atom :: atoms => do
    let one ← admitted atom domain
    narrowed domain (intersected so one) atoms

/-- `IntegerIntervals`. -/
def integerIntervals (expression : Expression) (domain : Interval) : Option (List Interval) :=
  if expression = [] then some [domain]
  else (expression.mapM (narrowed domain [domain])).map fun listed => normalised listed.flatten

/-- `CountOf`. -/
def countOf (is : List Interval) : Int := is.foldl (fun count one => wrapped (count + (one.high - one.low + 1))) 0

/-- `Both`. -/
def both (left right : List Interval) : List Interval :=
  left.flatMap fun one => right.flatMap fun other => overlap one other

/-- The first intervals, cut to so many numbers. -/
def capped (left : Int) : List Interval → List Interval
  | [] => []
  | one :: rest =>
    if left ≤ 0 then []
    else
      let high := if one.high - one.low + 1 > left then one.low + left - 1 else one.high
      ⟨one.low, high⟩ :: capped (left - (high - one.low + 1)) rest

example : intersected [⟨1, 5⟩, ⟨8, 12⟩] [⟨3, 9⟩, ⟨11, 20⟩] = [⟨3, 5⟩, ⟨8, 9⟩, ⟨11, 12⟩] := by
  simp [intersected, overlap]

theorem wrapped_of_fits {n : Int} (hlow : -2 ^ 63 ≤ n) (hhigh : n < 2 ^ 63) : wrapped n = n := by
  unfold wrapped
  apply Int.bmod_eq_of_le_mul_two <;> omega

/-! ### Normalised -/

section
variable {is left right : List Interval} {n : Int}

theorem covers_cons : Covers (i :: is) n ↔ n ∈ i ∨ Covers is n := List.exists_mem_cons_iff _ _ _

theorem not_covers_nil : ¬ Covers [] n := by
  intro h
  obtain ⟨i, hi, -⟩ := h
  cases hi

theorem covers_singleton : Covers [i] n ↔ n ∈ i := by
  rw [covers_cons, or_iff_left not_covers_nil]

theorem covers_merged {last : Interval} {rest : List Interval} (hfull : last.low ≤ last.high)
    (hsorted : (last :: rest).Pairwise fun a b => a.low ≤ b.low) (hrest : ∀ i ∈ rest, i.low ≤ i.high) :
    Covers (merged last rest) n ↔ n ∈ last ∨ Covers rest n := by
  induction rest generalizing last with
  | nil => rw [merged, covers_singleton, or_iff_left not_covers_nil]
  | cons next rest ih =>
    obtain ⟨hlast, hsorted⟩ := List.pairwise_cons.mp hsorted
    obtain ⟨hnext, hothers⟩ := List.forall_mem_cons.mp hrest
    have hlow := hlast next List.mem_cons_self
    rw [merged]
    split
    · next hjoin =>
      have hjoined : (⟨last.low, max last.high next.high⟩ :: rest : List Interval).Pairwise
          fun a b => a.low ≤ b.low :=
        List.pairwise_cons.mpr
          ⟨fun i hi => hlast i (List.mem_cons_of_mem _ hi), (List.pairwise_cons.mp hsorted).2⟩
      rw [ih (le_max_of_le_left hfull) hjoined hothers, covers_cons, ← or_assoc]
      apply or_congr_left
      simp only [Intervals.mem_interval]
      omega
    · rw [covers_cons, ih hnext hsorted hothers, covers_cons]

/-- What is merged begins where its first interval does, and has gaps. -/
theorem gapped_merged {last : Interval} {rest : List Interval} (hfull : last.low ≤ last.high)
    (hsorted : (last :: rest).Pairwise fun a b => a.low ≤ b.low) (hrest : ∀ i ∈ rest, i.low ≤ i.high) :
    Gapped (merged last rest) ∧ ∀ i ∈ merged last rest, last.low ≤ i.low := by
  induction rest generalizing last with
  | nil =>
    refine ⟨⟨fun i hi => List.mem_singleton.mp hi ▸ hfull, List.pairwise_singleton _ _⟩, fun i hi => ?_⟩
    rw [List.mem_singleton.mp hi]
  | cons next rest ih =>
    obtain ⟨hlast, hsorted⟩ := List.pairwise_cons.mp hsorted
    obtain ⟨hnext, hothers⟩ := List.forall_mem_cons.mp hrest
    have hlow := hlast next List.mem_cons_self
    rw [merged]
    split
    · have hjoined : (⟨last.low, max last.high next.high⟩ :: rest : List Interval).Pairwise
          fun a b => a.low ≤ b.low :=
        List.pairwise_cons.mpr
          ⟨fun i hi => hlast i (List.mem_cons_of_mem _ hi), (List.pairwise_cons.mp hsorted).2⟩
      exact ih (le_max_of_le_left hfull) hjoined hothers
    · next hgap =>
      obtain ⟨hgaps, habove⟩ := ih hnext hsorted hothers
      refine ⟨⟨List.forall_mem_cons.mpr ⟨hfull, hgaps.full⟩, List.pairwise_cons.mpr ⟨fun i hi => ?_, hgaps.rising⟩⟩,
        List.forall_mem_cons.mpr ⟨le_rfl, fun i hi => hlow.trans (habove i hi)⟩⟩
      have := habove i hi
      omega

/-- The sorted intervals that normalising merges. -/
theorem sorted_full (set : List Interval) :
    let sorted := (set.filter fun i => !decide (i.low > i.high)).mergeSort fun a b => decide (a.low ≤ b.low)
    (sorted.Pairwise fun a b => a.low ≤ b.low) ∧ (∀ i ∈ sorted, i.low ≤ i.high) ∧
      ∀ n, Covers sorted n ↔ Covers set n := by
  have hmem : ∀ i, i ∈ (set.filter fun i => !decide (i.low > i.high)).mergeSort
      (fun a b => decide (a.low ≤ b.low)) ↔ i ∈ set ∧ i.low ≤ i.high := by
    intro i
    rw [List.mem_mergeSort, List.mem_filter]
    simp
  refine ⟨?_, fun i hi => ((hmem i).mp hi).2, fun n => ?_⟩
  · have hsorted := @List.pairwise_mergeSort Interval (fun a b => decide (a.low ≤ b.low))
      (fun a b c hab hbc => by
        rw [decide_eq_true_eq] at hab hbc ⊢
        exact hab.trans hbc)
      (fun a b => by
        rw [Bool.or_eq_true, decide_eq_true_eq, decide_eq_true_eq]
        exact le_total a.low b.low)
      (set.filter fun i => !decide (i.low > i.high))
    exact hsorted.imp fun h => of_decide_eq_true h
  · unfold Covers
    refine exists_congr fun i => ?_
    rw [hmem i, and_assoc]
    apply and_congr_right
    intro _
    rw [and_iff_right_iff_imp, Intervals.mem_interval]
    omega

theorem covers_normalised (set : List Interval) : Covers (normalised set) n ↔ Covers set n := by
  obtain ⟨hsorted, hfull, hcovers⟩ := sorted_full set
  rw [← hcovers, normalised]
  split
  · next hnil => rw [hnil]
  · next first rest hcons =>
    rw [hcons] at hsorted hfull ⊢
    obtain ⟨hfirst, hrest⟩ := List.forall_mem_cons.mp hfull
    rw [covers_merged hfirst hsorted hrest, covers_cons]

theorem gapped_normalised (set : List Interval) : Gapped (normalised set) := by
  obtain ⟨hsorted, hfull, -⟩ := sorted_full set
  rw [normalised]
  split
  · exact ⟨fun _ hi => absurd hi List.not_mem_nil, .nil⟩
  · next first rest hcons =>
    rw [hcons] at hsorted hfull
    obtain ⟨hfirst, hrest⟩ := List.forall_mem_cons.mp hfull
    exact (gapped_merged hfirst hsorted hrest).1

theorem apart_normalised (set : List Interval) : Apart (normalised set) := (gapped_normalised set).apart

/-! ### Intersections -/

/-- What lies behind the first interval of a list is above it. -/
theorem above_of_covers (h : Apart (i :: is)) (hn : Covers is n) : i.high < n := by
  obtain ⟨j, hj, hn⟩ := hn
  exact ((List.pairwise_cons.mp h.rising).1 j hj).trans_le hn.1

theorem mem_overlap {a b : Interval} :
    i ∈ overlap a b ↔ i.low ≤ i.high ∧ i = ⟨max a.low b.low, min a.high b.high⟩ := by
  rw [overlap]
  split
  · next hfull =>
    rw [List.mem_singleton, and_iff_right_of_imp]
    intro h
    rw [h]
    exact hfull
  · next hempty =>
    apply iff_of_false List.not_mem_nil
    intro h
    obtain ⟨hfull, rfl⟩ := h
    exact hempty hfull

theorem covers_overlap {a b : Interval} : Covers (overlap a b) n ↔ n ∈ a ∧ n ∈ b := by
  simp only [Covers, mem_overlap, Intervals.mem_interval]
  constructor
  · intro h
    obtain ⟨i, ⟨-, rfl⟩, hn⟩ := h
    dsimp only at hn
    omega
  · intro h
    refine ⟨_, ⟨?_, rfl⟩, ?_⟩ <;> dsimp only <;> omega

theorem covers_append : Covers (left ++ right) n ↔ Covers left n ∨ Covers right n := by
  unfold Covers
  simp only [List.mem_append, or_and_right, exists_or]

theorem covers_intersected (hleft : Apart left) (hright : Apart right) :
    Covers (intersected left right) n ↔ Covers left n ∧ Covers right n := by
  induction left, right using intersected.induct with
  | case1 | case2 => simp [intersected, not_covers_nil]
  | case3 a left b right hends ih =>
    -- What `b` begins before `a` ends is in `a`, so nothing behind `b` meets it.
    have hafter : Covers right n → n ∉ a := by
      intro hn hna
      have := above_of_covers hright hn
      rw [Intervals.mem_interval] at hna
      omega
    rw [intersected, if_pos hends, covers_append, covers_overlap, ih hleft.tail hright, covers_cons, covers_cons]
    tauto
  | case4 a left b right hends ih =>
    have hafter : Covers left n → n ∉ b := by
      intro hn hnb
      have := above_of_covers hleft hn
      rw [Intervals.mem_interval] at hnb
      omega
    rw [intersected, if_neg hends, covers_append, covers_overlap, ih hleft hright.tail, covers_cons, covers_cons]
    tauto

/-- What is in both lists begins within an interval of each. -/
theorem within_intersected (h : i ∈ intersected left right) :
    i.low ≤ i.high ∧ (∃ a ∈ left, a.low ≤ i.low) ∧ ∃ b ∈ right, b.low ≤ i.low := by
  have hoverlap : ∀ {a b : Interval} {left right : List Interval}, i ∈ overlap a b →
      i.low ≤ i.high ∧ (∃ a' ∈ a :: left, a'.low ≤ i.low) ∧ ∃ b' ∈ b :: right, b'.low ≤ i.low := by
    intro a b left right hi
    obtain ⟨hfull, rfl⟩ := mem_overlap.mp hi
    exact ⟨hfull, ⟨a, List.mem_cons_self, le_max_left _ _⟩, b, List.mem_cons_self, le_max_right _ _⟩
  induction left, right using intersected.induct with
  | case1 | case2 => simp [intersected] at h
  | case3 a left b right hends ih =>
    rw [intersected, if_pos hends] at h
    rcases List.mem_append.mp h with h | h
    · exact hoverlap h
    · obtain ⟨hfull, ⟨a', ha', hlow⟩, hright⟩ := ih h
      exact ⟨hfull, ⟨a', List.mem_cons_of_mem _ ha', hlow⟩, hright⟩
  | case4 a left b right hends ih =>
    rw [intersected, if_neg hends] at h
    rcases List.mem_append.mp h with h | h
    · exact hoverlap h
    · obtain ⟨hfull, hleft, b', hb', hlow⟩ := ih h
      exact ⟨hfull, hleft, b', List.mem_cons_of_mem _ hb', hlow⟩

theorem overlap_rising (a b : Interval) : (overlap a b).Pairwise fun i j => i.high < j.low := by
  rw [overlap]
  split
  · exact List.pairwise_singleton _ _
  · exact .nil

theorem apart_intersected (hleft : Apart left) (hright : Apart right) : Apart (intersected left right) := by
  refine ⟨fun i hi => (within_intersected hi).1, ?_⟩
  induction left, right using intersected.induct with
  | case1 | case2 => simp [intersected]
  | case3 a left b right hends ih =>
    rw [intersected, if_pos hends, List.pairwise_append]
    refine ⟨overlap_rising a b, ih hleft.tail hright, fun i hi j hj => ?_⟩
    obtain ⟨-, rfl⟩ := mem_overlap.mp hi
    obtain ⟨-, ⟨a', ha', hlow⟩, -⟩ := within_intersected hj
    have := (List.pairwise_cons.mp hleft.rising).1 a' ha'
    dsimp only
    omega
  | case4 a left b right hends ih =>
    rw [intersected, if_neg hends, List.pairwise_append]
    refine ⟨overlap_rising a b, ih hleft hright.tail, fun i hi j hj => ?_⟩
    obtain ⟨-, rfl⟩ := mem_overlap.mp hi
    obtain ⟨-, -, b', hb', hlow⟩ := within_intersected hj
    have := (List.pairwise_cons.mp hright.rising).1 b' hb'
    dsimp only
    omega

theorem mem_both : i ∈ both left right ↔ ∃ a ∈ left, ∃ b ∈ right, i ∈ overlap a b := by
  simp only [both, List.mem_flatMap]

theorem covers_both : Covers (both left right) n ↔ Covers left n ∧ Covers right n := by
  constructor
  · intro h
    obtain ⟨i, hi, hn⟩ := h
    obtain ⟨a, ha, b, hb, hi⟩ := mem_both.mp hi
    have hboth := covers_overlap.mp ⟨i, hi, hn⟩
    exact ⟨⟨a, ha, hboth.1⟩, b, hb, hboth.2⟩
  · intro h
    obtain ⟨⟨a, ha, hna⟩, b, hb, hnb⟩ := h
    obtain ⟨i, hi, hn⟩ := covers_overlap.mpr ⟨hna, hnb⟩
    exact ⟨i, mem_both.mpr ⟨a, ha, b, hb, hi⟩, hn⟩

theorem apart_both (hleft : Apart left) (hright : Apart right) : Apart (both left right) := by
  constructor
  · intro i hi
    obtain ⟨a, -, b, -, hi⟩ := mem_both.mp hi
    exact (mem_overlap.mp hi).1
  · unfold both
    rw [List.pairwise_flatMap]
    constructor
    · intro a ha
      rw [List.pairwise_flatMap]
      refine ⟨fun b _ => overlap_rising a b, hright.rising.imp ?_⟩
      intro b b' hbb' i hi j hj
      obtain ⟨-, rfl⟩ := mem_overlap.mp hi
      obtain ⟨-, rfl⟩ := mem_overlap.mp hj
      dsimp only
      omega
    · apply hleft.rising.imp
      intro a a' haa' i hi j hj
      obtain ⟨b, -, hi⟩ := List.mem_flatMap.mp hi
      obtain ⟨b', -, hj⟩ := List.mem_flatMap.mp hj
      obtain ⟨-, rfl⟩ := mem_overlap.mp hi
      obtain ⟨-, rfl⟩ := mem_overlap.mp hj
      dsimp only
      omega

/-! ### The cap -/

/-- The cap keeps the first numbers. -/
theorem numbers_capped {limit : Int} (hfull : ∀ i ∈ is, i.low ≤ i.high) :
    numbers (capped limit is) = (numbers is).take limit.toNat := by
  induction is generalizing limit with
  | nil => rw [capped, numbers, List.flatMap_nil, List.take_nil]
  | cons one rest ih =>
    obtain ⟨hone, hrest⟩ := List.forall_mem_cons.mp hfull
    have hsize : one.size = one.high - one.low + 1 := rfl
    rw [capped]
    split
    · next hnone => rw [Int.toNat_of_nonpos hnone, List.take_zero, numbers, List.flatMap_nil]
    · next hsome =>
      dsimp only
      rw [Intervals.numbers_cons, ih hrest, Intervals.numbers_cons, List.take_append, Intervals.interval_numbers_length]
      split
      · next hcut =>
        rw [← Int.toNat_of_nonneg (Int.le_of_lt (not_le.mp hsome))]
        rw [Intervals.take_interval_numbers (by rw [Int.toNat_of_nonneg (by omega)]; omega)]
        congr 2
        omega
      · next huncut =>
        have hwhole : one.numbers.length ≤ limit.toNat := by
          rw [Intervals.interval_numbers_length]
          omega
        rw [List.take_of_length_le hwhole]
        congr 2
        omega

end

end Agiru.Series
